import AppsScript.Proofs.Editing
import AppsScript.Proofs.Texts
import AppsScript.Script.ModuleSyntax

/-!
# Merging blank lines

`blankLines` read as an operation on lines (`mergeBlank`): behind the first line, a run of at least two
lines of spaces and tabs becomes one empty line.
-/

namespace AppsScript.ModuleSyntax

open Source Scan Text

variable {pre post w t b l r : Text} {ls rest bs : List Text}

/-- What becomes of the lines behind another one; a run of blank lines so far amounts to `run`. -/
def mergeBehind : (run : Option Text) → List Text → List Text
  | none, [] => []
  | some b, [] => [b]
  | none, l :: ls => if AllIndent l then mergeBehind (some l) ls else l :: mergeBehind none ls
  | some b, l :: ls => if AllIndent l then mergeBehind (some []) ls else b :: l :: mergeBehind none ls

/-- The lines with every run of blank lines behind another line merged into one. -/
def mergeBlank : List Text → List Text
  | [] => []
  | l :: ls => l :: mergeBehind none ls

/-- No blank line comes first. -/
def Fresh (ls : List Text) : Prop := ∀ l ∈ ls.head?, ¬ AllIndent l

theorem mergeBehind_some (hbs : ∀ b ∈ bs, AllIndent b) (hrest : Fresh rest) :
    mergeBehind (some b) (bs ++ rest) = (if bs = [] then b else []) :: mergeBehind none rest := by
  induction bs generalizing b with
  | nil =>
    cases rest with
    | nil => rfl
    | cons l rest =>
      have hl : ¬ AllIndent l := hrest l rfl
      simp [mergeBehind, hl]
  | cons l bs ih =>
    have hl : AllIndent l := hbs l (by simp)
    rw [List.cons_append, mergeBehind, if_pos hl, ih fun c hc => hbs c (by simp [hc])]
    simp

/-- Spaces, tabs and line feeds. -/
def isSpread (c : Char) : Bool := c == ' ' || c == '\t' || c == '\n'

theorem isBlank_of_isSpread {c : Char} (h : isSpread c) : isBlank c := by
  simp only [isSpread, Bool.or_eq_true, beq_iff_eq] at h
  rcases h with (rfl | rfl) | rfl <;> decide

theorem reads_blankLines : blankLines.Reads pre w post r ↔
    ∃ b v, w = '\n' :: (b ++ '\n' :: (v ++ ['\n'])) ∧ AllIndent b ∧ (∀ c ∈ v, isSpread c) ∧ r = "\n\n" := by
  simp only [blankLines, reads_indent, reads_bind, reads_word, reads_many, reads_pure]
  constructor
  · rintro ⟨_, _, _, rfl, rfl, b, _, _, rfl, hb, _, _, _, rfl, rfl, v, _, _, rfl, hv, _, _, _, rfl, rfl,
      rfl, rfl⟩
    exact ⟨b, v, by simp, hb, hv, rfl⟩
  · rintro ⟨b, v, rfl, hb, hv, rfl⟩
    exact ⟨['\n'], _, (), rfl, rfl, b, _, (), rfl, hb, ['\n'], _, (), rfl, rfl, v, _, (), rfl, hv, ['\n'],
      [], (), rfl, rfl, rfl, rfl⟩

/-- Lines of which the first is not blank have no line feed behind spaces, tabs and line feeds only. -/
theorem Fresh.not_spread {v s : Text} (hrest : Fresh rest) (hn : ∀ l ∈ rest, '\n' ∉ l)
    (h : unlines rest = v ++ '\n' :: s) : ¬ ∀ c ∈ v, isSpread c := by
  intro hv
  cases rest with
  | nil => simp at h
  | cons l rest =>
    rw [unlines_cons] at h
    obtain ⟨y, rfl, -⟩ := prefix_of_notMem h (hn l (by simp))
    refine hrest l rfl fun c hc => ?_
    have := hv c (by simp [hc])
    simp only [isSpread, Bool.or_eq_true, beq_iff_eq] at this
    rcases this with h | rfl
    · exact h
    · exact absurd hc (hn l (by simp))

theorem fails_blankLines (hbs : ∀ b ∈ bs, AllIndent b) (hlen : bs.length ≤ 1) (hrest : Fresh rest)
    (hn : ∀ l ∈ bs ++ rest, '\n' ∉ l) : blankLines.Fails pre ('\n' :: unlines (bs ++ rest)) := by
  rw [fails_iff]
  intro w post r hw h
  obtain ⟨b, v, rfl, hb, hv, -⟩ := reads_blankLines.1 h
  have hw' : unlines (bs ++ rest) = b ++ '\n' :: (v ++ '\n' :: post) := by simpa using hw
  have hspread : ∀ c ∈ b, isSpread c := fun c hc => by simp [isSpread, hb c hc]
  match bs, hlen with
  | [], _ => exact hrest.not_spread (by simpa using hn) hw' hspread
  | [b'], _ =>
    rw [List.singleton_append, unlines_cons] at hw'
    have hne : '\n' ∉ b := fun hc => absurd (hb _ hc) (by decide)
    obtain ⟨y, rfl, hy⟩ := prefix_of_notMem hw' (hn b' (by simp))
    cases y with
    | nil => exact hrest.not_spread (fun l hl => hn l (by simp [hl])) (List.cons.inj hy).2 hv
    | cons c y =>
      obtain ⟨rfl, -⟩ := List.cons.inj hy
      exact hne (by simp)

theorem passesOver_blankLines {u : Text} (hu : '\n' ∉ u) : (some <$> blankLines).PassesOver pre u post := by
  rintro v w rfl hw
  obtain ⟨c, w, rfl⟩ := List.exists_cons_of_ne_nil hw
  refine Fails.passes (fails_map (Fails.bind (fails_word ?_)))
  rw [List.cons_append]
  intro hp
  have hc : '\n' = c := (List.cons_prefix_cons.1 hp).1
  exact hu (by simp [← hc])

theorem exists_unlines_concat (hls : ls ≠ []) : ∃ v, unlines ls = v ++ ['\n'] := by
  rcases List.eq_nil_or_concat ls with rfl | ⟨ls, l, rfl⟩
  · exact absurd rfl hls
  · exact ⟨unlines ls ++ l, by simp [unlines]⟩

theorem isSpread_of_mem_unlines (h : ∀ l ∈ ls, AllIndent l) : ∀ c ∈ unlines ls, isSpread c := by
  intro c hc
  obtain ⟨l, hl, hc⟩ := List.mem_flatMap.1 hc
  rcases List.mem_append.1 hc with hc | hc
  · simp [isSpread, h l hl c hc]
  · simp [isSpread, List.mem_singleton.1 hc]

theorem readsFirst_blankLines {b' : Text} (hbs : ∀ l ∈ b :: b' :: bs, AllIndent l) (hrest : Fresh rest)
    (hn : ∀ l ∈ rest, '\n' ∉ l) :
    blankLines.ReadsFirst pre ('\n' :: unlines (b :: b' :: bs)) (unlines rest) "\n\n" := by
  obtain ⟨v, hv⟩ := exists_unlines_concat (show b' :: bs ≠ [] by simp)
  have hspread : ∀ c ∈ v, isSpread c := fun c hc =>
    isSpread_of_mem_unlines (fun l hl => hbs l (List.mem_cons_of_mem _ hl)) c (by rw [hv]; simp [hc])
  rw [unlines_cons, hv]
  refine ReadsFirst.bind (u := ['\n']) readsFirst_word ?_
  refine ReadsFirst.bind (readsFirst_many (hbs b (by simp)).isIndent (by simpa using by decide)) ?_
  refine ReadsFirst.bind (u := ['\n']) readsFirst_word ?_
  refine ReadsFirst.many_bind hspread (ReadsFirst.bind (u := ['\n']) (v := []) readsFirst_word
    readsFirst_pure) fun u s hus hu hspread' => ?_
  refine Fails.bind (fails_word fun ⟨t, ht⟩ => ?_)
  obtain ⟨c, u, rfl⟩ := List.exists_cons_of_ne_nil hu
  have hut : unlines rest = u ++ '\n' :: t := by
    have := (List.cons.inj (show '\n' :: unlines rest = c :: (u ++ s) from hus)).2
    rw [this, ← ht]
    rfl
  exact hrest.not_spread hn hut fun c hc => hspread' c (List.mem_cons_of_mem _ hc)

theorem exists_fresh (ls : List Text) : ∃ bs rest, ls = bs ++ rest ∧ (∀ b ∈ bs, AllIndent b) ∧ Fresh rest := by
  refine ⟨ls.takeWhile (AllIndent ·), ls.dropWhile (AllIndent ·),
    (List.takeWhile_append_dropWhile ..).symm, ?_, ?_⟩
  · exact fun b hb => of_decide_eq_true (List.mem_takeWhile_imp (p := fun l : Text => decide (AllIndent l)) hb)
  · intro l hl hb
    have := List.head?_dropWhile_not (AllIndent ·) ls
    rw [Option.mem_def.1 hl] at this
    exact absurd hb (by simpa using this)

theorem mergeBehind_fresh (hrest : Fresh (l :: ls)) :
    mergeBehind none (l :: ls) = l :: mergeBehind none ls := by
  have hl : ¬ AllIndent l := hrest l rfl
  simp [mergeBehind, hl]

/-- A run of one blank line stays, and of a longer one an empty line. -/
theorem mergeBehind_blank (hbs : ∀ c ∈ b :: bs, AllIndent c) (hrest : Fresh rest) :
    mergeBehind none (b :: (bs ++ rest)) = (if bs = [] then b else []) :: mergeBehind none rest := by
  have hb : AllIndent b := hbs b (by simp)
  rw [mergeBehind, if_pos hb, mergeBehind_some (fun c hc => hbs c (by simp [hc])) hrest]

/-- Behind a line feed the lines are those of `mergeBehind`. -/
theorem editAt_blankLines (hn : ∀ l ∈ ls, '\n' ∉ l) : (some <$> blankLines).editAt pre ('\n' :: unlines ls) =
    '\n' :: unlines (mergeBehind none ls) := by
  generalize hlen : ls.length = n
  induction n using Nat.strong_induction_on generalizing ls pre with
  | _ n ih =>
    -- a line is passed over, and then a line feed stands in front of fewer lines
    have hline {pre l : Text} {ls : List Text} (hls : ∀ x ∈ l :: ls, '\n' ∉ x) (hlt : ls.length < n) :
        (some <$> blankLines).editAt pre (unlines (l :: ls)) = unlines (l :: mergeBehind none ls) := by
      rw [unlines_cons, editAt_append (passesOver_blankLines (hls l (by simp))),
        ih _ hlt (fun x hx => hls x (by simp [hx])) rfl, unlines_cons]
    have hfresh {pre : Text} {rest : List Text} (hrest : Fresh rest) (hn : ∀ x ∈ rest, '\n' ∉ x)
        (hle : rest.length ≤ n) :
        (some <$> blankLines).editAt pre (unlines rest) = unlines (mergeBehind none rest) := by
      cases rest with
      | nil => rfl
      | cons l rest => rw [hline hn hle, mergeBehind_fresh hrest]
    obtain ⟨bs, rest, rfl, hbs, hrest⟩ := exists_fresh ls
    have hshort {bs : List Text} (hbs : ∀ b ∈ bs, AllIndent b) (hone : bs.length ≤ 1)
        (hn : ∀ l ∈ bs ++ rest, '\n' ∉ l) :
        (some <$> blankLines).editAt pre ('\n' :: unlines (bs ++ rest)) =
          '\n' :: (some <$> blankLines).editAt (pre ++ ['\n']) (unlines (bs ++ rest)) :=
      editAt_keep (Fails.passes (fails_map (fails_blankLines hbs hone hrest hn)))
    match bs with
    | [] => rw [hshort hbs (by simp) hn, List.nil_append, hfresh hrest hn (by simp [← hlen])]
    | [b] =>
      have hmerge := mergeBehind_blank hbs hrest
      rw [List.nil_append, if_pos rfl] at hmerge
      rw [hshort hbs (by simp) hn]
      simp only [List.singleton_append] at hn hlen ⊢
      rw [hline hn (by simp [← hlen]), hmerge]
    | b :: b' :: bs =>
      have hrestn : ∀ l ∈ rest, '\n' ∉ l := fun l hl => hn l (List.mem_append_right _ hl)
      have hread : blankLines.ReadsFirst pre ('\n' :: unlines (b :: b' :: bs)) (unlines rest) "\n\n" :=
        readsFirst_blankLines hbs hrest hrestn
      have hmerge := mergeBehind_blank hbs hrest
      rw [if_neg (by simp)] at hmerge
      have hput := replaceAt_put hread (by simp)
      rw [hfresh hrest hrestn (by simp [← hlen]; omega)] at hput
      simp only [List.cons_append] at hmerge ⊢
      rw [hmerge]
      simpa [unlines] using hput

theorem replace_blankLines (hn : ∀ l ∈ ls, '\n' ∉ l) :
    blankLines.replace (unlines ls) = unlines (mergeBlank ls) := by
  rw [replace_eq]
  cases ls with
  | nil => rfl
  | cons l ls =>
    rw [unlines_cons, editAt_append (passesOver_blankLines (hn l (by simp))),
      editAt_blankLines fun x hx => hn x (by simp [hx])]
    simp [mergeBlank]

end AppsScript.ModuleSyntax
