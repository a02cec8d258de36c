import AppsScript.Proofs.BlankLines
import AppsScript.Proofs.ModuleLines
import Mathlib.Data.List.ReduceOption

/-!
# Removing module syntax line by line

On a text whose lines follow the grammar of `Line`, no form reads across a line or from the middle of
one (`fails_inside`), so that each pass acts on the lines one by one (`Turns`). `Ends` follows one line
through several passes. The main result is `remove_unlines`: the lines become what the grammar says,
and if any of them changed, blank lines are merged (`mergeBlank`). A statement over several lines counts
as one line here as long as no other statement seems to start inside (`Compact`).
-/

namespace AppsScript.ModuleSyntax

open Source Scan Text

variable {pre post rest t g g₁ g₂ m b d e l r s u v w : Text} {kw sep margin : Text} {form : Scan Text} {ws : List Text}

/-! ### Lines that a form passes over -/

/-- Neither a `;` nor a line feed. -/
def Clean (t : Text) : Prop := ∀ c ∈ t, c ≠ ';' ∧ c ≠ '\n'

theorem Clean.append (hu : Clean u) (hv : Clean v) : Clean (u ++ v) := by
  intro c hc
  rcases List.mem_append.1 hc with hc | hc
  exacts [hu c hc, hv c hc]

theorem Clean.cons {c : Char} (hc : c ≠ ';' ∧ c ≠ '\n') (ht : Clean t) : Clean (c :: t) :=
  Clean.append (u := [c]) (by simpa [Clean] using hc) ht

theorem clean_of_allIndent (h : AllIndent t) : Clean t := by
  intro c hc
  rcases h c hc with rfl | rfl <;> decide

theorem clean_of_isName (h : ∀ c ∈ t, isName c) : Clean t := by
  intro c hc
  constructor <;> rintro rfl <;> exact absurd (h _ hc) (by decide)

theorem clean_of_isAlphanum (h : ∀ c ∈ t, c.isAlphanum) : Clean t :=
  clean_of_isName fun c hc => isName_of_isAlphanum (h c hc)

theorem Gap.clean (h : Gap g) : Clean g := clean_of_allIndent h.2

theorem IsName.clean (h : IsName d) : Clean d := clean_of_isName h.2

theorem IsList.clean (h : IsList l) : Clean l := by
  obtain ⟨b, rfl, hb⟩ := h
  refine Clean.cons (by decide) (Clean.append (fun c hc => ?_) (by simp [Clean]))
  have := hb c hc
  simp only [List.mem_cons, List.not_mem_nil, or_false, not_or] at this
  exact this.2

theorem IsAll.clean (h : IsAll b) : Clean b := by
  obtain ⟨g, g', d, rfl, hg, hg', hd⟩ := h
  exact Clean.cons (by decide) (hg.clean.append
    (Clean.append (clean_of_isAlphanum (by simp)) (hg'.clean.append hd.clean)))

theorem IsSpecifier.clean (h : IsSpecifier s) : Clean s := by
  obtain ⟨q, b, rfl, hq, hb⟩ := h
  have hq' : q ≠ ';' ∧ q ≠ '\n' := by
    simp only [List.mem_cons, List.not_mem_nil, or_false] at hq
    rcases hq with rfl | rfl <;> decide
  refine Clean.cons hq' (Clean.append (fun c hc => ?_) (by simpa [Clean] using hq'))
  have := hb c hc
  simp only [List.mem_cons, List.not_mem_nil, or_false, not_or] at this
  exact this.2.2

theorem IsSource.clean (h : IsSource s) : Clean s := by
  obtain ⟨g, s', rfl, hg, hs⟩ := h
  exact Clean.append (clean_of_isAlphanum (by simp)) (hg.clean.append hs.clean)

theorem Binds.clean (h : Binds b) : Clean b := by
  cases h with
  | name h => exact h.clean
  | list h => exact h.clean
  | all h => exact h.clean
  | nameAndList hd hg hl => exact hd.clean.append (Clean.cons (by decide) (hg.clean.append hl.clean))
  | nameAndAll hd hg hb => exact hd.clean.append (Clean.cons (by decide) (hg.clean.append hb.clean))

theorem Statement.clean (h : Statement s) : Clean s := by
  have hi : Clean "import" := clean_of_isAlphanum (by simp)
  have he : Clean "export" := clean_of_isAlphanum (by simp)
  cases h with
  | importFrom hg₁ hb hg₂ hs => exact hi.append (hg₁.clean.append (hb.clean.append (hg₂.clean.append hs.clean)))
  | importOnly hg hs => exact hi.append (hg.clean.append hs.clean)
  | exportList hg hl => exact he.append (hg.clean.append hl.clean)
  | exportListFrom hg₁ hl hg₂ hs =>
    exact he.append (hg₁.clean.append (hl.clean.append (hg₂.clean.append hs.clean)))
  | exportAll hg₁ hg₂ hs =>
    exact he.append (hg₁.clean.append (Clean.cons (by decide) (hg₂.clean.append hs.clean)))
  | exportAllAs hg₁ hb hg₂ hs =>
    exact he.append (hg₁.clean.append (hb.clean.append (hg₂.clean.append hs.clean)))

theorem solid_of_mem_keywords (h : kw ∈ (["import", "export"] : List Text)) : Solid kw := by
  simp only [List.mem_cons, List.not_mem_nil, or_false] at h
  rcases h with rfl | rfl
  exacts [solid_import, solid_export]

theorem clean_of_mem_keywords (h : kw ∈ (["import", "export"] : List Text)) : Clean kw := by
  have hall : ∀ kw ∈ (["import", "export"] : List Text), ∀ c ∈ kw, c.isAlphanum := by simp
  exact clean_of_isAlphanum (hall kw h)

/-- The only `;` of a statement has nothing but blanks behind it. -/
theorem unbroken_statement (hm : AllIndent m) (hs : Statement s) (he : Ending e) :
    Unbroken (m ++ (s ++ e)) := by
  have hms : Clean (m ++ s) := (clean_of_allIndent hm).append hs.clean
  cases he with
  | blank he =>
    have hc : Clean (m ++ (s ++ e)) := by
      rw [← List.append_assoc]
      exact hms.append (clean_of_allIndent he)
    refine ⟨fun hn => (hc _ hn).2 rfl, fun u m' kw v hl _ _ => ?_⟩
    exact (hc ';' (by rw [hl]; simp)).1 rfl
  | @semicolon x y hx hy =>
    have hc : Clean (m ++ s ++ x) := hms.append (clean_of_allIndent hx)
    have heq : m ++ (s ++ (x ++ ';' :: y)) = (m ++ s ++ x) ++ ';' :: y := by simp
    rw [heq]
    refine ⟨fun hn => ?_, fun u m' kw v hl hm' hkw => ?_⟩
    · rcases List.mem_append.1 hn with hn | hn
      · exact (hc _ hn).2 rfl
      · rcases List.mem_cons.1 hn with hn | hn
        · exact absurd hn (by decide)
        · exact (clean_of_allIndent hy _ hn).2 rfl
    · obtain ⟨z, -, hz⟩ := prefix_of_notMem hl (fun hn => (hc _ hn).1 rfl)
      cases z with
      | nil =>
        obtain ⟨-, hyv⟩ := List.cons.inj hz
        obtain ⟨c, k, rfl, hck⟩ := solid_of_mem_keywords hkw
        have := hy.allBlank c (by simp [hyv])
        rw [hck] at this
        exact absurd this (by simp)
      | cons c z =>
        obtain ⟨-, hyz⟩ := List.cons.inj hz
        exact (clean_of_allIndent hy ';' (by simp [hyz])).1 rfl

/-- No statement of a module starts inside of the text, behind a `;` or a line feed. -/
def Compact (l : Text) : Prop :=
  ∀ u c m kw v, l = u ++ c :: (m ++ (kw ++ v)) → c = ';' ∨ c = '\n' → AllIndent m →
    kw ∉ (["import", "export"] : List Text)

theorem Unbroken.compact (h : Unbroken l) : Compact l := by
  rintro u c m kw v rfl (rfl | rfl) hm
  · exact h.noLater u m kw v rfl hm
  · exact absurd (by simp) h.notMem

/-- What is read on a line up to a keyword lies on that line. -/
theorem exists_of_keyword (hl : Compact (u ++ v)) (hm : AllIndent margin)
    (hkw : kw ∈ (["import", "export"] : List Text)) (hsep : sep = [] ∨ sep = [';'])
    (h : v ++ '\n' :: rest = sep ++ margin ++ kw ++ t) :
    sep = [] ∧ ∃ z, v = margin ++ (kw ++ z) ∧ t = z ++ '\n' :: rest := by
  have hn : '\n' ∉ sep ++ margin ++ kw := by
    intro hn
    rcases List.mem_append.1 hn with hn | hn
    · rcases List.mem_append.1 hn with hn | hn
      · rcases hsep with rfl | rfl <;> simp at hn
      · exact (clean_of_allIndent hm _ hn).2 rfl
    · exact (clean_of_mem_keywords hkw _ hn).2 rfl
  obtain ⟨z, rfl, rfl⟩ := prefix_of_notMem h.symm hn
  rcases hsep with rfl | rfl
  · exact ⟨rfl, z, by simp, rfl⟩
  · exact absurd hkw (hl u ';' margin kw z (by simp) (.inl rfl) hm)

theorem Separates.cases (h : Separates pre sep) : sep = [] ∨ sep = [';'] := by
  rcases h with ⟨rfl, -⟩ | rfl
  exacts [.inl rfl, .inr rfl]

theorem fails_inside (hl : Compact (u ++ v)) (hu : u ≠ []) (hf : form ∈ forms) :
    form.Fails (pre ++ u) (v ++ '\n' :: rest) := by
  rw [fails_iff]
  intro w post a hw hr
  obtain ⟨kw, sep, margin, y, hkw, hop⟩ := opens_of_mem_forms hf hr
  rw [hop.eq, List.append_assoc] at hw
  obtain ⟨rfl, z, rfl, -⟩ := exists_of_keyword hl hop.margin hkw hop.separates.cases hw
  have hstart : (pre ++ u).AtLineStart := by
    rcases hop.separates with ⟨-, h⟩ | h
    · exact h
    · simp at h
  rcases List.eq_nil_or_concat u with rfl | ⟨u, c, rfl⟩
  · exact hu rfl
  · have hc : c = '\n' := hstart c (by simp)
    exact hl u c margin kw z (by simp) (.inr hc) hop.margin hkw

theorem passesOver_of_fails (h : ∀ x y, v = x ++ y → form.Fails (pre ++ x) (y ++ '\n' :: rest)) :
    (some <$> form).PassesOver pre (v ++ ['\n']) rest := by
  intro x w hxw hw
  obtain ⟨y, rfl, hv⟩ := eq_append_of_concat_eq hxw hw
  refine Scan.Fails.passes (fails_map ?_)
  simpa using h x y hv

/-! ### What a form does to a line -/

/-- A line that does not begin with one of the words `ws`, which would go on with a statement in front of it. -/
def Calm (ws : List Text) (l : Text) : Prop := NotBefore ws (trimStart l)

/-- In front of lines that do not begin with the words `ws`, `form` leaves `o` of the line `l`. -/
def Turns (ws : List Text) (form : Scan Text) (l : Text) (o : Option Text) : Prop :=
  ∀ pre ls, pre.AtLineStart → (∀ x ∈ ls, Calm ws x) → (some <$> form).editAt pre (l ++ '\n' :: unlines ls) =
    unlines o.toList ++ (some <$> form).editAt (pre ++ (l ++ ['\n'])) (unlines ls)

theorem turns_of_fails (hl : Compact l) (hf : form ∈ forms)
    (h : ∀ pre post, pre.AtLineStart → form.Fails pre (l ++ '\n' :: post)) : Turns ws form l (some l) := by
  intro pre ls hp _
  have hover : (some <$> form).PassesOver pre (l ++ ['\n']) (unlines ls) := by
    refine passesOver_of_fails fun x y hxy => ?_
    subst hxy
    cases x with
    | nil => simpa using h pre (unlines ls) hp
    | cons c x => exact fails_inside hl (by simp) hf
  simpa using editAt_append hover

/-- A whole statement is read together with the line feed behind it. -/
theorem turns_none (h : ∀ pre ls, pre.AtLineStart → (∀ x ∈ ls, Calm ws x) →
    form.ReadsFirst pre (l ++ ['\n']) (unlines ls) []) : Turns ws form l none := by
  intro pre ls hp hls
  simpa using replaceAt_put (h pre ls hp hls) (by simp)

/-- Of an exported declaration the words in front are read, and the rest is passed over. -/
theorem turns_some (hl : Compact (u ++ v)) (hu : u ≠ []) (hf : form ∈ forms)
    (h : ∀ pre post, pre.AtLineStart → form.ReadsFirst pre u (v ++ '\n' :: post) w) :
    Turns ws form (u ++ v) (some (w ++ v)) := by
  intro pre ls hp _
  have hover : (some <$> form).PassesOver (pre ++ u) (v ++ ['\n']) (unlines ls) := by
    refine passesOver_of_fails fun x y hxy => ?_
    subst hxy
    rw [List.append_assoc]
    exact fails_inside (by simpa using hl) (by simp [hu]) hf
  have hput := replaceAt_put (h pre (unlines ls) hp) hu
  have hrest := editAt_append hover
  simp only [List.append_assoc, List.singleton_append] at hput hrest
  rw [List.append_assoc, hput, hrest]
  simp

/-! ### From lines to texts -/

/-- What the passes `ps` leave of a line. Each pass is a form with the words that would go on with its statements. -/
inductive Ends : (ps : List (List Text × Scan Text)) → (l : Text) → (o : Option Text) → Prop
  | done {l : Text} : Ends [] l (some l)
  | drop {ws : List Text} {f : Scan Text} {ps : List (List Text × Scan Text)} {l : Text} : Calm ws l →
    Turns ws f l none → Ends ((ws, f) :: ps) l none
  | turn {ws : List Text} {f : Scan Text} {ps : List (List Text × Scan Text)} {l l' : Text} {o : Option Text} :
    Calm ws l → Calm ws l' → Turns ws f l (some l') → Turns ws f l' (some l') → Ends ps l' o →
    Ends ((ws, f) :: ps) l o

theorem editAt_unlines {ls : List Text} {outs : List (Option Text)} (hC : ∀ x ∈ ls, Calm ws x)
    (h : List.Forall₂ (Turns ws form) ls outs) (hp : pre.AtLineStart) :
    (some <$> form).editAt pre (unlines ls) = unlines outs.reduceOption := by
  induction h generalizing pre with
  | nil => rfl
  | @cons l o ls outs hl _ ih =>
    have hp' : (pre ++ (l ++ ['\n'])).AtLineStart := by
      rw [AtLineStart, ← List.append_assoc, List.getLast?_concat]
      simp
    rw [unlines_cons, hl pre ls hp fun x hx => hC x (by simp [hx]), ih (fun x hx => hC x (by simp [hx])) hp']
    cases o <;> simp [List.reduceOption_cons_of_some, List.reduceOption_cons_of_none]

/-- What a pass leaves is left as it is by the same pass. -/
theorem removeForm_unlines {ls : List Text} {outs : List (Option Text)} (hC : ∀ x ∈ ls, Calm ws x)
    (h : List.Forall₂ (Turns ws form) ls outs)
    (hout : ∀ x ∈ outs.reduceOption, Calm ws x ∧ Turns ws form x (some x)) :
    removeForm (unlines ls) form = unlines outs.reduceOption := by
  have hstart : AtLineStart [] := by simp [AtLineStart]
  have hagain : List.Forall₂ (Turns ws form) outs.reduceOption (outs.reduceOption.map some) := by
    rw [List.forall₂_map_right_iff, List.forall₂_same]
    exact fun x hx => (hout x hx).2
  refine removeForm_eq ?_ ?_
  · rw [replace_eq]
    exact editAt_unlines hC h hstart
  · rw [replace_eq, editAt_unlines (fun x hx => (hout x hx).1) hagain hstart]
    simp [List.reduceOption]

theorem exists_turns {f : Scan Text} {ps : List (List Text × Scan Text)} {ls : List Text}
    {outs : List (Option Text)} (h : List.Forall₂ (Ends ((ws, f) :: ps)) ls outs) :
    ∃ mids outs', List.Forall₂ (Turns ws f) ls mids ∧ List.Forall₂ (Ends ps) mids.reduceOption outs' ∧
      outs'.reduceOption = outs.reduceOption ∧ (∀ x ∈ ls, Calm ws x) ∧
      ∀ x ∈ mids.reduceOption, Calm ws x ∧ Turns ws f x (some x) := by
  induction h with
  | nil => exact ⟨[], [], .nil, .nil, rfl, by simp, by simp [List.reduceOption]⟩
  | @cons l o ls outs hl _ ih =>
    obtain ⟨mids, outs', hmids, houts, heq, hC, hmid⟩ := ih
    cases hl with
    | drop hCl hturn =>
      refine ⟨none :: mids, outs', .cons hturn hmids, by simpa using houts, by simpa using heq, ?_,
        by simpa using hmid⟩
      simpa [hCl] using hC
    | @turn _ _ _ _ l' _ hCl hCl' hturn hstay hend =>
      refine ⟨some l' :: mids, o :: outs', .cons hturn hmids, ?_, ?_, ?_, ?_⟩
      · rw [List.reduceOption_cons_of_some]
        exact .cons hend houts
      · cases o <;> simpa using heq
      · simpa [hCl] using hC
      · simpa [hCl', hstay] using hmid

theorem foldl_removeForm {ps : List (List Text × Scan Text)} {ls : List Text} {outs : List (Option Text)}
    (h : List.Forall₂ (Ends ps) ls outs) :
    (ps.map Prod.snd).foldl removeForm (unlines ls) = unlines outs.reduceOption := by
  induction ps generalizing ls outs with
  | nil =>
    rw [List.map_nil, List.foldl_nil]
    induction h with
    | nil => rfl
    | cons hl _ ih =>
      cases hl
      simpa [List.reduceOption_cons_of_some] using ih
  | cons p ps ih =>
    obtain ⟨mids, outs', hmids, houts, heq, hC, hmid⟩ := exists_turns h
    rw [List.map_cons, List.foldl_cons, removeForm_unlines hC hmids hmid, ih houts, heq]

/-! ### The lines of the grammar -/

/-- A line that does not begin with module syntax. -/
structure Bare (l : Text) : Prop where
  unbroken : Unbroken l
  notBefore : NotBefore ["import", "export"] (trimStart l)

theorem clean_of_mem_clauses (h : w ∈ clauses) : Clean w := by
  have hall : ∀ w ∈ clauses, ∀ c ∈ w, c.isAlphanum := by simp [clauses]
  exact clean_of_isAlphanum (hall w h)

theorem NotBefore.mono {ws' : List Text} (h : NotBefore ws t) (hws : ws' ⊆ ws) : NotBefore ws' t :=
  fun w hw => h w (hws hw)

section Clauses

variable (hws : ws ⊆ clauses)
include hws

theorem NotBefore.line (hr : NotBefore ws r) : NotBefore ws (r ++ '\n' :: t) := by
  rintro w hw ⟨v, hv⟩
  obtain ⟨y, rfl, -⟩ := prefix_of_notMem hv fun hn => (clean_of_mem_clauses (hws hw) _ hn).2 rfl
  exact hr w hw (List.prefix_append ..)

theorem Calm.inert (hl : Calm ws l) (ht : Inert ws t) : Inert ws (l ++ '\n' :: t) := by
  obtain ⟨g, hg, hblank, hx⟩ := exists_trimStart l
  rw [hg, List.append_assoc]
  refine Inert.append_blank hws ?_ hblank
  rcases hx with hx | hx
  · rw [hx]
    exact ht.newline hws
  · exact inert_of_solid (hx.append _) (NotBefore.line hws hl)

theorem inert_unlines {ls : List Text} (h : ∀ l ∈ ls, Calm ws l) : Inert ws (unlines ls) := by
  induction ls with
  | nil =>
    intro s u hu _ w hw hp
    obtain ⟨-, rfl⟩ := List.append_eq_nil_iff.1 hu.symm
    obtain ⟨c, v, rfl, -⟩ := solid_of_mem_clauses (hws hw)
    simp at hp
  | cons l ls ih =>
    rw [unlines_cons]
    exact (h l (by simp)).inert hws (ih fun x hx => h x (by simp [hx]))

theorem calm_of_keyword {z : Text} (hm : AllIndent m) (hkw : kw ∈ (["import", "export"] : List Text)) :
    Calm ws (m ++ (kw ++ z)) := by
  rw [Calm, trimStart_append hm.allBlank ((solid_of_mem_keywords hkw).append _)]
  intro w hw hp
  have hw := hws hw
  simp only [clauses, List.mem_cons, List.not_mem_nil, or_false] at hw hkw
  rcases hw with rfl | rfl | rfl <;> rcases hkw with rfl | rfl <;> simp at hp

end Clauses

theorem Bare.turns (h : Bare l) (hf : form ∈ forms) : Turns ws form l (some l) := by
  refine turns_of_fails h.unbroken.compact hf fun pre post _ => ?_
  rw [fails_iff]
  intro w post' r hw hr
  obtain ⟨kw, sep, margin, y, hkw, hop⟩ := opens_of_mem_forms hf hr
  rw [hop.eq, List.append_assoc] at hw
  obtain ⟨-, z, rfl, -⟩ := exists_of_keyword (u := []) h.unbroken.compact hop.margin hkw hop.separates.cases hw
  have := h.notBefore kw hkw
  rw [trimStart_append hop.margin.allBlank ((solid_of_mem_keywords hkw).append _)] at this
  exact this (List.prefix_append ..)

/-- A form fails on a line that starts with the other keyword or goes on in another way. -/
theorem turns_of_opening {kw₀ z : Text} {P : Text → Prop} (hl : Compact (m ++ (kw₀ ++ z)))
    (hm : AllIndent m) (hkw₀ : kw₀ ∈ (["import", "export"] : List Text))
    (hkw : kw ∈ (["import", "export"] : List Text)) (hf : form ∈ forms)
    (hr : ∀ {pre w post r}, form.Reads pre w post r → ∃ sep margin v, Opens kw pre w sep margin v ∧ P v)
    (hP : ∀ v post t, v ++ post = z ++ '\n' :: t → kw = kw₀ → ¬ P v) :
    Turns ws form (m ++ (kw₀ ++ z)) (some (m ++ (kw₀ ++ z))) := by
  refine turns_of_fails hl hf fun pre post _ => ?_
  rw [fails_iff]
  intro w post' r hw h
  obtain ⟨sep, margin, v, hop, hv⟩ := hr h
  have heq : (m ++ (kw₀ ++ z)) ++ '\n' :: post = sep ++ margin ++ kw ++ (v ++ post') := by
    rw [hw, hop.eq, List.append_assoc]
  obtain ⟨-, z', heq, hz⟩ := exists_of_keyword (u := []) hl hop.margin hkw hop.separates.cases heq
  obtain ⟨-, hkz⟩ := hm.unique hop.margin heq
    ((solid_of_mem_keywords hkw₀).append _).not_isIndent ((solid_of_mem_keywords hkw).append _).not_isIndent
  have hsame : kw = kw₀ := by
    simp only [List.mem_cons, List.not_mem_nil, or_false] at hkw hkw₀
    rcases hkw with rfl | rfl <;> rcases hkw₀ with rfl | rfl <;> simp_all
  subst hsame
  obtain rfl := List.append_cancel_left hkz
  exact hP v post' post hz rfl hv

theorem solid_type : Solid "type" := ⟨'t', _, rfl, rfl⟩

/-! What a form expects behind the keyword, compared with what the line `x` has there. -/

section Keyword

variable {x : Text} (hg : AllBlank g) (hx : Solid x) (hv : v ++ post = (g ++ x) ++ t)
include hg hx hv

theorem behind_gap (hs : AllBlank s) (hu : Solid u) (h : v = s ++ u) : u ++ post = x ++ t := by
  refine (span_unique (by rw [← List.append_assoc, ← h, hv, List.append_assoc]) hs hg ?_ ?_).2
  · exact (hu.append _).not_isBlank
  · exact (hx.append _).not_isBlank

theorem head_of_gap {c : Char} (hs : AllBlank s) (hc : isBlank c = false) (hu : u.head? = some c) (h : v = s ++ u) :
    x.head? = some c := by
  obtain ⟨u, rfl⟩ := List.head?_eq_some_iff.1 hu
  have hx' := behind_gap hg hx hv hs (solid_cons.2 hc) h
  obtain ⟨y, x, rfl, -⟩ := hx
  rw [List.head?_cons, (List.cons.inj hx').1]

theorem NamesBindings.head (h : NamesBindings v) : ∃ c ∈ x.head?, isName c ∨ c = '*' ∨ c = '\x7b' := by
  obtain ⟨s, u, c, hvu, hs, hc, hcases⟩ := h
  have hsolid : isBlank c = false := by
    rcases hcases with h | rfl | rfl
    · by_contra hb
      rw [not_isName_of_isBlank (by simpa using hb)] at h
      exact absurd h (by simp)
    all_goals decide
  exact ⟨c, head_of_gap hg hx hv hs hsolid hc hvu, hcases⟩

theorem NamesList.cases (h : NamesList v) :
    x.head? = some '\x7b' ∨ ∃ s y, AllBlank s ∧ x ++ t = "type" ++ (s ++ '\x7b' :: y) := by
  obtain ⟨s, u, hvu, hs, hu | ⟨s', hs', y, rfl⟩⟩ := h
  · exact .inl (head_of_gap hg hx hv hs (by decide) hu hvu)
  · have hu : Solid (("type" : Text) ++ s' ++ "\x7b" ++ y) := ((solid_type.append _).append _).append _
    refine .inr ⟨s', y ++ post, hs', ?_⟩
    rw [← behind_gap hg hx hv hs hu hvu]
    simp

theorem NamesAll.head (h : NamesAll v) : x.head? = some '*' := by
  obtain ⟨s, u, hvu, hs, hu⟩ := h
  exact head_of_gap hg hx hv hs (by decide) hu hvu

end Keyword

theorem turns_importFrom_of_importOnly (hg : AllBlank g) (hs : IsModule s) (hm : AllIndent m)
    (hl : Compact (m ++ ("import" ++ (g ++ (s ++ e))))) :
    Turns ws importFrom (m ++ ("import" ++ (g ++ (s ++ e)))) (some (m ++ ("import" ++ (g ++ (s ++ e))))) := by
  refine turns_of_opening hl hm (by simp) (by simp) (by simp [forms]) reads_importFrom ?_
  intro v post t hv _ h
  obtain ⟨c, hc, hcases⟩ := h.head hg (hs.solid.append e) hv
  obtain ⟨q, b, q', rfl, hq, -⟩ := hs
  obtain rfl : q = c := by simpa using hc
  simp only [List.mem_cons, List.not_mem_nil, or_false] at hq
  rcases hq with rfl | rfl <;> exact absurd hcases (by decide)

theorem turns_import_of_export {z : Text} (hm : AllIndent m) (hl : Compact (m ++ ("export" ++ z)))
    (hf : form = importFrom ∨ form = importOnly) :
    Turns ws form (m ++ ("export" ++ z)) (some (m ++ ("export" ++ z))) := by
  rcases hf with rfl | rfl
  · refine turns_of_opening hl hm (by simp) (by simp) (by simp [forms]) reads_importFrom ?_
    exact fun _ _ _ _ hkw => absurd hkw (by simp)
  · refine turns_of_opening hl hm (by simp) (by simp) (by simp [forms]) reads_importOnly ?_
    exact fun _ _ _ _ hkw => absurd hkw (by simp)

section Export

variable {x : Text} (hm : AllIndent m) (hg : AllBlank g) (hx : Solid x)
  (hl : Compact (m ++ ("export" ++ (g ++ x))))
include hm hg hx hl

theorem turns_exportList (hhead : x.head? ≠ some '\x7b')
    (htype : ∀ t s y, AllBlank s → x ++ t ≠ "type" ++ (s ++ '\x7b' :: y)) :
    Turns ws exportList (m ++ ("export" ++ (g ++ x))) (some (m ++ ("export" ++ (g ++ x)))) := by
  refine turns_of_opening hl hm (by simp) (by simp) (by simp [forms]) reads_exportList ?_
  intro v post t hv _ h
  rcases h.cases hg hx hv with h | ⟨s, y, hs, h⟩
  · exact hhead h
  · exact htype _ s y hs h

theorem turns_exportAll (hhead : x.head? ≠ some '*') :
    Turns ws exportAll (m ++ ("export" ++ (g ++ x))) (some (m ++ ("export" ++ (g ++ x)))) := by
  refine turns_of_opening hl hm (by simp) (by simp) (by simp [forms]) reads_exportAll ?_
  exact fun v post t hv _ h => hhead (h.head hg hx hv)

theorem turns_exportDefault (hdef : ∀ t s y, s ≠ [] → AllBlank s → x ++ t ≠ ("default" : Text) ++ (s ++ y)) :
    Turns ws exportDefault (m ++ ("export" ++ (g ++ x))) (some (m ++ ("export" ++ (g ++ x)))) := by
  refine turns_of_opening (P := fun v => ∃ y s, v = y ++ s ∧ NamesWord "default" y ∧ s ≠ [] ∧ AllBlank s)
    hl hm (by simp) (List.mem_cons_of_mem _ (List.mem_singleton.2 rfl)) (by simp [forms]) ?_ ?_
  · intro pre w post r h
    obtain ⟨sep, margin, v, s, hop, hv, hs, hb, -⟩ := reads_exportDefault.1 h
    exact ⟨sep, margin, v ++ s, hop, v, s, rfl, hv, hs, hb⟩
  · rintro v post t hv _ ⟨y, s, rfl, ⟨s', hs', hb', rfl⟩, hs, hb⟩
    have := behind_gap hg hx hv hb' (u := ("default" : Text) ++ s) ⟨'d', _, rfl, rfl⟩ (by simp)
    exact hdef _ s post hs hb (by simpa using this.symm)

theorem turns_exportModifier (hmod : ∀ t, ∀ kw ∈ declarationWords, ¬ kw <+: x ++ t) :
    Turns ws exportModifier (m ++ ("export" ++ (g ++ x))) (some (m ++ ("export" ++ (g ++ x)))) := by
  refine turns_of_opening (P := fun v => ∃ kw ∈ declarationWords, NamesWord kw v) hl hm (by simp)
    (List.mem_cons_of_mem _ (List.mem_singleton.2 rfl)) (by simp [forms]) ?_ ?_
  · intro pre w post r h
    obtain ⟨sep, margin, v, kw, hop, hkw, hv, -⟩ := reads_exportModifier.1 h
    exact ⟨sep, margin, v, hop, kw, hkw, hv⟩
  · rintro _ post t hv _ ⟨kw, hkw, s, -, hb, rfl⟩
    have hsolid : Solid kw := solid_of_isWord (ne_nil_of_mem_declarationWords hkw) (isWord_of_mem_declarationWords hkw)
    have := behind_gap hg hx hv hb hsolid rfl
    exact hmod _ kw hkw ⟨post, this⟩

end Export

/-- The forms in their order, with the words that none of the lines behind may begin with. -/
def passes : List (List Text × Scan Text) :=
  [(clauses, importFrom), (["from"], importOnly), (["from"], exportList), (["from"], exportAll),
    ([], exportDefault), ([], exportModifier)]

theorem map_passes : passes.map Prod.snd = forms := rfl

theorem subset_of_mem_passes {p : List Text × Scan Text} (hp : p ∈ passes) : p.1 ⊆ clauses ∧ p.2 ∈ forms := by
  simp only [passes, List.mem_cons, List.not_mem_nil, or_false] at hp
  rcases hp with rfl | rfl | rfl | rfl | rfl | rfl <;> simp [clauses, forms]

section Ends

variable {ps : List (List Text × Scan Text)} {o : Option Text}

theorem Ends.keep (hl : Calm ws l) (hturn : Turns ws form l (some l)) (h : Ends ps l o) :
    Ends ((ws, form) :: ps) l o := .turn hl hl hturn hturn h

theorem ends_of_turns (hps : ∀ p ∈ ps, Calm p.1 l ∧ Turns p.1 p.2 l (some l)) : Ends ps l (some l) := by
  induction ps with
  | nil => exact .done
  | cons p ps ih =>
    obtain ⟨hcalm, hturn⟩ := hps p (by simp)
    exact .keep hcalm hturn (ih fun x hx => hps x (by simp [hx]))

theorem Bare.ends (h : Bare l) (hps : ∀ p ∈ ps, Calm p.1 l ∧ p.2 ∈ forms) : Ends ps l (some l) :=
  ends_of_turns fun p hp => ⟨(hps p hp).1, h.turns (hps p hp).2⟩

/-- The passes `before` leave the line as it is. -/
theorem Ends.behind {before : List (List Text × Scan Text)} (hl : ∀ p ∈ before, Calm p.1 l)
    (hbefore : ∀ p ∈ before, Turns p.1 p.2 l (some l)) (h : Ends ps l o) : Ends (before ++ ps) l o := by
  induction before with
  | nil => exact h
  | cons p before ih =>
    exact .keep (hl p (by simp)) (hbefore p (by simp))
      (ih (fun q hq => hl q (by simp [hq])) fun q hq => hbefore q (by simp [hq]))

end Ends

theorem Spelled.exists_keyword (hs : Spelled ws s) :
    ∃ kw z, kw ∈ (["import", "export"] : List Text) ∧ s = kw ++ z := by
  cases hs
  case importFrom => exact ⟨"import", _, by simp, rfl⟩
  case importOnly => exact ⟨"import", _, by simp, rfl⟩
  all_goals exact ⟨"export", _, by simp, rfl⟩

theorem Spelled.subset (hs : Spelled ws s) : ws ⊆ clauses := by
  cases hs <;> simp [clauses]

theorem Spelled.calm {ws' : List Text} (hs : Spelled ws s) (hws : ws' ⊆ clauses) (hm : AllIndent m) :
    Calm ws' (m ++ (s ++ e)) := by
  obtain ⟨kw, z, hkw, rfl⟩ := hs.exists_keyword
  rw [List.append_assoc]
  exact calm_of_keyword hws hm hkw

/-- The first passes leave a line that the statement `s` begins, and the next one, with `form`, reads the statement. -/
structure Belongs (ws : List Text) (before : List (List Text × Scan Text)) (form : Scan Text) (m s e : Text) :
    Prop where
  splits : ∃ after, passes = before ++ (ws, form) :: after ∧ ∀ p ∈ after, p.1 ⊆ ws
  passed : ∀ p ∈ before, Turns p.1 p.2 (m ++ (s ++ e)) (some (m ++ (s ++ e)))
  reads : ∀ {pre e' post : Text}, pre.AtLineStart → Stops ws e' post → form.ReadsFirst pre (m ++ (s ++ e')) post []

theorem belongs_importOnly (hm : AllIndent m) (hg : AllBlank g) (hs : IsModule s)
    (hl : Compact (m ++ (("import" ++ (g ++ s)) ++ e))) :
    Belongs ["from"] [(clauses, importFrom)] importOnly m ("import" ++ (g ++ s)) e where
  splits := ⟨_, rfl, by simp⟩
  passed := by
    rw [List.append_assoc, List.append_assoc] at hl ⊢
    simpa using turns_importFrom_of_importOnly hg hs hm hl
  reads hp he := by simpa using readsFirst_importOnly hp hm hg hs he

theorem belongs_exportList {q : Text} {o : Option Unit} (hm : AllIndent m) (hg : AllBlank g) (hl : InBraces l)
    (hq : ∀ {pre t}, Inert ["from"] t → source.maybe.ReadsFirst pre q t o)
    (hline : Compact (m ++ (("export" ++ (g ++ (l ++ q))) ++ e))) :
    Belongs ["from"] [(clauses, importFrom), (["from"], importOnly)] exportList m
      ("export" ++ (g ++ (l ++ q))) e where
  splits := ⟨_, rfl, by simp⟩
  passed := by
    intro p hp
    rw [List.append_assoc] at hline ⊢
    simp only [List.mem_cons, List.not_mem_nil, or_false] at hp
    rcases hp with rfl | rfl
    · exact turns_import_of_export hm hline (.inl rfl)
    · exact turns_import_of_export hm hline (.inr rfl)
  reads hp he := by simpa using readsFirst_exportList hp hm hg hl (fun pre => hq he.inert) he

theorem belongs_exportAll {q : Text} {o : Option Unit} (hm : AllIndent m) (hg₁ : AllBlank g₁) (hg₂ : AllBlank g₂)
    (hs : IsOrigin s) (hq : ∀ {pre t}, (do space; asName : Scan Unit).maybe.ReadsFirst pre q ((g₂ ++ s) ++ t) o)
    (hl : Compact (m ++ (("export" ++ (g₁ ++ ('*' :: (q ++ (g₂ ++ s))))) ++ e))) :
    Belongs ["from"] [(clauses, importFrom), (["from"], importOnly), (["from"], exportList)] exportAll m
      ("export" ++ (g₁ ++ ('*' :: (q ++ (g₂ ++ s))))) e where
  splits := ⟨_, rfl, by simp⟩
  passed := by
    intro p hp
    rw [List.append_assoc, List.append_assoc, List.cons_append] at hl ⊢
    simp only [List.mem_cons, List.not_mem_nil, or_false] at hp
    rcases hp with rfl | rfl | rfl
    · exact turns_import_of_export hm hl (.inl rfl)
    · exact turns_import_of_export hm hl (.inr rfl)
    · exact turns_exportList hm hg₁ ⟨'*', _, rfl, rfl⟩ hl (by simp) (by simp)
  reads {pre e' post} hp he := by
    have hname (pre : Text) : (do space; asName : Scan Unit).maybe.ReadsFirst pre q ((g₂ ++ s) ++ e' ++ post) o := by
      rw [List.append_assoc]
      exact hq
    simpa using readsFirst_exportAll hp hm hg₁ hname hg₂ hs he

theorem Spelled.belongs (hs : Spelled ws s) (hm : AllIndent m) (hl : Compact (m ++ (s ++ e))) :
    ∃ before form, Belongs ws before form m s e := by
  cases hs with
  | @importFrom g₁ b g₂ s x hg₁ hstart hb hs hx =>
    refine ⟨[], ModuleSyntax.importFrom, ⟨_, rfl, by simp [clauses]⟩, by simp, fun hp he => ?_⟩
    simpa using readsFirst_importFrom hp hm hg₁ hstart hb hs hx he
  | importOnly hg hs => exact ⟨_, _, belongs_importOnly hm hg hs hl⟩
  | @exportList g l hg hl' =>
    have hline : Compact (m ++ ((("export" : Text) ++ (g ++ (l ++ []))) ++ e)) := by simpa using hl
    have hbelongs := belongs_exportList (q := []) hm hg hl' (fun ht => readsFirst_maybe_none ht.fails_source) hline
    exact ⟨_, _, by simpa using hbelongs⟩
  | exportListFrom hg₁ hl' hg₂ hs =>
    exact ⟨_, _, belongs_exportList hm hg₁ hl' (fun _ => (readsFirst_source hg₂ hs).maybe_some) hl⟩
  | @exportAll g₁ g₂ s hg₁ hg₂ hs =>
    refine ⟨_, _, belongs_exportAll (q := []) hm hg₁ hg₂ hs (readsFirst_maybe_none ?_) hl⟩
    rw [List.append_assoc]
    refine fails_space_word (f := fun _ => do space1; anyName) hg₂ (hs.solid.append _) ⟨'a', _, rfl, rfl⟩ ?_
    obtain ⟨g, s', rfl, -⟩ := hs
    simp
  | @exportAllAs g₁ b g₂ s hg₁ hb hg₂ hs =>
    obtain ⟨g, g', d, rfl, hg, hg', hd⟩ := hb
    have hline : Compact (m ++ ((("export" : Text) ++ (g₁ ++ ('*' :: ((g ++ ("as" ++ (g' ++ d))) ++ (g₂ ++ s))))) ++ e)) := by
      simpa using hl
    have hname {pre t : Text} : (do space; asName : Scan Unit).maybe.ReadsFirst pre (g ++ ("as" ++ (g' ++ d)))
        ((g₂ ++ s) ++ t) (some ()) := by
      refine (ReadsFirst.bind (readsFirst_space hg ⟨'a', _, rfl, rfl⟩) (readsFirst_asName hg' hd ?_)).maybe_some
      rw [List.append_assoc]
      exact hg₂.not_isName
    exact ⟨_, _, by simpa using belongs_exportAll hm hg₁ hg₂.2 hs hname hline⟩

/-- A statement that has its last line for itself goes. -/
theorem ends_spelled {n : Text} (hm : AllIndent m) (hs : Spelled ws s) (he : Ending e) (hn : IsBreak (n ++ ['\n']))
    (hl : Compact (m ++ (s ++ (e ++ n)))) : Ends passes (m ++ (s ++ (e ++ n))) none := by
  obtain ⟨before, form, ⟨after, hpasses, -⟩, hbefore, hread⟩ := hs.belongs hm hl
  have hcalm : ∀ p ∈ passes, Calm p.1 (m ++ (s ++ (e ++ n))) := fun p hp => hs.calm (subset_of_mem_passes hp).1 hm
  rw [hpasses] at hcalm ⊢
  refine .behind (fun p hp => hcalm p (by simp [hp])) hbefore ?_
  refine .drop (hs.calm hs.subset hm) (turns_none fun pre ls hp hls => ?_)
  have hstops : Stops ws (e ++ (n ++ ['\n'])) (unlines ls) := he.stops hs.subset hn (inert_unlines hs.subset hls)
  simpa using hread hp hstops

/-- Of a line that starts with a statement the rest stays. -/
theorem ends_spelled_before (hm : AllIndent m) (hs : Spelled ws s) (he : Ending e) (hr : Bare r) (hsolid : Solid r)
    (hsemi : r.head? = some ';' → ';' ∈ e) (hnot : NotBefore ws r) (hl : Compact (m ++ (s ++ (e ++ r)))) :
    Ends passes (m ++ (s ++ (e ++ r))) (some r) := by
  obtain ⟨before, form, ⟨after, hpasses, hafter⟩, hbefore, hread⟩ := hs.belongs hm hl
  have hcalm : ∀ p ∈ passes, Calm p.1 (m ++ (s ++ (e ++ r))) := fun p hp => hs.calm (subset_of_mem_passes hp).1 hm
  have hforms : ∀ p ∈ passes, p.2 ∈ forms := fun p hp => (subset_of_mem_passes hp).2
  have htrim : trimStart r = r := trimStart_append (u := []) (by simp [AllBlank]) hsolid
  have hcalm' {ws' : List Text} (hws : ws' ⊆ ws) : Calm ws' r := by
    rw [Calm, htrim]
    exact hnot.mono hws
  rw [hpasses] at hcalm hforms ⊢
  have hform : form ∈ forms := hforms (ws, form) (by simp)
  have hturn : Turns ws form ((m ++ (s ++ e)) ++ r) (some ([] ++ r)) := by
    refine turns_some (by simpa using hl) ?_ hform fun pre post hp => hread hp ?_
    · obtain ⟨kw, z, hkw, rfl⟩ := hs.exists_keyword
      obtain ⟨c, kw, rfl, -⟩ := solid_of_mem_keywords hkw
      simp
    · refine he.stops_before hs.subset (hsolid.append _) ?_
        (inert_of_solid (hsolid.append _) (NotBefore.line hs.subset hnot))
      obtain ⟨c, r, rfl, -⟩ := hsolid
      exact hsemi
  refine .behind (fun p hp => hcalm p (by simp [hp])) hbefore ?_
  -- what stays has no module syntax in front, and the later passes expect no more of it than this one
  refine .turn (hcalm (ws, form) (by simp)) (hcalm' (List.Subset.refl _)) ?_ (hr.turns hform) ?_
  · simpa using hturn
  · exact hr.ends fun p hp => ⟨hcalm' (hafter p hp), hforms p (by simp [hp])⟩

/-! ### Exported declarations -/

theorem Blanks.not_isWord (h : Blanks g) : ∀ c ∈ (g ++ t).head?, ¬ isWord c :=
  fun c hc hw => h.not_isName c hc (by simp [isName, hw])

theorem eq_of_word_append {s : Text} (hkw : ∀ c ∈ kw, isWord c) (hd : ∀ c ∈ d, c.isAlphanum) (hg : Blanks g)
    (hs : ∀ c ∈ s.head?, ¬ isWord c) (h : (kw ++ (g ++ r)) ++ t = d ++ s) : kw = d ∧ g ++ (r ++ t) = s :=
  span_unique (by simpa using h) hkw (fun c hc => isWord_of_isAlphanum (hd c hc)) hg.not_isWord hs

theorem Compact.change (h : Compact (u ++ r)) (hr : '\n' ∉ r) (hv : Clean v) : Unbroken (v ++ r) := by
  refine ⟨fun hn => ?_, fun x m kw y hxy hm hkw => ?_⟩
  · exact (List.mem_append.1 hn).elim (fun hn => (hv _ hn).2 rfl) hr
  · obtain ⟨z, -, rfl⟩ := prefix_of_notMem hxy fun hn => (hv _ hn).1 rfl
    exact h (u ++ z) ';' m kw y (by simp) (.inl rfl) hm hkw

theorem Exported.bare (hr : Exported r) (hm : AllIndent m) (hl : Compact (u ++ r)) (hn : '\n' ∉ r) : Bare (m ++ r) := by
  refine ⟨hl.change hn (clean_of_allIndent hm), ?_⟩
  rw [trimStart_append hm.allBlank hr.solid]
  exact hr.notBefore

theorem exported_of_mem_declarationWords (hkw : kw ∈ declarationWords) (hg : Blanks g) : Exported (kw ++ (g ++ r)) := by
  refine ⟨(solid_of_isWord (ne_nil_of_mem_declarationWords hkw) (isWord_of_mem_declarationWords hkw)).append _, ?_⟩
  rintro w hw ⟨y, hy⟩
  rcases List.append_eq_append_iff.1 hy with ⟨z, rfl, -⟩ | ⟨z, hz, hgr⟩
  · have hall : ∀ kw ∈ declarationWords, ∀ w ∈ (["import", "export"] : List Text), ¬ w <+: kw := by
      simp [declarationWords]
    exact hall _ hkw w hw (List.prefix_append ..)
  · have hne : ∀ kw ∈ declarationWords, kw ∉ (["import", "export"] : List Text) := by simp [declarationWords]
    cases z with
    | nil => exact hne kw hkw (by simpa [hz] using hw)
    | cons c z =>
      obtain ⟨x, v, hv, hx⟩ := hg.head r
      obtain rfl : x = c := by rw [hv] at hgr; exact (List.cons.inj hgr).1
      have hall : ∀ w ∈ (["import", "export"] : List Text), ∀ c ∈ w, c.isAlphanum := by simp
      have hword := isName_of_isAlphanum (hall w hw x (by simp [hz]))
      rw [not_isName_of_isBlank hx] at hword
      exact absurd hword (by simp)

theorem calm_nil : Calm [] l := by simp [Calm, NotBefore]

/-- The passes for whole statements leave an exported declaration as it is. -/
theorem ends_export {x : Text} {o : Option Text} (hm : AllIndent m)
    (hg : AllBlank g) (hx : Solid x) (hl : Compact (m ++ ("export" ++ (g ++ x)))) (hstar : x.head? ≠ some '*')
    (hbrace : x.head? ≠ some '\x7b') (htype : ∀ t s y, AllBlank s → x ++ t ≠ "type" ++ (s ++ '\x7b' :: y))
    (h : Ends [([], exportDefault), ([], exportModifier)] (m ++ ("export" ++ (g ++ x))) o) :
    Ends passes (m ++ ("export" ++ (g ++ x))) o := by
  have hfrom : (["from"] : List Text) ⊆ clauses := by simp [clauses]
  have hcalm : Calm ["from"] (m ++ ("export" ++ (g ++ x))) := calm_of_keyword hfrom hm (by simp)
  refine .keep (calm_of_keyword (List.Subset.refl _) hm (by simp)) (turns_import_of_export hm hl (.inl rfl)) ?_
  refine .keep hcalm (turns_import_of_export hm hl (.inr rfl)) ?_
  refine .keep hcalm (turns_exportList hm hg hx hl hbrace htype) ?_
  exact .keep hcalm (turns_exportAll hm hg hx hl hstar) h

theorem ends_exportDefault (hm : AllIndent m) (hg₁ : Blanks g₁) (hg₂ : Blanks g₂) (hr : Exported r) (hn : '\n' ∉ r)
    (hl : Compact (m ++ (("export" : Text) ++ (g₁ ++ (("default" : Text) ++ (g₂ ++ r)))))) :
    Ends passes (m ++ (("export" : Text) ++ (g₁ ++ (("default" : Text) ++ (g₂ ++ r))))) (some (m ++ r)) := by
  have hbare : Bare (m ++ r) := by
    refine hr.bare (u := m ++ (("export" : Text) ++ (g₁ ++ (("default" : Text) ++ g₂)))) hm ?_ hn
    simpa using hl
  have hturn : Turns [] exportDefault
      ((m ++ (("export" : Text) ++ (g₁ ++ (("default" : Text) ++ (g₂ ++ []))))) ++ r) (some (m ++ r)) := by
    refine turns_some (by simpa using hl) (by simp) (by simp [forms]) fun pre post hp => ?_
    exact readsFirst_exportDefault hp hm hg₁ hg₂ (hr.solid.append _)
  refine ends_export hm hg₁.2 ⟨'d', _, rfl, rfl⟩ hl (by simp) (by simp) (by simp) ?_
  refine .turn calm_nil calm_nil (by simpa using hturn) (hbare.turns (by simp [forms])) ?_
  exact hbare.ends (by simp [forms, calm_nil])

theorem ends_exportModifier (hm : AllIndent m) (hg₁ : Gap g₁) (hkw : kw ∈ declarationWords) (hg₂ : Gap g₂)
    (hr : Exported r) (htype : kw = "type" → r.head? ≠ some '\x7b')
    (hl : Unbroken (m ++ ("export" ++ (g₁ ++ (kw ++ (g₂ ++ r)))))) :
    Ends passes (m ++ ("export" ++ (g₁ ++ (kw ++ (g₂ ++ r))))) (some (m ++ (kw ++ (g₂ ++ r)))) := by
  have hcompact := hl.compact
  have hword := isWord_of_mem_declarationWords hkw
  have hx : Exported (kw ++ (g₂ ++ r)) := exported_of_mem_declarationWords hkw hg₂.blanks
  have hbare : Bare (m ++ (kw ++ (g₂ ++ r))) := by
    refine hx.bare (u := m ++ ("export" ++ g₁)) hm ?_ fun hn => hl.notMem (by simp [hn])
    simpa using hcompact
  have hhead (c : Char) (hc : isWord c = false) : (kw ++ (g₂ ++ r)).head? ≠ some c := by
    obtain ⟨x, v, rfl⟩ := List.exists_cons_of_ne_nil (ne_nil_of_mem_declarationWords hkw)
    rintro hxc
    obtain rfl : x = c := by simpa using hxc
    exact absurd (hword x (by simp)) (by simp [hc])
  have hlist : ∀ t s y, AllBlank s → (kw ++ (g₂ ++ r)) ++ t ≠ "type" ++ (s ++ '\x7b' :: y) := by
    intro t s y hs h
    obtain ⟨rfl, hrest⟩ := eq_of_word_append hword (by simp) hg₂.blanks
      (not_isWord_head hs (by simpa using by decide)) h
    obtain ⟨-, hbrace⟩ := span_unique hrest hg₂.allBlank hs (hr.solid.append t).not_isBlank
      (by simpa using by decide)
    obtain ⟨c, r, rfl, -⟩ := hr.solid
    obtain ⟨rfl, -⟩ := List.cons.inj hbrace
    exact htype rfl rfl
  have hdef : ∀ t s y, s ≠ [] → AllBlank s → (kw ++ (g₂ ++ r)) ++ t ≠ ("default" : Text) ++ (s ++ y) := by
    intro t s y hne hs h
    have hnext : ∀ c ∈ (s ++ y).head?, ¬ isWord c := by
      obtain ⟨c, s, rfl⟩ := List.exists_cons_of_ne_nil hne
      simpa using not_isWord_of_isBlank (hs c (by simp))
    obtain ⟨rfl, -⟩ := eq_of_word_append hword (by simp) hg₂.blanks hnext h
    exact absurd hkw (by simp [declarationWords])
  have hturn : Turns [] exportModifier
      ((m ++ ("export" ++ (g₁ ++ kw))) ++ (g₂ ++ r)) (some ((m ++ kw) ++ (g₂ ++ r))) := by
    refine turns_some (by simpa using hcompact) (by simp) (by simp [forms]) fun pre post hp => ?_
    refine readsFirst_exportModifier hp hm hg₁.blanks hkw ?_
    rw [List.append_assoc]
    exact hg₂.blanks.not_isWord
  refine ends_export hm hg₁.allBlank hx.solid hcompact (hhead _ (by decide)) (hhead _ (by decide)) hlist ?_
  refine .keep calm_nil (turns_exportDefault hm hg₁.allBlank hx.solid hcompact hdef) ?_
  exact .turn calm_nil calm_nil (by simpa using hturn) (hbare.turns (by simp [forms])) .done

/-! ### The result -/

/-- Whole statements go in the first four passes, the words in front of declarations in the last two. -/
theorem Line.ends {o : Option Text} (h : Line l o) : Ends passes l o := by
  cases h with
  | @statement m s e hm hs he =>
    have hl := (unbroken_statement hm hs he).compact
    obtain ⟨ws, hspelled⟩ := hs.spelled
    have hend := ends_spelled (n := []) hm hspelled he (.inl rfl) (by simpa using hl)
    simpa using hend
  | exportDefault hm hg₁ hg₂ hr hl =>
    exact ends_exportDefault hm hg₁.blanks hg₂.blanks hr (fun hn => hl.notMem (by simp [hn])) hl.compact
  | exportModifier hm hg₁ hkw hg₂ hr htype hl => exact ends_exportModifier hm hg₁ hkw hg₂ hr htype hl
  | plain hl hnot =>
    have hbare : Bare l := ⟨hl, hnot.mono (List.subset_append_left (["import", "export"] : List Text) clauses)⟩
    have hcalm : Calm clauses l := hnot.mono (List.subset_append_right (["import", "export"] : List Text) clauses)
    exact hbare.ends fun p hp => ⟨hcalm.mono (subset_of_mem_passes hp).1, (subset_of_mem_passes hp).2⟩

theorem Line.length_lt {o : Option Text} (h : Line l o) (hne : o ≠ some l) :
    (unlines o.toList).length < l.length + 1 := by
  cases h with
  | statement => simp
  | exportDefault =>
    simp
    omega
  | exportModifier =>
    simp
    omega
  | plain => exact absurd rfl hne

theorem Line.notMem {x : Text} (h : Line l (some x)) : '\n' ∉ x := by
  cases h with
  | exportDefault _ _ _ _ hl =>
    refine fun hx => hl.notMem ?_
    rcases List.mem_append.1 hx with hx | hx <;> simp [hx]
  | exportModifier _ _ _ _ _ _ hl =>
    refine fun hx => hl.notMem ?_
    rcases List.mem_append.1 hx with hx | hx
    · simp [hx]
    · rcases List.mem_append.1 hx with hx | hx <;> simp [hx]
  | plain hl => exact hl.notMem

/-- Removing module syntax leaves `o` of the piece `l` of a text, which ends with its last line. -/
structure Leaves (l : Text) (o : Option Text) : Prop where
  ends : Ends passes l o
  length_lt : o ≠ some l → (unlines o.toList).length < l.length + 1
  notMem : ∀ x, o = some x → '\n' ∉ x

theorem Line.leaves {o : Option Text} (h : Line l o) : Leaves l o where
  ends := h.ends
  length_lt := h.length_lt
  notMem _ hx := Line.notMem (hx ▸ h)

section Pieces

variable {ls : List Text} {outs : List (Option Text)} (h : List.Forall₂ Leaves ls outs)
include h

theorem foldl_forms : forms.foldl removeForm (unlines ls) = unlines outs.reduceOption := by
  rw [← map_passes]
  exact foldl_removeForm (h.imp fun _ _ hl => hl.ends)

theorem length_unlines_le : (unlines outs.reduceOption).length ≤ (unlines ls).length ∧
    (outs ≠ ls.map some → (unlines outs.reduceOption).length < (unlines ls).length) := by
  induction h with
  | nil => simp
  | @cons l o ls outs hl _ ih =>
    have hsplit : (unlines (o :: outs).reduceOption).length =
        (unlines o.toList).length + (unlines outs.reduceOption).length := by
      cases o <;> simp [List.reduceOption_cons_of_some, List.reduceOption_cons_of_none, Nat.add_assoc, Nat.add_comm]
    have hlen : (unlines (l :: ls)).length = l.length + 1 + (unlines ls).length := by
      simp
      omega
    rw [hsplit, hlen]
    by_cases ho : o = some l
    · subst ho
      refine ⟨by simp; omega, fun hne => ?_⟩
      have := ih.2 (by simpa using hne)
      simp
      omega
    · have := hl.length_lt ho
      exact ⟨by omega, fun _ => by omega⟩

theorem notMem_of_mem_reduceOption : ∀ x ∈ outs.reduceOption, '\n' ∉ x := by
  induction h with
  | nil => simp
  | @cons l o ls outs hl _ ih =>
    cases o with
    | none => simpa using ih
    | some x =>
      rw [List.reduceOption_cons_of_some, List.forall_mem_cons]
      exact ⟨hl.notMem x rfl, ih⟩

theorem remove_of_leaves : remove (unlines ls) =
    if outs = ls.map some then unlines ls else unlines (mergeBlank outs.reduceOption) := by
  have hbare := foldl_forms h
  rw [remove]
  simp only [hbare]
  by_cases hall : outs = ls.map some
  · have heq : unlines outs.reduceOption = unlines ls := by simp [hall, List.reduceOption]
    rw [if_pos heq, if_pos hall]
  · have hne : unlines outs.reduceOption ≠ unlines ls := fun heq => by
      have := (length_unlines_le h).2 hall
      rw [heq] at this
      exact absurd this (lt_irrefl _)
    rw [if_neg hne, if_neg hall, replace_blankLines (notMem_of_mem_reduceOption h)]

end Pieces

/-- Removing module syntax from a text of lines: whole statements go with their lines, exported
declarations lose the words in front, the other lines stay, and if anything changed, blank lines are
merged. -/
theorem remove_unlines {ls : List Text} {outs : List (Option Text)} (h : List.Forall₂ Line ls outs) :
    remove (unlines ls) =
      if outs = ls.map some then unlines ls else unlines (mergeBlank outs.reduceOption) :=
  remove_of_leaves (h.imp fun _ _ hl => hl.leaves)

theorem unbroken_of_clean (h : Clean l) : Unbroken l :=
  ⟨fun hn => (h _ hn).2 rfl, fun u m kw v hl _ _ => (h ';' (by rw [hl]; simp)).1 rfl⟩

theorem remove_unlines_import :
    List.Forall₂ Line ["import a from 'b';", "export const c = 1", "run(c)"]
      [none, some "const c = 1", some "run(c)"] ∧
    remove (unlines ["import a from 'b';", "export const c = 1", "run(c)"]) =
      unlines ["const c = 1", "run(c)"] := by
  have hgap : Gap " " := ⟨by simp, allIndent_space⟩
  have hname : IsName "a" := ⟨by simp, fun c hc => isName_of_isAlphanum (by simp_all)⟩
  have hsource : IsSource "from 'b'" :=
    ⟨" ", "'b'", rfl, hgap, '\'', "b", rfl, by simp, by simp⟩
  have himport : Line ([] ++ ((("import" : Text) ++ ([' '] ++ (("a" : Text) ++ ([' '] ++ ("from 'b'" : Text))))) ++
      [';'])) none :=
    .statement allIndent_nil (.importFrom hgap (.name hname) hgap hsource)
      (.semicolon (u := []) (v := []) allIndent_nil allIndent_nil)
  have hexport : Line ([] ++ (("export" : Text) ++ ([' '] ++ (("const" : Text) ++ ([' '] ++ ("c = 1" : Text))))))
      (some ([] ++ (("const" : Text) ++ ([' '] ++ ("c = 1" : Text))))) :=
    .exportModifier allIndent_nil hgap (by simp [declarationWords]) hgap
      ⟨⟨'c', _, rfl, rfl⟩, by simp [NotBefore]⟩ (by simp) (unbroken_of_clean (by simp [Clean]))
  have hplain : Line "run(c)" (some "run(c)") :=
    .plain (unbroken_of_clean (by simp [Clean])) (by
      rw [show trimStart "run(c)" = "run(c)" from rfl]
      simp [NotBefore])
  have hlines : List.Forall₂ Line ["import a from 'b';", "export const c = 1", "run(c)"]
      [none, some "const c = 1", some "run(c)"] := .cons himport (.cons hexport (.cons hplain .nil))
  refine ⟨hlines, ?_⟩
  rw [remove_unlines hlines, if_neg (by simp)]
  rfl

end AppsScript.ModuleSyntax
