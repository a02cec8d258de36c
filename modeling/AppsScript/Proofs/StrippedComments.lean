import AppsScript.FileSystem.Memory
import AppsScript.Proofs.CommentedJson
import AppsScript.Proofs.NestedBindings
import AppsScript.Proofs.PreparedConfig

/-!
# What is left without comments

A source text as stretches of code, literals and comments. `strip` passes over each of them as a whole
(`Stretch.strip_append`): code and literals stay, a comment leaves a line feed or a space, so that a file is empty if its
code is white space and it has no literals (`strip_stretches`). What is left of any text has no comments, and stripping it
again changes nothing (`strip_strip`).
-/

namespace AppsScript.Source

open Text

/-- A stretch of a source text. -/
inductive Stretch
  | code (run : Text)
  | literal (quote : Char) (body : Text)
  /-- A comment up to the line feed that ends it, and with it. -/
  | lineComment (body : Text)
  | blockComment (body : Text)

namespace Stretch

def text : Stretch → Text
  | code run => run
  | literal q body => q :: (body ++ [q])
  | lineComment body => '/' :: '/' :: (body ++ ['\n'])
  | blockComment body => '/' :: '*' :: (body ++ ['*', '/'])

def rest : Stretch → Text
  | code run => run
  | literal q body => q :: (body ++ [q])
  | lineComment _ => ['\n']
  | blockComment _ => [' ']

/-- The stretch is what its text is to be read as. A run of code has characters, so that the next stretch is what comes
behind it. -/
def IsFormed : Stretch → Prop
  | code run => run ≠ [] ∧ (∀ c ∈ run, c ∉ ['\'', '"', '`']) ∧ ¬ ("//" : Text) <:+: run ∧ ¬ ("/*" : Text) <:+: run
  | literal q body => q ∈ ['\'', '"', '`'] ∧ Inside q body
  | lineComment body => '\n' ∉ body
  | blockComment body => ¬ ("*/" : Text) <:+: body

/-- A slash at the end of `s`, if that is code, does not open a comment together with the start of `t`. -/
def Precedes (s t : Stretch) : Prop := ∀ run, s = code run → run.getLast? = some '/' → OpensNone t.text

/-- White space or a comment. -/
def IsBlank : Stretch → Prop
  | code run => AllBlank run
  | literal _ _ => False
  | lineComment _ => True
  | blockComment _ => True

end Stretch

variable {t u run body : Text} {c q : Char} {s : Stretch} {ss : List Stretch} {mode : Mode}

/-! ### Stretches one after another -/

theorem isQuote_iff_mem : isQuote q = true ↔ q ∈ ['\'', '"', '`'] := by simp [isQuote, or_assoc]

theorem apart_of_not_isInfix (hline : ¬ ("//" : Text) <:+: run) (hblock : ¬ ("/*" : Text) <:+: run)
    (hlast : run.getLast? = some '/' → OpensNone t) : Apart run t := by
  induction run with
  | nil => trivial
  | cons c run ih =>
    refine ⟨?_, ih (fun h => hline (List.infix_cons h)) (fun h => hblock (List.infix_cons h)) fun h => ?_⟩
    · rintro rfl d hd
      cases run with
      | nil => exact hlast rfl d hd
      | cons x run =>
        obtain rfl : x = d := by simpa using hd
        refine ⟨?_, ?_⟩
        · rintro rfl
          exact hline ⟨[], run, rfl⟩
        · rintro rfl
          exact hblock ⟨[], run, rfl⟩
    · refine hlast ?_
      cases run with
      | nil => simp at h
      | cons x run => exact h

theorem strip_cons_behind (hslash : c = '/' → OpensNone t) : strip (c :: t) = c :: stripFrom (.behind c) t := by
  rw [strip, stripFrom]
  · rintro cs hc rfl
    exact (hslash hc '/' rfl).1 rfl
  · rintro cs hc rfl
    exact (hslash hc '*' rfl).2 rfl

theorem behind_of_not_isQuote (hquote : isQuote c = false) : Mode.behind c = .code := by
  rw [Mode.behind, if_neg (by simp [hquote])]

theorem strip_run (hquote : ∀ c ∈ run, isQuote c = false) (hapart : Apart run t) :
    strip (run ++ t) = run ++ strip t := by
  induction run with
  | nil => rfl
  | cons c run ih =>
    rw [List.cons_append, strip_cons_behind hapart.1, behind_of_not_isQuote (hquote c (by simp)), ← strip,
      ih (fun x hx => hquote x (by simp [hx])) hapart.2, List.cons_append]

theorem strip_quote (hq : isQuote q = true) : strip (q :: t) = q :: stripFrom (.literal q) t := by
  have hslash : q ≠ '/' := by
    rintro rfl
    exact absurd hq (by decide)
  rw [strip_cons_behind fun h => absurd h hslash, Mode.behind, if_pos hq]

theorem stripFrom_literal (hbody : Inside q body) (hq : isQuote q = true) :
    stripFrom (.literal q) (body ++ q :: t) = body ++ q :: strip t := by
  have hback : q ≠ '\\' := by
    rintro rfl
    exact absurd hq (by decide)
  induction hbody with
  | nil =>
    rw [List.nil_append, stripFrom, if_pos rfl]
    · rfl
    · exact fun _ _ h _ => hback h
  | char hquote hback' _ ih =>
    rw [List.cons_append, stripFrom, if_neg hquote, ih, List.cons_append]
    exact fun _ _ h _ => hback' h
  | escape _ ih => rw [List.cons_append, List.cons_append, stripFrom, ih, List.cons_append, List.cons_append]

namespace Stretch

/-- A stretch is passed over as a whole. -/
theorem strip_append (hs : s.IsFormed) (hnext : ∀ run, s = code run → run.getLast? = some '/' → OpensNone t) :
    strip (s.text ++ t) = s.rest ++ strip t := by
  cases s with
  | code run =>
    obtain ⟨-, hquote, hline, hblock⟩ := hs
    refine strip_run (fun c hc => ?_) (apart_of_not_isInfix hline hblock (hnext run rfl))
    exact Bool.eq_false_iff.2 (mt isQuote_iff_mem.1 (hquote c hc))
  | literal q body =>
    obtain ⟨hq, hbody⟩ := hs
    rw [text, List.cons_append, strip_quote (isQuote_iff_mem.2 hq), List.append_assoc, List.singleton_append,
      stripFrom_literal hbody (isQuote_iff_mem.2 hq)]
    simp [rest]
  | lineComment body =>
    rw [text, List.cons_append, List.cons_append, List.append_assoc]
    exact Json.stripFrom_line hs
  | blockComment body =>
    rw [text, List.cons_append, List.cons_append, List.append_assoc]
    exact Json.stripFrom_block hs

theorem text_ne_nil (hs : s.IsFormed) : s.text ≠ [] := by
  cases s with
  | code run => exact hs.1
  | _ => simp [text]

theorem allBlank_rest_iff (hs : s.IsFormed) : AllBlank s.rest ↔ s.IsBlank := by
  cases s with
  | code run => exact Iff.rfl
  | literal q body =>
    refine iff_of_false (fun h => ?_) not_false
    have hblank := h q (by simp [rest])
    obtain ⟨hq, -⟩ := hs
    simp only [List.mem_cons, List.not_mem_nil, or_false] at hq
    rcases hq with rfl | rfl | rfl <;> exact absurd hblank (by decide)
  | lineComment body => exact iff_of_true (by simpa [AllBlank, rest] using by decide) trivial
  | blockComment body => exact iff_of_true (by simpa [AllBlank, rest] using by decide) trivial

end Stretch

theorem strip_flatMap_text (hss : ∀ s ∈ ss, s.IsFormed) (hchain : ss.IsChain Stretch.Precedes) :
    strip (ss.flatMap Stretch.text) = ss.flatMap Stretch.rest := by
  induction ss with
  | nil => rfl
  | cons s ss ih =>
    obtain ⟨hnext, hchain⟩ := List.isChain_cons.1 hchain
    rw [List.flatMap_cons, List.flatMap_cons, Stretch.strip_append (hss s (by simp)),
      ih (fun r hr => hss r (by simp [hr])) hchain]
    intro run hrun hlast c hc
    cases ss with
    | nil => simp at hc
    | cons r ss =>
      rw [List.flatMap_cons, List.head?_append_of_ne_nil _ (Stretch.text_ne_nil (hss r (by simp)))] at hc
      exact hnext r rfl run hrun hlast c hc

/-! ### Stripping again -/

/-- The mode in which what is left is to be read: a comment has gone. -/
def Mode.resumed : Mode → Mode
  | .literal q => .literal q
  | _ => .code

theorem Mode.resumed_behind (c : Char) : (Mode.behind c).resumed = .behind c := by
  rw [Mode.behind]
  split_ifs <;> rfl

/-- What is left of a text starts with no other comment than the text. -/
theorem opensNone_strip (h : OpensNone t) : OpensNone (strip t) := by
  cases t with
  | nil => exact h
  | cons c t =>
    obtain ⟨hslash, hstar⟩ := h c rfl
    rw [strip_cons_behind fun hc => absurd hc hslash]
    intro d hd
    obtain rfl : c = d := by simpa using hd
    exact ⟨hslash, hstar⟩

theorem stripFrom_stripFrom (mode : Mode) (t : Text) :
    stripFrom mode.resumed (stripFrom mode t) = stripFrom mode t := by
  fun_induction stripFrom mode t with
  | case1 mode => cases mode <;> rfl
  | case2 cs ih => exact ih
  | case3 cs ih => exact ih
  | case4 c cs hline hblock ih =>
    have hslash : c = '/' → OpensNone (stripFrom (.behind c) cs) := by
      rintro rfl
      refine opensNone_strip fun d hd => ?_
      obtain ⟨cs, rfl⟩ := List.head?_eq_some_iff.1 hd
      exact ⟨fun h => hline cs rfl (by rw [h]), fun h => hblock cs rfl (by rw [h])⟩
    rw [Mode.resumed_behind] at ih
    exact (strip_cons_behind hslash).trans (congrArg _ ih)
  | case5 q c cs ih => rw [Mode.resumed, stripFrom]; rw [Mode.resumed] at ih; rw [ih]
  | case6 q c cs hback ih =>
    have hresumed : (if c = q then Mode.code else .literal q).resumed = if c = q then .code else .literal q := by
      split_ifs <;> rfl
    rw [hresumed] at ih
    rw [Mode.resumed, stripFrom, ih]
    -- a backslash that takes nothing along ends the text
    rintro d rest rfl hrest
    cases cs with
    | nil => simp [stripFrom] at hrest
    | cons x cs => exact hback x cs rfl rfl
  | case7 cs ih =>
    have hstrip := strip_cons_behind (c := '\n') (t := strip cs) fun h => absurd h (by decide)
    exact hstrip.trans (congrArg _ ih)
  | case8 c cs hc ih => exact ih
  | case9 cs ih =>
    have hstrip := strip_cons_behind (c := ' ') (t := strip cs) fun h => absurd h (by decide)
    exact hstrip.trans (congrArg _ ih)
  | case10 c cs hc ih => exact ih

theorem strip_strip (t : Text) : strip (strip t) = strip t := stripFrom_stripFrom .code t

end AppsScript.Source

namespace AppsScript

namespace Discovery

open Source Text

variable {σ : Type} [FileSystem σ]

/-- Of a text made of code, literals and comments, code and literals are left, and a line feed or a space of each
comment. Stripping any text a second time changes nothing. A file that holds such a text is empty exactly if its code is
white space and it has no literals, and a file that cannot be read is empty. -/
theorem strip_stretches (fs : σ) (path : Path) {ss : List Stretch} (hss : ∀ s ∈ ss, s.IsFormed)
    (hchain : ss.IsChain Stretch.Precedes) :
    strip (ss.flatMap Stretch.text) = ss.flatMap Stretch.rest ∧ (∀ t, strip (strip t) = strip t) ∧
      (FileSystem.readText fs path = .ok (ss.flatMap Stretch.text) →
        ((isEmpty fs path).value = true ↔ ∀ s ∈ ss, s.IsBlank)) ∧
      (∀ fault, FileSystem.readText fs path = .error fault → (isEmpty fs path).value = true) := by
  have hstrip := strip_flatMap_text hss hchain
  refine ⟨hstrip, strip_strip, fun hread => ?_, fun fault hfault => value_isEmpty.2 (.inl ⟨fault, hfault⟩)⟩
  have hblank : (isEmpty fs path).value = isBlankCode (ss.flatMap Stretch.text) := by rw [isEmpty, hread]; rfl
  rw [hblank, isBlankCode, List.isEmpty_iff, trim_eq_nil_iff, hstrip]
  constructor
  · intro h s hs
    exact (Stretch.allBlank_rest_iff (hss s hs)).1 fun c hc => h c (List.mem_flatMap.2 ⟨s, hs, hc⟩)
  · intro h c hc
    obtain ⟨s, hs, hc⟩ := List.mem_flatMap.1 hc
    exact (Stretch.allBlank_rest_iff (hss s hs)).2 (h s hs) c hc

/-- A quote and a comment's end in comments, and comments' starts in a literal. -/
def noted : List Stretch :=
  [.lineComment " it's", .code "\t", .blockComment " 'x // ", .lineComment " */"]

def divided : List Stretch :=
  [.code "a /", .literal '\'' "\\'//", .code "; ", .blockComment "*"]

/-- A file of comments, a file with code behind them, and none under a third name. -/
def annotated : Memory :=
  .ofContents [(["p", "notes.ts"], noted.flatMap Stretch.text), (["p", "main.ts"], (noted ++ divided).flatMap Stretch.text)]
    [] {}

theorem strip_stretches_annotated :
    strip (noted.flatMap Stretch.text) = "\n\t \n" ∧ (isEmpty annotated "/p/notes.ts").value = true ∧
      strip ((noted ++ divided).flatMap Stretch.text) = "\n\t \na /'\\'//';  " ∧
      (isEmpty annotated "/p/main.ts").value = false ∧ (isEmpty annotated "/p/none.ts").value = true := by
  have hnoted : ∀ s ∈ noted, s.IsFormed := by
    simp [noted, Stretch.IsFormed, List.infix_cons_iff]
  have hbody : Inside '\'' ['\\', '\'', '/', '/'] :=
    .escape (.char (by decide) (by decide) (.char (by decide) (by decide) .nil))
  have hdivided : ∀ s ∈ divided, s.IsFormed := by
    simp [divided, Stretch.IsFormed, List.infix_cons_iff, hbody]
  have hchain : (noted ++ divided).IsChain Stretch.Precedes := by
    simp [noted, divided, Stretch.Precedes, OpensNone, Stretch.text]
  obtain ⟨hrest, -, hempty, -⟩ := strip_stretches annotated "/p/notes.ts" hnoted hchain.left_of_append
  have hall : ∀ s ∈ noted ++ divided, s.IsFormed := fun s hs => (List.mem_append.1 hs).elim (hnoted s) (hdivided s)
  obtain ⟨hrest', -, hempty', -⟩ := strip_stretches annotated "/p/main.ts" hall hchain
  obtain ⟨-, -, -, hmissing⟩ := strip_stretches annotated "/p/none.ts" hnoted hchain.left_of_append
  refine ⟨hrest, (hempty rfl).2 ?_, hrest', ?_, hmissing .notFound rfl⟩
  · simp only [noted, List.forall_mem_cons, Stretch.IsBlank]
    simp [AllBlank]
    decide
  · refine Bool.eq_false_iff.2 fun h => ?_
    have := (hempty' rfl).1 h (.literal '\'' "\\'//") (by simp [divided])
    exact this

end Discovery

end AppsScript
