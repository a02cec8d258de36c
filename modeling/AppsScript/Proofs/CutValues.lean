import AppsScript.Proofs.DeclaredLines

/-!
# Values that go on behind their line

Whether a line holds the whole value of a function is decided by tests on the body and on the text behind
(`Notices`). A literal or a bracket that is still open at the end of the line is not among them, nor is a body
with nothing in it: `declare_whole_iff` says exactly when no value is cut.
-/

namespace AppsScript.Arrow

open Source Scan Text

variable {pre line post code : Text} {b : ExpressionBinding} {starts : List Nat} {i : Nat}

/-- The line between `pre` and `post` of the text binds the function of `b`. -/
structure BindsLine (code : Text) (i : Nat) (pre line post : Text) (b : ExpressionBinding) : Prop where
  lineAt : LineAt code i pre line post
  reads : expressionBinding.ReadsFirst pre line post b

theorem readsFirst_expressionEdit (h : expressionBinding.ReadsFirst pre line post b) :
    (expressionEdit starts).ReadsFirst pre line post
      (if starts.contains pre.length && b.isComplete post then some b.declaration else none) := by
  have hfirst : (expressionEdit starts).ReadsFirst pre ([] ++ (line ++ ([] ++ []))) post
      (if starts.contains (Cursor.between pre (line ++ post)).offset &&
          b.isComplete (Cursor.between (pre ++ [] ++ line) post).after then some b.declaration else none) := by
    refine ReadsFirst.bind readsFirst_here (ReadsFirst.bind ?_ (ReadsFirst.bind readsFirst_here readsFirst_pure))
    simpa using h
  simpa using hfirst

/-- The outcome has the declaration in place of a line that binds a function, if the line starts at the top level
and holds the whole value as far as the pass can tell; else it has the line. -/
theorem BindsLine.getElem?_lines (h : BindsLine code i pre line post b) :
    (lines (declareExpressions code))[i]? =
      some (if (topLevelStarts code).contains pre.length && b.isComplete post then b.declared else line) := by
  have hfirst : (expressionEdit (topLevelStarts code)).ReadsFirst pre line post _ := readsFirst_expressionEdit h.reads
  have hout : (expressionEdit (topLevelStarts code)).OnLine pre line post _ :=
    .inr ⟨line, [], _, (List.append_nil line).symm, hfirst, rfl⟩
  obtain ⟨q, hq, -⟩ := (linewise_expressionEdit _).lineAt_edit (f := fun n _ => n) (a := 0) (by simp) h.lineAt hout
  rw [declareExpressions, Text.getElem?_lines hq, b.declaration_eq_declared]
  cases (topLevelStarts code).contains pre.length && b.isComplete post <;> simp

theorem BindsLine.declaration_ne (h : BindsLine code i pre line post b) : b.declared ≠ line := by
  obtain ⟨u, t, rfl, -, hu, -⟩ := reads_expressionBinding.1 h.reads.reads
  intro heq
  have hdecl : u ++ (b.body ++ t) =
      b.head.declaration ++ (" \x7b return " ++ (trim b.body ++ ("; \x7d" ++ b.carriageReturn))) := by
    rw [← heq, ← b.declaration_eq_declared, b.declaration_eq]
  exact ne_declaration_append hu hu hdecl

/-! ### Whole values -/

/-- The literal that is open behind a text, and the brackets that are awaited, the innermost first. A backslash in
a literal takes the character behind it along. -/
def openAfter : (quote : Option Char) → (awaited : List Char) → Text → Option Char × List Char
  | quote, awaited, [] => (quote, awaited)
  | some q, awaited, '\\' :: _ :: cs => openAfter (some q) awaited cs
  | some q, awaited, c :: cs => openAfter (if c = q then none else some q) awaited cs
  | none, awaited, c :: cs =>
    if c ∈ ['\'', '"', '`'] then openAfter (some c) awaited cs
    else if c = '(' then openAfter none (')' :: awaited) cs
    else if c = '[' then openAfter none (']' :: awaited) cs
    else openAfter none (if awaited.head? = some c then awaited.tail else awaited) cs

/-- There is something in the body, and at its end it is outside literals and has its brackets closed. -/
def IsWhole (body : Text) : Prop := (∃ c ∈ body, isBlank c = false) ∧ openAfter none [] body = (none, [])

instance (body : Text) : Decidable (IsWhole body) := inferInstanceAs (Decidable (_ ∧ _))

theorem mentions_iff {u t : Text} : mentions u t = true ↔ u <:+: t := by
  induction t with
  | nil => simp [mentions, List.isEmpty_iff]
  | cons c t ih =>
    have hprefix : (∃ r, after? u (c :: t) = some r) ↔ u <+: c :: t := by
      simp only [after?_eq_some_iff]
      exact exists_congr fun r => eq_comm
    rw [mentions, Bool.or_eq_true, ih, List.infix_cons_iff, Option.isSome_iff_exists, hprefix]

/-- A test of the pass tells that the body is not the whole value, or not certainly so. -/
def Notices (b : ExpressionBinding) (rest : Text) : Prop :=
  mentions "//" (trim b.body) ∨ mentions "/*" (trim b.body) ∨ endsOpen (trim b.body) ∨ hasOuterComma (trim b.body) ∨
    b.isTerminated = false ∧ continues rest

theorem isComplete_iff : b.isComplete post = true ↔ ¬ Notices b post := by
  rw [ExpressionBinding.isComplete, Notices, Bool.not_eq_true', Bool.eq_false_iff]
  simp [or_assoc]

theorem BindsLine.cases (h : BindsLine (declareBlocks code) i pre line post b) :
    pre.length ∈ topLevelStarts (declareBlocks code) ∧ ¬ Notices b post ∧
      (lines (declare code))[i]? = some b.declared ∨
    (pre.length ∉ topLevelStarts (declareBlocks code) ∨ Notices b post) ∧
      (lines (declare code))[i]? = some line := by
  rw [declare, h.getElem?_lines]
  by_cases hstart : pre.length ∈ topLevelStarts (declareBlocks code)
  · by_cases hnot : Notices b post
    · have hcomplete : b.isComplete post = false := by
        rw [Bool.eq_false_iff]
        exact fun hc => isComplete_iff.1 hc hnot
      exact .inr ⟨.inr hnot, by simp [hcomplete]⟩
    · exact .inl ⟨hstart, hnot, by simp [hstart, isComplete_iff.2 hnot]⟩
  · exact .inr ⟨.inl hstart, by simp [hstart]⟩

/-- No value is cut, and none that goes on is touched, exactly if every function that is bound at the top level has
its whole value on the line or is noticed by one of the tests. -/
theorem declare_whole_iff (code : Text) :
    (∀ i pre line post b, BindsLine (declareBlocks code) i pre line post b →
      ((lines (declare code))[i]? = some b.declared → IsWhole (trim b.body)) ∧
      (¬ IsWhole (trim b.body) → (lines (declare code))[i]? = some line)) ↔
    ∀ i pre line post b, BindsLine (declareBlocks code) i pre line post b →
      pre.length ∈ topLevelStarts (declareBlocks code) → IsWhole (trim b.body) ∨ Notices b post := by
  constructor
  · intro hall i pre line post b hb htop
    rcases hb.cases with ⟨-, -, hout⟩ | ⟨hnot, -⟩
    · exact .inl ((hall i pre line post b hb).1 hout)
    · exact .inr (hnot.resolve_left (not_not_intro htop))
  · intro hall i pre line post b hb
    rcases hb.cases with ⟨htop, hnot, hout⟩ | ⟨-, hout⟩
    · have hwhole := (hall i pre line post b hb htop).resolve_right hnot
      exact ⟨fun _ => hwhole, fun h => absurd hwhole h⟩
    · refine ⟨fun hdecl => ?_, fun _ => hout⟩
      rw [hout] at hdecl
      exact absurd (Option.some.inj hdecl).symm hb.declaration_ne

/-- A call that goes on behind its line is cut. -/
theorem declare_open_call :
    declare "const call = (x) => run(x\n);" = "function call(x) \x7b return run(x; \x7d\n);" ∧ ¬ IsWhole "run(x" := by
  have hblocks : declareBlocks "const call = (x) => run(x\n);" = "const call = (x) => run(x\n);" := by
    simp only [String.reduceToList]
    decide +kernel
  have hexpressions :
      declareExpressions "const call = (x) => run(x\n);" = "function call(x) \x7b return run(x; \x7d\n);" := by
    simp only [String.reduceToList]
    decide +kernel
  refine ⟨by rw [declare, hblocks, hexpressions], ?_⟩
  have hopen : openAfter none [] "run(x" = (none, [')']) := by simp [openAfter]
  rintro ⟨-, hclosed⟩
  rw [hopen] at hclosed
  simp at hclosed

end AppsScript.Arrow
