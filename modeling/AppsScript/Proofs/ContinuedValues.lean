import AppsScript.Proofs.BindingValues

/-!
# Values that an operator goes on with

Whether the text behind a line goes on with its value is told by the first character that is neither white space nor
in a comment (`continues_skipped`). For most of the tokens that go on with an expression this character is enough; four
of them start like the words and the negations that may start a statement, and these are not heard
(`continues_token`). So a line is left alone in front of any other token, and in front of these it becomes what it
becomes at the end of the code (`lines_declare_continued`).
-/

namespace AppsScript

namespace Source

open Text

variable {t u w rest token : Text} {c : Char}

/-- White space and comments that have an end. -/
inductive Skipped : Text → Prop
  | nil : Skipped []
  | blank {c : Char} {w : Text} (hc : isBlank c = true) (hw : Skipped w) : Skipped (c :: w)
  | lineComment {t w : Text} (ht : '\n' ∉ t) (hw : Skipped w) : Skipped ('/' :: '/' :: (t ++ '\n' :: w))
  | blockComment {t w : Text} (ht : ¬ ['*', '/'] <:+: t) (hw : Skipped w) :
    Skipped ('/' :: '*' :: (t ++ '*' :: '/' :: w))

/-- A reader in a block comment comes out of it with the pair that closes it. -/
theorem after_inBlockComment {spot : Source.Spot} {d : Nat} (ht : ¬ ['*', '/'] <:+: t)
    (hspot : spot = .blockComment ∨ spot = .star ∧ t.head? ≠ some '/') :
    (⟨⟨spot, d⟩, .next⟩ : Reader).after (t ++ ['*', '/']) = ⟨⟨.code, d⟩, .next⟩ := by
  induction t generalizing spot with
  | nil => rcases hspot with rfl | ⟨rfl, -⟩ <;> simp [Reader.step, State.step]
  | cons c t ih =>
    have hrest : ¬ ['*', '/'] <:+: t := fun h => ht (h.trans (List.suffix_cons c t).isInfix)
    by_cases hstar : c = '*'
    · subst hstar
      have hnext : t.head? ≠ some '/' := by
        intro h
        obtain ⟨t, rfl⟩ := List.head?_eq_some_iff.1 h
        exact ht ⟨[], t, rfl⟩
      have hstep : (⟨⟨spot, d⟩, .next⟩ : Reader).step '*' = ⟨⟨.star, d⟩, .next⟩ := by
        rcases hspot with rfl | ⟨rfl, -⟩ <;> simp [Reader.step, State.step]
      rw [List.cons_append, Reader.after_cons, hstep]
      exact ih hrest (.inr ⟨rfl, hnext⟩)
    · have hstep : (⟨⟨spot, d⟩, .next⟩ : Reader).step c = ⟨⟨.blockComment, d⟩, .next⟩ := by
        rcases hspot with rfl | ⟨rfl, hhead⟩
        · simp [Reader.step, State.step, hstar]
        · have hslash : c ≠ '/' := by simpa using hhead
          simp [Reader.step, State.step, hstar, hslash]
      rw [List.cons_append, Reader.after_cons, hstep]
      exact ih hrest (.inl rfl)

theorem after_skipped {d : Nat} (hw : Skipped w) :
    (⟨⟨.code, d⟩, .next⟩ : Reader).after w = ⟨⟨.code, d⟩, .next⟩ := by
  induction hw with
  | nil => rfl
  | blank hc _ ih => rw [Reader.after_cons, step_next_blank hc, ih]
  | @lineComment t w ht _ ih =>
    have hinside : (⟨⟨.lineComment, d⟩, .next⟩ : Reader).after t = ⟨⟨.lineComment, d⟩, .next⟩ :=
      Reader.after_lineComment rfl ht
    have hopen : (⟨⟨.slash, d⟩, .next⟩ : Reader).step '/' = ⟨⟨.lineComment, d⟩, .next⟩ := by
      simp [Reader.step, State.step]
    have hclose : (⟨⟨.lineComment, d⟩, .next⟩ : Reader).step '\n' = ⟨⟨.code, d⟩, .next⟩ := by
      simp [Reader.step, State.step]
    rw [Reader.after_cons, step_next_slash, Reader.after_cons, hopen, Reader.after_append, hinside, Reader.after_cons,
      hclose, ih]
  | @blockComment t w ht _ ih =>
    have hopen : (⟨⟨.slash, d⟩, .next⟩ : Reader).step '*' = ⟨⟨.blockComment, d⟩, .next⟩ := by
      simp [Reader.step, State.step]
    have hsplit : t ++ '*' :: '/' :: w = (t ++ ['*', '/']) ++ w := by simp
    rw [Reader.after_cons, step_next_slash, Reader.after_cons, hopen, hsplit, Reader.after_append,
      after_inBlockComment ht (.inl rfl), ih]

/-- The first character that is not skipped decides. -/
theorem continues_skipped (hw : Skipped w) (hc : isBlank c = false) (hline : ¬ ['/', '/'] <+: c :: t)
    (hblock : ¬ ['/', '*'] <+: c :: t) : continues (w ++ c :: t) = continuing.contains c := by
  have hcode : State.start = ⟨.code, 0⟩ := rfl
  rw [continues_eq, Reader.after_append, hcode, after_skipped hw, Reader.after_cons]
  by_cases hslash : c = '/'
  · subst hslash
    rw [step_next_slash, contains_slash]
    cases t with
    | nil => rfl
    | cons x t =>
      have hx : x ≠ '/' ∧ x ≠ '*' := ⟨fun h => hline ⟨t, by simp [h]⟩, fun h => hblock ⟨t, by simp [h]⟩⟩
      have hstep : (⟨⟨.slash, 0⟩, .next⟩ : Reader).step x = ⟨⟨.slash, 0⟩, .settled true⟩ := by
        simp [Reader.step, hx]
      rw [Reader.after_cons, hstep, Reader.after_settled]
      rfl
  · rw [step_next_settled hc hslash, Reader.after_settled]
    rfl

/-- The tokens that go on with an expression: those of members, calls, indices and templates, the comma, the two of
the conditional, and the binary operators. -/
def continuingTokens : List Text :=
  [".", "?.", "(", "[", "`", ",", "?", ":",
    "+", "-", "*", "/", "%", "**", "&", "|", "^", "&&", "||", "??", "<<", ">>", ">>>",
    "<", ">", "<=", ">=", "in", "instanceof", "==", "===", "!=", "!=="]

/-- Those of them that start with a letter or a `!`. -/
def unheardTokens : List Text := ["in", "instanceof", "!=", "!=="]

theorem continuingTokens_spec : ∀ token ∈ continuingTokens, ∃ c t, token = c :: t ∧ isBlank c = false ∧
    continuing.contains c = decide (token ∉ unheardTokens) := by
  have hall : ∀ token ∈ continuingTokens, (token.head?.any fun c => !isBlank c &&
      (continuing.contains c == decide (token ∉ unheardTokens))) = true := by
    decide +kernel
  intro token htoken
  have htoken := hall token htoken
  cases token with
  | nil => simp at htoken
  | cons c t => exact ⟨c, t, rfl, by simpa using htoken⟩

/-- All tokens but four are heard. -/
theorem continues_token (hw : Skipped w) (htoken : token ∈ continuingTokens) (hline : ¬ ['/', '/'] <+: token ++ rest)
    (hblock : ¬ ['/', '*'] <+: token ++ rest) : continues (w ++ (token ++ rest)) = decide (token ∉ unheardTokens) := by
  obtain ⟨c, t, rfl, hc, hheard⟩ := continuingTokens_spec token htoken
  rw [List.cons_append] at hline hblock ⊢
  rw [continues_skipped hw hc hline hblock, hheard]

end Source

namespace Arrow

open Source Scan Text

variable {pre post line u x w token rest code : Text} {c : Char} {h : Head} {b : ExpressionBinding} {i : Nat}

/-- A `;` in front of the end of the line is its last character but for white space. -/
theorem getLast?_of_isTerminated (hb : expressionBinding.Reads pre line post b) (hterm : b.isTerminated = true) :
    (trimEnd line).getLast? = some ';' := by
  obtain ⟨u, t, rfl, -, -, -, -, ⟨g, semi, rfl, -, hsemi, hcr⟩, -⟩ := reads_expressionBinding.1 hb
  rw [hterm] at hsemi
  obtain ⟨-, g', rfl, hg'⟩ : true = true ∧ ∃ g', semi = ";" ++ g' ∧ AllIndent g' := by simpa using hsemi
  have hsplit : u ++ (b.body ++ (g ++ ((";" : Text) ++ g' ++ b.carriageReturn))) =
      (u ++ (b.body ++ (g ++ [';']))) ++ (g' ++ b.carriageReturn) := by simp
  have hblank : AllBlank (g' ++ b.carriageReturn) :=
    List.forall_mem_append.2 ⟨hg'.allBlank, allBlank_ending hcr⟩
  have hsemicolon {v : Text} : (trimEnd (v ++ [';'])).getLast? = some ';' := by
    rw [trimEnd, List.reverse_append, List.reverse_singleton, List.singleton_append,
      List.dropWhile_cons_of_neg (by decide)]
    simp
  rw [hsplit, trimEnd_append_blank hblank, ← List.append_assoc, ← List.append_assoc]
  exact hsemicolon

theorem blockless_of_binds (hu : Binds h u) (hx : ∀ c ∈ x.head?, ¬ isIndent c ∧ c ≠ '\x7b') : Blockless (u ++ x) := by
  intro h' u' rest hu' heq
  obtain ⟨-, v, g, g', rfl, rfl, hg, hg'⟩ := binds_unique hu hu' heq
  rw [List.append_assoc, List.append_assoc] at heq
  have hbehind := List.append_cancel_left heq
  have hbrace : ∀ c ∈ ('\x7b' :: rest).head?, ¬ isIndent c := by simpa using by decide
  obtain ⟨-, rfl⟩ := hg.unique hg' hbehind (fun c hc => (hx c hc).1) hbrace
  exact (hx '\x7b' rfl).2 rfl

/-- What becomes of a line whose value no `;` ends: it is left alone if something goes on with the value, and else
it becomes what it becomes at the end of the code. -/
theorem lines_declare_unterminated (hline : LineAt code i pre line post) (hblock : Blockless line)
    (hend : (trimEnd line).getLast? ≠ some ';') :
    (continues post = true → (lines (declare code))[i]? = some line) ∧
    (continues post = false → (lines (declare code))[i]? = (lines (declare (pre ++ line)))[i]?) := by
  have hlast : LineAt (pre ++ line) i pre line [] :=
    ⟨by simp, hline.start, hline.count, hline.notMem, by simp [AtLineEnd]⟩
  have htop : (topLevelStarts (pre ++ line)).contains pre.length = (topLevelStarts code).contains pre.length := by
    rw [hline.eq, contains_topLevelStarts hline.start, contains_topLevelStarts hline.start]
  have hform : Form pre line post := form hline.stop hline.notMem
  rcases hform with ⟨h, u, rest, hu, hsplit⟩ | ⟨b, -, hb⟩ | ⟨-, hfails⟩
  · exact absurd hsplit (hblock h u rest hu)
  · have hopen : b.isTerminated = false := by
      rw [Bool.eq_false_iff]
      exact fun hterm => hend (getLast?_of_isTerminated hb.reads hterm)
    have hout := getElem?_lines_declare hline (declaring_expression hblock hline.stop hb)
    constructor
    · intro hgoes
      have hcomplete : b.isComplete post = false := by
        rw [← Bool.not_eq_true, isComplete_iff, not_not]
        exact .inr (.inr (.inr (.inr ⟨hopen, hgoes⟩)))
      rw [hout, expressionLine, hcomplete, Bool.and_false]
      rfl
    · intro hgoes
      -- a line is read alike whether the code ends behind it or not
      let l : SameLine := ⟨line, pre, pre, post, [], hline.notMem, hline.start, hline.start, hline.stop, hlast.stop⟩
      have hb' : expressionBinding.ReadsFirst pre line [] b := moves_expressionBinding.readsFirst (l := l) hb
      have hnothing : continues [] = false := rfl
      rw [hout, getElem?_lines_declare hlast (declaring_expression hblock hlast.stop hb'), expressionLine,
        expressionLine, htop, ExpressionBinding.isComplete, ExpressionBinding.isComplete, hgoes, hnothing]
  · have hout := getElem?_lines_declare hline (declaring_other hblock hline.stop hfails)
    refine ⟨fun _ => hout, fun _ => ?_⟩
    let l : SameLine := ⟨line, pre, pre, post, [], hline.notMem, hline.start, hline.start, hline.stop, hlast.stop⟩
    have hfails' : expressionBinding.Fails pre (line ++ []) := moves_expressionBinding.fails (l := l) hfails
    rw [hout, getElem?_lines_declare hlast (declaring_other hblock hlast.stop hfails')]

/-- A line that binds a function with an expression for its body, which no `;` ends, is left alone if behind white
space and comments a token follows that goes on with the expression, except for four of these tokens: in front of
them it becomes what it becomes at the end of the code. -/
theorem lines_declare_continued (hline : LineAt code i pre (u ++ x) ('\n' :: (w ++ (token ++ rest)))) (hu : Binds h u)
    (hx : ∀ c ∈ x.head?, ¬ isIndent c ∧ c ≠ '\x7b') (hend : (trimEnd (u ++ x)).getLast? ≠ some ';')
    (hw : Skipped w) (htoken : token ∈ continuingTokens) (hnoLine : ¬ ['/', '/'] <+: token ++ rest)
    (hnoBlock : ¬ ['/', '*'] <+: token ++ rest) :
    (token ∉ unheardTokens → (lines (declare code))[i]? = some (u ++ x)) ∧
    (token ∈ unheardTokens → (lines (declare code))[i]? = (lines (declare (pre ++ (u ++ x))))[i]?) := by
  have hskip : Skipped ('\n' :: w) := .blank (by decide) hw
  have hgoes : continues ('\n' :: (w ++ (token ++ rest))) = decide (token ∉ unheardTokens) :=
    continues_token (w := '\n' :: w) hskip htoken hnoLine hnoBlock
  obtain ⟨hkept, hlast⟩ := lines_declare_unterminated hline (blockless_of_binds hu hx) hend
  refine ⟨fun hheard => hkept ?_, fun hunheard => hlast ?_⟩
  · rw [hgoes, decide_eq_true hheard]
  · rw [hgoes, decide_eq_false (not_not_intro hunheard)]

/-- A division behind a comment of each kind. -/
def quotient : Text := "const f = x => x\n// a\n /* b */ / 2"

theorem lines_declare_continued_quotient :
    LineAt quotient 0 [] ("const f = x => " ++ "x".toList) ('\n' :: ("// a\n /* b */ " ++ (("/" : Text) ++ (" 2" : Text)))) ∧
    Skipped "// a\n /* b */ " ∧ (lines (declare quotient))[0]? = some ("const f = x => x" : Text) := by
  have hline : LineAt quotient 0 [] ("const f = x => " ++ "x".toList)
      ('\n' :: ("// a\n /* b */ " ++ (("/" : Text) ++ (" 2" : Text)))) := by
    refine ⟨?_, atLineStart_nil, rfl, by simp, by simp [AtLineEnd]⟩
    unfold quotient
    simp only [String.reduceToList, List.nil_append, List.cons_append]
  have hskipped : Skipped "// a\n /* b */ " :=
    .lineComment (t := " a") (by simp) (.blank (by decide)
      (.blockComment (t := " b ") (by decide) (.blank (by decide) .nil)))
  have hf : Binds ⟨[], false, false, "f", "x"⟩ "const f = x => " :=
    binds_spaced "const" (by simp) (by simp [bindingWords]) (by simp; decide) (by simp; decide)
  refine ⟨hline, hskipped, ?_⟩
  refine ((lines_declare_continued hline hf ?_ ?_ hskipped ?_ ?_ ?_).1 ?_).trans ?_
  · simpa using by decide
  · simp only [String.reduceToList]
    decide +kernel
  · simp [continuingTokens]
  · simp
  · simp
  · simp [unheardTokens]
  · simp

/-- An inequality loses its left side. -/
theorem declare_inequality : '!' ∉ continuing ∧ ("!=" : Text) ∈ continuingTokens ∧
    declare "const f = (x) => x\n  != 1;" = "function f(x) \x7b return x; \x7d\n  != 1;" := by
  refine ⟨by rw [continuing_eq]; simp, by simp [continuingTokens], ?_⟩
  rw [declare_eq_edit]
  simp only [String.reduceToList]
  decide +kernel

end Arrow

end AppsScript
