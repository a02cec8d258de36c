import AppsScript.Proofs.ContinuedValues

/-!
# Comments behind a value

`skipBlank` is where a loop ends that has no bound of its own: behind white space it skips a comment in each round, with
the white space behind it, for as long as the text starts with one (`Skips`). A comment without an end is skipped too,
up to the end of the text, so that every round makes the text shorter and there is a last one (`exists_skips`).

White space and comments that have an end may come and go behind a function that is bound, behind the line of its
expression or behind its block: it is declared with them exactly if it is declared without them
(`lines_declare_skipped`).
-/

namespace AppsScript

namespace Source

open Text

variable {t u w rest : Text} {c : Char}

/-! ### Rounds of skipping -/

/-- What follows the first pair that closes a block comment, or nothing if there is none. -/
def behindClose : Text → Text
  | [] => []
  | '*' :: '/' :: t => t
  | _ :: t => behindClose t

/-- What one round leaves of a text that starts with a comment. -/
def skipComment? : Text → Option Text
  | '/' :: '/' :: t => some (trimStart (t.dropWhile (· != '\n')))
  | '/' :: '*' :: t => some (trimStart (behindClose t))
  | _ => none

/-- After `n` rounds `t'` is left of `t`, and it starts with no comment. -/
inductive Skips : (n : Nat) → (t t' : Text) → Prop
  | stop {t : Text} : skipComment? t = none → Skips 0 t t
  | round {n : Nat} {t u t' : Text} : skipComment? t = some u → Skips n u t' → Skips (n + 1) t t'

theorem length_trimStart_le (t : Text) : (trimStart t).length ≤ t.length := (List.dropWhile_sublist isBlank).length_le

theorem length_behindClose_le (t : Text) : (behindClose t).length ≤ t.length := by
  fun_induction behindClose t with
  | case1 => exact Nat.le_refl _
  | case2 t => simp only [List.length_cons]; omega
  | case3 c t h ih => rw [List.length_cons]; omega

/-- Where no comment starts, the first character decides. -/
theorem skipBlank_of_none (h : skipComment? (c :: t) = none) :
    skipBlank (c :: t) = if isBlank c then skipBlank t else c :: t := by
  unfold skipBlank
  conv_lhs => unfold skipBlankFrom
  -- The arms of the modes in a comment do not match, and `h` excludes the two that open one.
  split <;> simp_all [skipComment?]

theorem skipBlank_cons (hc : isBlank c = true) : skipBlank (c :: t) = skipBlank t := by
  have hslash : c ≠ '/' := ne_of_isBlank hc (by decide)
  rw [skipBlank_of_none (by simp [skipComment?, hslash]), if_pos hc]

theorem skipBlank_trimStart (t : Text) : skipBlank (trimStart t) = skipBlank t := by
  induction t with
  | nil => rfl
  | cons c t ih =>
    by_cases hc : isBlank c = true
    · rw [trimStart, List.dropWhile_cons_of_pos hc, ← trimStart, ih, skipBlank_cons hc]
    · rw [trimStart, List.dropWhile_cons_of_neg hc]

theorem skipBlankFrom_lineComment (t : Text) :
    skipBlankFrom .lineComment t = skipBlank (t.dropWhile (· != '\n')) := by
  induction t with
  | nil => rfl
  | cons c t ih =>
    change (if c = '\n' then skipBlank t else skipBlankFrom .lineComment t) = _
    split_ifs with hc
    · subst hc
      rw [List.dropWhile_cons_of_neg (by simp), skipBlank_cons (by decide)]
    · rw [List.dropWhile_cons_of_pos (by simpa using hc), ih]

theorem skipBlankFrom_blockComment (t : Text) : skipBlankFrom .blockComment t = skipBlank (behindClose t) := by
  fun_induction behindClose t with
  | case1 => rfl
  | case2 t => rfl
  | case3 c t h ih =>
    rw [← ih]
    conv_lhs => unfold skipBlankFrom
    split <;> simp_all

/-- A round takes at least the two characters that open a comment, and does not change what is left in the end. -/
theorem exists_of_skipComment? (h : skipComment? t = some u) :
    ∃ v, u = trimStart v ∧ v.length + 2 ≤ t.length ∧ skipBlank t = skipBlank v := by
  unfold skipComment? at h
  split at h
  · next t =>
    have hlen := (List.dropWhile_sublist (· != '\n') (l := t)).length_le
    refine ⟨_, (Option.some.inj h).symm, by simp only [List.length_cons]; omega, ?_⟩
    exact skipBlankFrom_lineComment t
  · next t =>
    have hlen := length_behindClose_le t
    refine ⟨_, (Option.some.inj h).symm, by simp only [List.length_cons]; omega, ?_⟩
    exact skipBlankFrom_blockComment t
  · cases h

theorem skipBlank_eq_self (h : skipComment? t = none) (ht : t = [] ∨ Solid t) : skipBlank t = t := by
  rcases ht with rfl | ⟨c, t, rfl, hc⟩
  · rfl
  · rw [skipBlank_of_none h, if_neg (by simp [hc])]

/-- Skipping comes to an end on every text, after no more rounds than there is room for comments. -/
theorem exists_skips (t : Text) : ∃ n, 2 * n ≤ t.length ∧ Skips n (trimStart t) (skipBlank t) := by
  generalize hn : t.length = k
  induction k using Nat.strong_induction_on generalizing t with
  | _ k ih =>
    have htrim := length_trimStart_le t
    cases h : skipComment? (trimStart t) with
    | none =>
      obtain ⟨-, -, -, hsolid⟩ := exists_trimStart t
      have hrest := skipBlank_eq_self h hsolid
      rw [skipBlank_trimStart] at hrest
      rw [hrest]
      exact ⟨0, by omega, .stop h⟩
    | some u =>
      obtain ⟨v, rfl, hlen, hrest⟩ := exists_of_skipComment? h
      obtain ⟨n, hle, hskips⟩ := ih v.length (by omega) v rfl
      rw [skipBlank_trimStart] at hrest
      rw [hrest]
      exact ⟨n + 1, by omega, .round h hskips⟩

/-- White space and comments that have an end do not tell whether a value goes on. -/
theorem continues_append (hw : Skipped w) : continues (w ++ rest) = continues rest := by
  have hcode : State.start = ⟨.code, 0⟩ := rfl
  rw [continues_eq, continues_eq, Reader.after_append, hcode, after_skipped hw]

/-! ### Behind a block -/

/-- A text that is a whole block leaves the reader behind it to what follows. -/
theorem any_afterBlock?_append {body : Text} (hblock : afterBlock? ('\x7b' :: body) = some []) :
    (afterBlock? ('\x7b' :: (body ++ t))).any continues = continues t := by
  obtain ⟨j, hj, hdrop⟩ := Option.map_eq_some_iff.1 hblock
  have hlen : body.length ≤ j := by simpa using hdrop
  have hcloses : Closes ⟨.code, 1⟩ 1 body (closingAt 1 (codeCharsFrom .code 1 body)) :=
    @closes_closingAt body 1 1 .code Nat.one_pos
  have hbrace : closingAt 1 (codeCharsFrom .code 1 body) = some j := hj
  rw [hbrace] at hcloses
  obtain ⟨u, v, rfl, rfl, hu⟩ := hcloses
  obtain rfl : v = [] := by
    rw [List.length_append, List.length_cons] at hlen
    exact List.eq_nil_of_length_eq_zero (by omega)
  rw [afterBlock?_eq, continues_eq, Reader.after_append, hu]

end Source

namespace Arrow

open Source Scan Text

variable {pre post post' line u w w' x x' rest code code' : Text} {h : Head} {i : Nat}

theorem contains_topLevelStarts_eq (hline : LineAt code i pre line post) (hline' : LineAt code' i pre x post') :
    (topLevelStarts code).contains pre.length = (topLevelStarts code').contains pre.length := by
  rw [hline.eq, hline'.eq, contains_topLevelStarts hline.start, contains_topLevelStarts hline.start]

/-- A line without a block becomes the same in front of two texts that both go on with a value or both do not. -/
theorem lines_declare_congr (hline : LineAt code i pre line post) (hline' : LineAt code' i pre line post')
    (hblock : Blockless line) (hgoes : continues post = continues post') :
    (lines (declare code))[i]? = (lines (declare code'))[i]? := by
  have htop := contains_topLevelStarts_eq hline hline'
  let l : SameLine := ⟨line, pre, pre, post, post', hline.notMem, hline.start, hline.start, hline.stop, hline'.stop⟩
  have hform : Form pre line post := form hline.stop hline.notMem
  rcases hform with ⟨h, u, rest, hu, hsplit⟩ | ⟨b, -, hb⟩ | ⟨-, hfails⟩
  · exact absurd hsplit (hblock h u rest hu)
  · have hb' : expressionBinding.ReadsFirst pre line post' b := moves_expressionBinding.readsFirst (l := l) hb
    rw [getElem?_lines_declare hline (declaring_expression hblock hline.stop hb),
      getElem?_lines_declare hline' (declaring_expression hblock hline'.stop hb'), expressionLine, expressionLine, htop,
      ExpressionBinding.isComplete, ExpressionBinding.isComplete, hgoes]
  · have hfails' : expressionBinding.Fails pre (line ++ post') := moves_expressionBinding.fails (l := l) hfails
    rw [getElem?_lines_declare hline (declaring_other hblock hline.stop hfails),
      getElem?_lines_declare hline' (declaring_other hblock hline'.stop hfails')]

/-- A binding with a block for its body is declared in front of two texts, or in front of none, if a value goes on behind
the block in both or in none. -/
theorem lines_declare_block_congr (hu : Binds h u) (hline : LineAt code i pre (u ++ '\x7b' :: x) post)
    (hline' : LineAt code' i pre (u ++ '\x7b' :: x') post')
    (hgoes : (afterBlock? ('\x7b' :: (x ++ post))).any continues = (afterBlock? ('\x7b' :: (x' ++ post'))).any continues) :
    ∃ front, (front = u ++ ['\x7b'] ∨ front = h.front ++ '(' :: (h.params ++ ") \x7b")) ∧
      (lines (declare code))[i]? = some (front ++ x) ∧ (lines (declare code'))[i]? = some (front ++ x') := by
  have htop := contains_topLevelStarts_eq hline hline'
  rw [getElem?_lines_declare hline (declaring_block hline.start hu),
    getElem?_lines_declare hline' (declaring_block hline'.start hu), blockLine, blockLine, htop, hgoes]
  refine ⟨_, ?_, rfl, rfl⟩
  split_ifs
  · exact .inr (by simp [h.declaration_eq])
  · exact .inl rfl

/-- Skipping comes to an end on every text. Whatever white space and comments that have an end stand behind a function
that is bound, the line of its expression becomes the same, and the line in which its block begins is declared in either
case or in neither. -/
theorem lines_declare_skipped (hw : Skipped w) (hw' : Skipped w') :
    (∀ t, ∃ n, 2 * n ≤ t.length ∧ Skips n (trimStart t) (skipBlank t)) ∧ continues (w ++ rest) = continues rest ∧
      (∀ {code code' i pre line}, Blockless line → LineAt code i pre line (w ++ rest) →
        LineAt code' i pre line (w' ++ rest) → (lines (declare code))[i]? = (lines (declare code'))[i]?) ∧
      ∀ {code code' i pre h u body x x' post post'}, Binds h u → afterBlock? ('\x7b' :: body) = some [] →
        x ++ post = body ++ (w ++ rest) → x' ++ post' = body ++ (w' ++ rest) →
        LineAt code i pre (u ++ '\x7b' :: x) post → LineAt code' i pre (u ++ '\x7b' :: x') post' →
        ∃ front, (front = u ++ ['\x7b'] ∨ front = h.front ++ '(' :: (h.params ++ ") \x7b")) ∧
          (lines (declare code))[i]? = some (front ++ x) ∧ (lines (declare code'))[i]? = some (front ++ x') := by
  have hgoes : continues (w ++ rest) = continues (w' ++ rest) := by rw [continues_append hw, continues_append hw']
  refine ⟨exists_skips, continues_append hw, fun hblock hline hline' => ?_, fun hu hblock hx hx' hline hline' => ?_⟩
  · exact lines_declare_congr hline hline' hblock hgoes
  · refine lines_declare_block_congr hu hline hline' ?_
    rw [hx, hx', any_afterBlock?_append hblock, any_afterBlock?_append hblock, hgoes]

/-- A comment of each kind, with openings of literals and of the other kind in them, and blank lines. -/
def remarks : Text := "\n/* ` // */ // it's /*\n\n"

theorem lines_declare_skipped_remarks : Skipped remarks ∧ Skipped "\n" ∧
    (∃ n, 2 * n ≤ ("/* no end" : Text).length ∧ Skips n (trimStart "/* no end") (skipBlank "/* no end")) ∧
    continues (remarks ++ ".map(g)") = continues ".map(g)" ∧
    (lines (declare ("const f = x => x" ++ (remarks ++ ".map(g)"))))[0]? =
      (lines (declare ("const f = x => x" ++ ("\n" ++ ".map(g)"))))[0]? ∧
    ∃ front : Text, (front = "var g = y => " ++ ['\x7b'] ∨ front = "function g(y) \x7b") ∧
      (lines (declare ("var g = y => " ++ '\x7b' :: "y;\x7d" ++ (remarks ++ ".map(g)"))))[0]? = some (front ++ "y;\x7d") ∧
      (lines (declare ("var g = y => " ++ '\x7b' :: "y;\x7d" ++ ("\n" ++ ".map(g)"))))[0]? = some (front ++ "y;\x7d") := by
  have hremarks : Skipped remarks := by
    unfold remarks
    simp only [String.reduceToList]
    exact .blank (by decide) (.blockComment (t := " ` // ") (by decide) (.blank (by decide)
      (.lineComment (t := " it's /*") (by decide) (.blank (by decide) .nil))))
  have hnewline : Skipped "\n" := .blank (by decide) .nil
  have hend : AtLineEnd (remarks ++ ".map(g)") := by
    unfold remarks
    simp only [String.reduceToList]
    simp [AtLineEnd]
  have hend' : AtLineEnd ("\n" ++ ".map(g)" : Text) := by simp [AtLineEnd]
  have hline {line w : Text} (hmem : '\n' ∉ line) (hw : AtLineEnd w) : LineAt (line ++ w) 0 [] line w :=
    ⟨rfl, atLineStart_nil, rfl, hmem, hw⟩
  have hf : Binds ⟨[], false, false, "f", "x"⟩ "const f = x => " :=
    binds_spaced "const" (by simp) (by simp [bindingWords]) (by simp; decide) (by simp; decide)
  have hg : Binds ⟨[], false, false, "g", "y"⟩ "var g = y => " :=
    binds_spaced "var" (by simp) (by simp [bindingWords]) (by simp; decide) (by simp; decide)
  have hexpression : Blockless "const f = x => x" :=
    blockless_of_binds (x := ['x']) hf (by simpa using by decide)
  obtain ⟨hskips, hgoes, hline₁, hline₂⟩ := @lines_declare_skipped remarks "\n" ".map(g)" hremarks hnewline
  refine ⟨hremarks, hnewline, hskips _, hgoes, hline₁ hexpression (hline (by simp) hend) (hline (by simp) hend'), ?_⟩
  refine hline₂ hg (by decide) rfl rfl (hline (by simp) hend) (hline (by simp) hend')

end Arrow

end AppsScript
