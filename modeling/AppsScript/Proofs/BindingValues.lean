import AppsScript.Proofs.OnePass

/-!
# Values of bindings

A line may be read in several ways as the binding of a function with an expression for its body, which share the
blanks around the body differently. The ways agree on the function, on its value and on whether a `;` ends it
(`reads_unique`), because all three can be told from what stands behind the arrow (`value_of_ends`). So it does not
matter which of them is preferred, and a line that certainly holds the whole value becomes the declaration whatever
stands around it (`lines_declare_eligible`).
-/

namespace AppsScript

namespace Text

variable {t u v : Text}

theorem trimStart_append_blank (hu : AllBlank u) : trimStart (u ++ t) = trimStart t :=
  List.dropWhile_append_of_pos hu

theorem trimEnd_append_blank (hv : AllBlank v) : trimEnd (t ++ v) = trimEnd t := by
  rw [trimEnd, List.reverse_append, List.dropWhile_append_of_pos (by simpa [AllBlank] using hv), trimEnd]

theorem trim_append_blank (hu : AllBlank u) (hv : AllBlank v) : trim (u ++ (t ++ v)) = trim t := by
  rw [trim, trim, trimStart_append_blank hu, trimStart, trimStart, List.dropWhile_append]
  split_ifs with h
  · have hv' : v.dropWhile isBlank = [] := List.dropWhile_eq_nil_iff.2 hv
    rw [hv', List.isEmpty_iff.1 h]
  · exact trimEnd_append_blank hv

end Text

namespace Arrow

open Source Scan Text

variable {pre pre' post post' line u v t t' g body cr code : Text} {c : Char} {h h' : Head}
  {b b' : ExpressionBinding} {isTerminated : Bool} {i : Nat}

/-! ### What can be told from the text behind the arrow -/

theorem allBlank_ending (hcr : cr = "\r" ∨ cr = []) : AllBlank cr := by
  rcases hcr with rfl | rfl
  · simpa [AllBlank] using by decide
  · simp [AllBlank]

theorem not_isIndent_ending (hcr : cr = "\r" ∨ cr = []) : ∀ c ∈ cr.head?, ¬ isIndent c := by
  rcases hcr with rfl | rfl
  · simpa using by decide
  · simp

/-- The value is what stands behind the arrow up to a `;`, without the blanks around it. -/
theorem value_of_ends (hg : AllIndent g) (hbody : ';' ∉ body) (ht : Ends isTerminated cr t) :
    trim body = trim (upTo ';' (g ++ (body ++ t))) ∧ (isTerminated = true ↔ ';' ∈ g ++ (body ++ t)) := by
  obtain ⟨g₁, semi, rfl, hg₁, hsemi, hcr⟩ := ht
  have hblank : AllBlank cr := allBlank_ending hcr
  have hindent {g : Text} (hg : AllIndent g) : ';' ∉ g := hg.allBlank.notMem (by decide)
  have hfront : ∀ c ∈ g ++ (body ++ g₁), (c != ';') = true := by
    intro c hc
    rw [bne_iff_ne]
    rintro rfl
    simp [hindent hg, hbody, hindent hg₁] at hc
  rcases hsemi with ⟨rfl, g₂, rfl, hg₂⟩ | ⟨rfl, rfl⟩
  · have hsplit : g ++ (body ++ (g₁ ++ ((";" : Text) ++ g₂ ++ cr))) = (g ++ (body ++ g₁)) ++ ';' :: (g₂ ++ cr) := by
      simp
    refine ⟨?_, by simp⟩
    rw [hsplit, upTo, takeWhile_append hfront (by simp), trim_append_blank hg.allBlank hg₁.allBlank]
  · have htail : AllBlank (g₁ ++ cr) := List.forall_mem_append.2 ⟨hg₁.allBlank, hblank⟩
    have hnone : ';' ∉ g ++ (body ++ (g₁ ++ cr)) := by
      simp [hindent hg, hbody, hindent hg₁, hblank.notMem (c := ';') (by decide)]
    have hall : upTo ';' (g ++ (body ++ (g₁ ++ cr))) = g ++ (body ++ (g₁ ++ cr)) :=
      List.takeWhile_eq_self_iff.2 fun c hc => by
        rw [bne_iff_ne]
        rintro rfl
        exact hnone hc
    refine ⟨?_, by simpa using hnone⟩
    rw [List.nil_append, hall, trim_append_blank hg.allBlank htail]

/-- A `;` has the end of the line behind it. -/
theorem carriageReturn_unique {cr' g' body' : Text} (hg' : AllIndent g') (hbody' : ';' ∉ body') (ht : Ends true cr t)
    (ht' : Ends true cr' t') (heq : g ++ (body ++ t) = g' ++ (body' ++ t')) : cr = cr' := by
  obtain ⟨g₁, semi, rfl, hg₁, hsemi, hcr⟩ := ht
  obtain ⟨g₁', semi', rfl, hg₁', hsemi', hcr'⟩ := ht'
  obtain ⟨-, g₂, rfl, hg₂⟩ : true = true ∧ ∃ g₂, semi = ";" ++ g₂ ∧ AllIndent g₂ := by simpa using hsemi
  obtain ⟨-, g₂', rfl, hg₂'⟩ : true = true ∧ ∃ g₂, semi' = ";" ++ g₂ ∧ AllIndent g₂ := by simpa using hsemi'
  have hindent {g : Text} (hg : AllIndent g) : ';' ∉ g := hg.allBlank.notMem (by decide)
  have hsplit : (g ++ (body ++ g₁)) ++ ';' :: (g₂ ++ cr) = (g' ++ (body' ++ g₁')) ++ ';' :: (g₂' ++ cr') := by
    simpa using heq
  have hfront : ';' ∉ g' ++ (body' ++ g₁') := by simp [hindent hg', hbody', hindent hg₁']
  have htail : ';' ∉ g₂' ++ cr' := by
    simp [hindent hg₂', (allBlank_ending hcr').notMem (c := ';') (by decide)]
  obtain ⟨-, -, hbehind⟩ := (List.append_cons_inj_of_notMem hfront htail).1 hsplit.symm
  exact (hg₂.unique hg₂' hbehind.symm (not_isIndent_ending hcr) (not_isIndent_ending hcr')).2

/-- Two readings of a line agree on the function and on its value. -/
theorem reads_unique (hb : expressionBinding.Reads pre line post b) (hb' : expressionBinding.Reads pre' line post' b') :
    b.head = b'.head ∧ trim b.body = trim b'.body ∧ b.isTerminated = b'.isTerminated ∧
      (b.isTerminated = true → b.carriageReturn = b'.carriageReturn) := by
  obtain ⟨u, t, rfl, -, hu, -, hbody, ht, -⟩ := reads_expressionBinding.1 hb
  obtain ⟨u', t', heq, -, hu', -, hbody', ht', -⟩ := reads_expressionBinding.1 hb'
  obtain ⟨hhead, v, g, g', rfl, rfl, hg, hg'⟩ := binds_unique hu hu' heq
  have hnone : ';' ∉ b.body := fun hc => hbody _ hc (by simp)
  have hnone' : ';' ∉ b'.body := fun hc => hbody' _ hc (by simp)
  have hbehind : g ++ (b.body ++ t) = g' ++ (b'.body ++ t') := by
    rw [List.append_assoc, List.append_assoc] at heq
    exact List.append_cancel_left heq
  obtain ⟨hvalue, hterm⟩ := value_of_ends hg hnone ht
  obtain ⟨hvalue', hterm'⟩ := value_of_ends hg' hnone' ht'
  have hsame : b.isTerminated = b'.isTerminated := by
    rw [Bool.eq_iff_iff, hterm, hterm', hbehind]
  refine ⟨hhead, by rw [hvalue, hvalue', hbehind], hsame, fun htrue => ?_⟩
  rw [htrue] at ht hsame
  rw [← hsame] at ht'
  exact carriageReturn_unique hg' hnone' ht ht' hbehind

/-! ### Lines that are declared -/

theorem getElem?_lines_declare {out : Text} (h : LineAt code i pre line post)
    (hout : (declaring (topLevelStarts code)).OnLine pre line post out) : (lines (declare code))[i]? = some out := by
  obtain ⟨q, hq, -⟩ := (linewise_declaring _).lineAt_edit (f := fun n _ => n) (a := 0) (by simp) h hout
  rw [declare_eq_edit]
  exact getElem?_lines hq

theorem blockless_of_reads (hb : expressionBinding.Reads pre line post b) : Blockless line := by
  rintro h u rest hu rfl
  have hfails : expressionBinding.Fails pre (u ++ '\x7b' :: (rest ++ post)) := fails_expressionBinding hu
  exact fails_iff.1 hfails (u ++ '\x7b' :: rest) post b (by simp) hb

/-- A line whose value a `;` ends becomes the declaration if it starts at the top level and no test finds anything
in the value. -/
theorem declaring_terminated {starts : List Nat} (hline : '\n' ∉ line) (hpost : post.AtLineEnd)
    (htop : starts.contains pre.length = true) (hb : expressionBinding.Reads pre line post b)
    (hterm : b.isTerminated = true) (hnot : ¬ Notices b post) :
    (declaring starts).OnLine pre line post b.declaration := by
  have hblock := blockless_of_reads hb
  have hform : Form pre line post := form hpost hline
  -- the reading that is preferred need not be `b`, but it has the same function and value
  rcases hform with ⟨h, u, rest, hu, hsplit⟩ | ⟨b', -, hb'⟩ | ⟨-, hfails⟩
  · exact absurd hsplit (hblock h u rest hu)
  · obtain ⟨hhead, hvalue, hsame, hcr⟩ := reads_unique hb hb'.reads
    have hdecl : b'.declaration = b.declaration := by
      rw [b.declaration_eq, ExpressionBinding.declaration_eq, hhead, hvalue, hcr hterm]
    have hcomplete : b'.isComplete post = true := by
      rw [isComplete_iff, Notices, ← hvalue, ← hsame]
      exact hnot
    have hout : (declaring starts).OnLine pre line post _ := declaring_expression hblock hpost hb'
    rwa [expressionLine, htop, hcomplete, Bool.and_true, if_pos rfl, Option.getD_some, hdecl] at hout
  · exact absurd hb (fails_iff.1 hfails line post b rfl)

/-- A body that is certainly a whole value as soon as a `;` ends it. -/
structure IsPlain (body : Text) : Prop where
  ne_nil : body ≠ []
  trimmed : trim body = body
  notMem : ∀ c ∈ body, c ∉ [';', '\x7b', '\x7d']
  uncommented : ¬ ("//" : Text) <:+: body ∧ ¬ ("/*" : Text) <:+: body
  closed : endsOpen body = false
  single : hasOuterComma body = false

theorem IsPlain.not_notices (hbody : IsPlain body) (hterm : b.isTerminated = true) (hb : b.body = body) :
    ¬ Notices b post := by
  rw [Notices, hb, hbody.trimmed, mentions_iff, mentions_iff, hbody.closed, hbody.single, hterm]
  simpa using hbody.uncommented

/-- A line at the top level that binds a function becomes a declaration whatever surrounds it: if a `;` ends a plain
body, and if a block follows behind which nothing goes on with the value, or which is not closed. -/
theorem lines_declare_eligible (hline : LineAt code i pre line post) (htop : pre.length ∈ topLevelStarts code)
    (hu : Binds h u) :
    (∀ body g cr, line = u ++ (body ++ ';' :: (g ++ cr)) → IsPlain body → AllIndent g → (cr = "\r" ∨ cr = []) →
      (lines (declare code))[i]? = some (Text.concat [h.margin, if h.isExported then "export " else [],
        if h.isAsync then "async " else [], "function ", h.name, "(", h.params, ")", " \x7b return ", body, "; \x7d",
        cr])) ∧
    ∀ rest, line = u ++ '\x7b' :: rest → (∀ behind ∈ afterBlock? ('\x7b' :: (rest ++ post)), continues behind = false) →
      (lines (declare code))[i]? = some (Text.concat [h.margin, if h.isExported then "export " else [],
        if h.isAsync then "async " else [], "function ", h.name, "(", h.params, ")", " \x7b", rest]) := by
  have htop' : (topLevelStarts code).contains pre.length = true := List.contains_iff_mem.2 htop
  constructor
  · rintro body g cr rfl hbody hg hcr
    have hnewline : '\n' ∉ body := fun hc => hline.notMem (by simp [hc])
    have hreads : expressionBinding.Reads pre (u ++ (body ++ ';' :: (g ++ cr))) post ⟨h, body, true, cr⟩ := by
      refine reads_expressionBinding.2 ⟨u, ';' :: (g ++ cr), rfl, hline.start, hu, hbody.ne_nil, ?_, ?_, hline.stop⟩
      · intro c hc hmem
        have hapart := hbody.notMem c hc
        simp only [List.mem_cons, List.not_mem_nil, or_false, not_or] at hmem hapart
        rcases hmem with rfl | rfl | rfl | rfl
        · exact hapart.1 rfl
        · exact hapart.2.1 rfl
        · exact hapart.2.2 rfl
        · exact hnewline hc
      · exact ⟨[], ";" ++ g, by simp, allIndent_nil, .inl ⟨rfl, g, rfl, hg⟩, hcr⟩
    have hout := declaring_terminated hline.notMem hline.stop htop' hreads rfl (hbody.not_notices rfl rfl)
    rw [getElem?_lines_declare hline hout, ExpressionBinding.declaration, hbody.trimmed, Head.declaration]
    simp only [concat_cons, concat_nil, List.append_assoc, List.append_nil]
  · rintro rest rfl hbehind
    have hgoes : (afterBlock? ('\x7b' :: (rest ++ post))).any continues = false := by
      rw [Option.any_eq_false]
      intro behind hmem
      simp [hbehind behind hmem]
    rw [getElem?_lines_declare hline (declaring_block hline.start hu), blockLine, htop', hgoes, Head.declaration]
    simp only [Bool.not_false, Bool.and_true, if_true, Option.getD_some, concat_cons, concat_nil, List.append_assoc,
      List.append_nil]

/-- A terminated line with every modifier, and a block that is not closed. -/
def twoBindings : Text := "export let f = async (x) => x;\r\nvar g = y => \x7b"

theorem lines_declare_eligible_twoBindings :
    LineAt twoBindings 0 [] "export let f = async (x) => x;\r" "\nvar g = y => \x7b" ∧
    (lines (declare twoBindings))[0]? = some ("export async function f(x) \x7b return x; \x7d\r" : Text) ∧
    (lines (declare twoBindings))[1]? = some ("function g(y) \x7b" : Text) := by
  have hfirst : LineAt twoBindings 0 [] "export let f = async (x) => x;\r" "\nvar g = y => \x7b" := by
    refine ⟨?_, atLineStart_nil, rfl, by simp, by simp [AtLineEnd]⟩
    unfold twoBindings
    simp only [String.reduceToList, List.nil_append, List.cons_append]
  have hsecond : LineAt twoBindings 1 "export let f = async (x) => x;\r\n" "var g = y => \x7b" [] := by
    refine ⟨?_, by simp [AtLineStart], by simp, by simp, by simp [AtLineEnd]⟩
    unfold twoBindings
    simp only [String.reduceToList, List.nil_append, List.cons_append, List.append_nil]
  have hf : Binds ⟨[], true, true, "f", "x"⟩ "export let f = async (x) => " :=
    ⟨"export ", "let", [' '], [' '], [' '], "async ", "(x)", [' '], [' '], by simp, allIndent_nil,
      .inl ⟨rfl, [' '], rfl, by simp, allIndent_space⟩, by simp [bindingWords], by simp, allIndent_space, by simp,
      by simp; decide, allIndent_space, allIndent_space, .inl ⟨rfl, [' '], rfl, by simp, allIndent_space⟩,
      .inl ⟨rfl, by simp⟩, allIndent_space, allIndent_space⟩
  have hg : Binds ⟨[], false, false, "g", "y"⟩ "var g = y => " :=
    binds_spaced "var" (by simp) (by simp [bindingWords]) (by simp; decide) (by simp; decide)
  have hplain : IsPlain "x" := by
    refine ⟨by simp, rfl, by simp, ?_, by simp; decide, by simp; decide⟩
    rw [← mentions_iff, ← mentions_iff]
    exact ⟨by simp; decide, by simp; decide⟩
  have htop : ([] : Text).length ∈ topLevelStarts twoBindings := by simp [topLevelStarts]
  have htop' : ("export let f = async (x) => x;\r\n" : Text).length ∈ topLevelStarts twoBindings := by
    unfold twoBindings
    simp only [String.reduceToList]
    decide +kernel
  refine ⟨hfirst, ?_, ?_⟩
  · refine ((lines_declare_eligible hfirst htop hf).1 "x" [] "\r" ?_ hplain allIndent_nil (.inl rfl)).trans ?_
    · simp
    · simp [Text.concat]
  · refine ((lines_declare_eligible hsecond htop' hg).2 [] ?_ ?_).trans ?_
    · simp
    · decide
    · simp [Text.concat]

end Arrow

end AppsScript
