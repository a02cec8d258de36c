import AppsScript.Proofs.BindingReadings
import AppsScript.Proofs.Continuations
import AppsScript.Proofs.CutValues

/-!
# One pass for both kinds of bodies

`declare` goes over the code twice, and the second pass reads what the first one put. It might as well go over it
once (`declare_eq_edit`): what a line becomes depends on the line, on the state of the reader in front of it and on
whether its value goes on behind it, and the first pass changes none of these (`after_binds_eq`).
-/

namespace AppsScript.Arrow

open Source Scan Text

variable {pre w post line out t u v r rest : Text} {c : Char} {h : Head} {b : ExpressionBinding} {starts : List Nat}
  {code : Text} {q : Text}

/-! ### Readers behind a binding and behind its declaration -/

theorem exists_calm (hu : Binds h u) : ∃ g c f ps g', u = g ++ (c :: f ++ (ps ++ g')) ∧ AllIndent g ∧ isName c ∧
    (∀ x ∈ f, isCalm x) ∧ Lists h.params ps ∧ ∀ x ∈ g', isCalm x := by
  obtain ⟨ex, kw, g₁, g₂, g₃, as, ps, g₄, g₅, rfl, hm, hex, hkw, -, hg₁, -, hname, hg₂, hg₃, has, hps, hg₄, hg₅⟩ := hu
  have hindent {g : Text} (hg : AllIndent g) : ∀ c ∈ g, isCalm c := fun c hc => isCalm_of_isIndent (hg.isIndent c hc)
  have halnum {kw : Text} (hkw : ∀ c ∈ kw, c.isAlphanum) : ∀ c ∈ kw, isCalm c := fun c hc =>
    isCalm_of_isName (isName_of_isAlphanum (hkw c hc))
  have hmarks {kw t : Text} {isPresent : Bool} (hkw : ∀ c ∈ kw, c.isAlphanum) (ht : Marks kw isPresent t) :
      ∀ c ∈ t, isCalm c := by
    rcases ht with ⟨-, g, rfl, -, hg⟩ | ⟨-, rfl⟩
    · exact List.forall_mem_append.2 ⟨halnum hkw, hindent hg⟩
    · simp
  obtain ⟨hne, hword⟩ := bindingWord_spec hkw
  have hhead : ∃ c f, ex ++ kw = c :: f ∧ isName c := by
    rcases hex with ⟨-, g, rfl, -⟩ | ⟨-, rfl⟩
    · exact ⟨'e', _, rfl, by decide⟩
    · obtain ⟨c, f, rfl⟩ := List.exists_cons_of_ne_nil hne
      exact ⟨c, f, rfl, isName_of_isAlphanum (hword c (by simp))⟩
  obtain ⟨c, f, hf, hc⟩ := hhead
  have hfront : ∀ x ∈ c :: f, isCalm x := by
    rw [← hf]
    exact List.forall_mem_append.2 ⟨hmarks (by simp) hex, halnum hword⟩
  refine ⟨h.margin, c, f ++ (g₁ ++ (h.name ++ (g₂ ++ (("=" : Text) ++ (g₃ ++ as))))), ps, g₄ ++ (("=>" : Text) ++ g₅),
    ?_, hm, hc, ?_, hps, ?_⟩
  · have hsplit (v : Text) : h.margin ++ (ex ++ (kw ++ v)) = h.margin ++ (c :: f ++ v) := by
      rw [← hf, List.append_assoc]
    rw [hsplit]
    simp
  · simp only [List.forall_mem_append]
    exact ⟨fun x hx => hfront x (by simp [hx]), hindent hg₁, fun x hx => isCalm_of_isName (hname x hx), hindent hg₂,
      by simp; decide, hindent hg₃, hmarks (by simp) has⟩
  · simp only [List.forall_mem_append]
    exact ⟨hindent hg₄, by simp; decide, hindent hg₅⟩

theorem exists_front (hu : Binds h u) : ∃ c f, h.front = h.margin ++ c :: f ∧ isName c ∧ ∀ x ∈ f, isCalm x := by
  obtain ⟨ex, kw, f, hf, hex, hkw⟩ := exists_words h
  obtain ⟨hne, hword⟩ := declarationWord_spec hkw
  have hcalm : ∀ x ∈ h.front, isCalm x := fun x hx =>
    (mem_front hu x hx).elim isCalm_of_isIndent isCalm_of_isName
  have hhead : ∃ c t, ex ++ (kw ++ f) = c :: t ∧ isName c := by
    rcases hex with rfl | rfl
    · exact ⟨'e', _, rfl, by decide⟩
    · obtain ⟨c, t, rfl⟩ := List.exists_cons_of_ne_nil hne
      exact ⟨c, _, rfl, isName_of_isAlphanum (hword c (by simp))⟩
  obtain ⟨c, t, ht, hc⟩ := hhead
  rw [ht] at hf
  exact ⟨c, t, hf, hc, fun x hx => hcalm x (by simp [hf, hx])⟩

variable {reader : Reader} {s : State}

/-- A steady reader is where the declaration takes it, and steady. -/
theorem after_binds_eq (hr : reader.IsSteady) (hu : Binds h u) : reader.after u = reader.after h.declaration ∧
    (reader.after u).IsSteady ∧ ¬ (reader.after u).IsAlert := by
  obtain ⟨-, -, -, -, hm, -⟩ := exists_bindingWord hu
  obtain ⟨g, c, f, ps, g', rfl, hg, hc, hf, hps, hg'⟩ := exists_calm hu
  obtain ⟨c', f', hfront, hc', hf'⟩ := exists_front hu
  obtain ⟨htold, hnot⟩ := isSteady_told hr
  have hopen {f : Text} (hf : ∀ x ∈ f, isCalm x) : ∀ x ∈ f ++ ['('], isCalm x :=
    List.forall_mem_append.2 ⟨hf, by simpa using by decide⟩
  have hdecl : reader.after h.declaration = reader.told.after (h.params ++ [')']) := by
    have hsplit : h.declaration = (h.margin ++ c' :: (f' ++ ['('])) ++ (h.params ++ [')']) := by
      simp [h.declaration_eq, hfront]
    rw [hsplit, Reader.after_append, Reader.after_word hr hm hc' (hopen hf')]
  have hclose := Reader.isSteady_after_close htold h.params
  -- The declaration puts parentheses round a parameter that has none; a steady reader does not notice them.
  rcases hps with ⟨rfl, -⟩ | ⟨rfl, -, hname⟩
  · have hsplit : g ++ (c :: f ++ (("(" : Text) ++ (h.params ++ ")") ++ g')) =
        (g ++ c :: (f ++ ['('])) ++ ((h.params ++ [')']) ++ g') := by simp
    have hu : reader.after (g ++ (c :: f ++ (("(" : Text) ++ (h.params ++ ")") ++ g'))) =
        reader.told.after (h.params ++ [')']) := by
      rw [hsplit, Reader.after_append, Reader.after_word hr hg hc (hopen hf), Reader.after_append,
        Reader.after_of_isCalm hclose.1 hclose.2 hg']
    rw [hu, hdecl]
    exact ⟨rfl, hclose⟩
  · have hparams : ∀ x ∈ h.params, isCalm x := fun x hx => isCalm_of_isName (hname x hx)
    have hu : reader.after (g ++ (c :: f ++ (h.params ++ g'))) = reader.told := by
      rw [List.cons_append]
      exact Reader.after_word hr hg hc (List.forall_mem_append.2 ⟨hf, List.forall_mem_append.2 ⟨hparams, hg'⟩⟩)
    have htold' : reader.told.after (h.params ++ [')']) = reader.told :=
      Reader.after_of_isCalm htold hnot (List.forall_mem_append.2 ⟨hparams, by simpa using by decide⟩)
    rw [hu, hdecl, htold']
    exact ⟨rfl, htold, hnot⟩

theorem after_blockEdit_eq (hr : reader.IsSteady) (hput : (blockEdit starts).Changes pre w post r) :
    reader.after r = reader.after w := by
  obtain ⟨h, u, rfl, rfl, -, hu, -⟩ := changes_blockEdit hput
  obtain ⟨heq, hsteady, hnot⟩ := after_binds_eq hr hu
  rw [Reader.after_append, Reader.after_append, ← heq, Reader.after_cons,
    Reader.step_of_isCalm hsteady hnot (by decide)]

/-- The first pass takes a steady reader where the code takes it. -/
theorem after_editAt_blockEdit (hr : reader.IsSteady) (hf : Follows reader s) (hsound : s.spot.IsSound) :
    reader.after ((blockEdit starts).editAt pre t) = reader.after t := by
  refine (spliced_editAt _ pre t).changes.foldl_eq fun x w y r ht hput => ?_
  refine after_blockEdit_eq ?_ hput
  rcases List.eq_nil_or_concat x with rfl | ⟨x, c, rfl⟩
  · exact hr
  · obtain ⟨-, -, -, -, hstart, -⟩ := changes_blockEdit hput
    obtain rfl : c = '\n' := hstart c (by simp)
    show (reader.after (x.concat '\n')).IsSteady
    rw [List.concat_eq_append, Reader.after_append]
    exact isSteady_step_newline (hf.after x) (isSound_after hsound)

theorem continues_editAt_blockEdit : continues ((blockEdit starts).editAt pre t) = continues t := by
  have hsteady : (⟨.start, .next⟩ : Reader).IsSteady := .inr ⟨trivial, trivial⟩
  have hsound : State.start.spot.IsSound := trivial
  rw [continues_eq, continues_eq, after_editAt_blockEdit hsteady (.inl rfl) hsound]

/-! ### What becomes of a line -/

/-- Both passes in one. -/
def declaring (starts : List Nat) : Scan (Option Text) := blockEdit starts <|> expressionEdit starts

theorem linewise_declaring (starts : List Nat) : (declaring starts).Linewise where
  start h := (reads_or.1 h).elim (linewise_blockEdit starts).start (linewise_expressionEdit starts).start
  within h := (reads_or.1 h).elim (linewise_blockEdit starts).within (linewise_expressionEdit starts).within
  consumes h := (reads_or.1 h).elim (linewise_blockEdit starts).consumes (linewise_expressionEdit starts).consumes
  puts h := (reads_or.1 h).elim (linewise_blockEdit starts).puts (linewise_expressionEdit starts).puts

/-- No binding with a block for the body stands at the start of the line. -/
def Blockless (line : Text) : Prop := ∀ h u rest, Binds h u → line ≠ u ++ '\x7b' :: rest

theorem readsFirst_blockEdit (hpre : pre.AtLineStart) (hu : Binds h u) :
    (blockEdit starts).ReadsFirst pre (u ++ ['\x7b']) post
      (if starts.contains pre.length && !(afterBlock? ('\x7b' :: post)).any continues then
        some (h.declaration ++ " \x7b") else none) := by
  refine .of_unique (reads_blockEdit.2 ⟨h, (readsFirst_blockBinding hpre hu).reads, rfl⟩) fun w' post' e heq hr => ?_
  obtain ⟨h', hb, rfl⟩ := reads_blockEdit.1 hr
  obtain ⟨u', rfl, -, hu'⟩ := reads_blockBinding.1 hb
  obtain ⟨rfl, rfl⟩ := binds_block_unique hu hu' (by simpa using heq)
  obtain rfl : post = post' := by simpa using heq
  exact ⟨rfl, rfl⟩

theorem fails_blockEdit (hline : Blockless line) (hpost : post.AtLineEnd) : (blockEdit starts).Fails pre (line ++ post) := by
  rw [fails_iff]
  rintro w post' e heq hr
  obtain ⟨h, hb, -⟩ := reads_blockEdit.1 hr
  obtain ⟨u, rfl, -, hu⟩ := reads_blockBinding.1 hb
  obtain ⟨rest, rfl, -⟩ := exists_line_prefix ((linewise_blockEdit starts).within hr) hpost heq
  exact hline h u rest hu (by simp)

theorem fails_expressionEdit (h : expressionBinding.Fails pre t) : (expressionEdit starts).Fails pre t := by
  rw [fails_iff]
  rintro w post e rfl hr
  obtain ⟨b, hb, -⟩ := reads_expressionEdit.1 hr
  exact fails_iff.1 h w post b rfl hb

/-- A line binds a function with a block for the body, or with an expression, or it binds none. -/
inductive Form (pre line post : Text) : Prop
  | block (h : Head) (u rest : Text) (hu : Binds h u) (hline : line = u ++ '\x7b' :: rest)
  | expression (b : ExpressionBinding) (hblock : Blockless line) (hb : expressionBinding.ReadsFirst pre line post b)
  | other (hblock : Blockless line) (hfails : expressionBinding.Fails pre (line ++ post))

theorem form (hpost : post.AtLineEnd) (hline : '\n' ∉ line) : Form pre line post := by
  by_cases hblock : Blockless line
  · by_cases hfails : expressionBinding.Fails pre (line ++ post)
    · exact .other hblock hfails
    · obtain ⟨w, post', b, heq, hb⟩ := exists_readsFirst hfails
      have hw : '\n' ∉ w := (linewise_expressionEdit []).within (reads_expressionEdit.2 ⟨b, hb.reads, rfl⟩)
      obtain ⟨rest, rfl, rfl⟩ := exists_line_prefix hw hpost heq
      obtain ⟨-, -, -, -, -, -, -, -, hend⟩ := reads_expressionBinding.1 hb.reads
      obtain rfl : rest = [] := by
        cases rest with
        | nil => rfl
        | cons c rest =>
          obtain rfl := hend c rfl
          exact absurd (by simp) hline
      exact .expression b hblock (by simpa using hb)
  · simp only [Blockless, not_forall, not_not] at hblock
    obtain ⟨h, u, rest, hu, hline⟩ := hblock
    exact .block h u rest hu hline

/-- What is put in place of a binding with a block for its body, and what follows on the line. -/
def blockLine (starts : List Nat) (pre : Text) (h : Head) (u rest post : Text) : Text :=
  (if starts.contains pre.length && !(afterBlock? ('\x7b' :: (rest ++ post))).any continues then
    some (h.declaration ++ " \x7b") else none).getD (u ++ ['\x7b']) ++ rest

/-- What is put in place of a line with an expression for the body of its function. -/
def expressionLine (starts : List Nat) (pre line post : Text) (b : ExpressionBinding) : Text :=
  (if starts.contains pre.length && b.isComplete post then some b.declaration else none).getD line

theorem onLine_block (hpre : pre.AtLineStart) (hu : Binds h u) :
    (blockEdit starts).OnLine pre (u ++ '\x7b' :: rest) post (blockLine starts pre h u rest post) :=
  .inr ⟨u ++ ['\x7b'], rest, _, by simp, readsFirst_blockEdit hpre hu, rfl⟩

theorem onLine_expression (hb : expressionBinding.ReadsFirst pre line post b) :
    (expressionEdit starts).OnLine pre line post (expressionLine starts pre line post b) :=
  .inr ⟨line, [], _, by simp, readsFirst_expressionEdit hb, by simp [expressionLine]⟩

theorem declaring_block (hpre : pre.AtLineStart) (hu : Binds h u) :
    (declaring starts).OnLine pre (u ++ '\x7b' :: rest) post (blockLine starts pre h u rest post) :=
  .inr ⟨u ++ ['\x7b'], rest, _, by simp, (readsFirst_blockEdit hpre hu).or_left, rfl⟩

theorem declaring_expression (hblock : Blockless line) (hpost : post.AtLineEnd)
    (hb : expressionBinding.ReadsFirst pre line post b) :
    (declaring starts).OnLine pre line post (expressionLine starts pre line post b) :=
  .inr ⟨line, [], _, by simp, .or_right (fails_blockEdit hblock hpost) (readsFirst_expressionEdit hb),
    by simp [expressionLine]⟩

theorem declaring_other (hblock : Blockless line) (hpost : post.AtLineEnd)
    (hfails : expressionBinding.Fails pre (line ++ post)) : (declaring starts).OnLine pre line post line := by
  refine .inl ⟨?_, rfl⟩
  show (blockEdit starts).run _ ++ (expressionEdit starts).run _ = []
  rw [show (blockEdit starts).run _ = [] from fails_blockEdit hblock hpost,
    show (expressionEdit starts).run _ = [] from fails_expressionEdit hfails]
  rfl

/-! ### The passes line by line -/

variable {pre' post' : Text} {starts' : List Nat}

theorem fails_of_declaration (hu : Binds h u) : expressionBinding.Fails pre (h.declaration ++ t) := by
  rw [fails_iff]
  rintro w post b heq hr
  obtain ⟨u', t', rfl, -, hu', -⟩ := reads_expressionBinding.1 hr
  exact ne_declaration_append hu' hu (by simpa using heq.symm)

theorem fails_blockLine (hu : Binds h u) : expressionBinding.Fails pre' (blockLine starts pre h u rest post ++ post') := by
  rw [blockLine]
  split_ifs
  · have hfails : expressionBinding.Fails pre' (h.declaration ++ (" \x7b" ++ (rest ++ post'))) := fails_of_declaration hu
    simpa using hfails
  · have hfails : expressionBinding.Fails pre' (u ++ '\x7b' :: (rest ++ post')) := fails_expressionBinding hu
    simpa using hfails

/-- The second pass does to a line what it would do to it in the code. -/
theorem exists_onLine_passes (hline : '\n' ∉ line) (hpre : pre.AtLineStart) (hpre' : pre'.AtLineStart)
    (hpost : post.AtLineEnd) (hpost' : post'.AtLineEnd) (htop : starts'.contains pre'.length = starts.contains pre.length)
    (hgoes : continues post' = continues post) : ∃ mid out, (blockEdit starts).OnLine pre line post mid ∧
      (expressionEdit starts').OnLine pre' mid post' out ∧ (declaring starts).OnLine pre line post out := by
  let l : SameLine := ⟨line, pre, pre', post, post', hline, hpre, hpre', hpost, hpost'⟩
  rcases form hpost hline with ⟨h, u, rest, hu, rfl⟩ | ⟨b, hblock, hb⟩ | ⟨hblock, hfails⟩
  · exact ⟨_, _, onLine_block hpre hu, .inl ⟨fails_expressionEdit (fails_blockLine hu), rfl⟩, declaring_block hpre hu⟩
  · have hb' : expressionBinding.ReadsFirst pre' line post' b := moves_expressionBinding.readsFirst (l := l) hb
    have heq : expressionLine starts' pre' line post' b = expressionLine starts pre line post b := by
      rw [expressionLine, expressionLine, htop, ExpressionBinding.isComplete, ExpressionBinding.isComplete, hgoes]
    exact ⟨line, _, .inl ⟨fails_blockEdit hblock hpost, rfl⟩, onLine_expression hb',
      heq ▸ declaring_expression hblock hpost hb⟩
  · have hfails' : expressionBinding.Fails pre' (line ++ post') := moves_expressionBinding.fails (l := l) hfails
    exact ⟨line, line, .inl ⟨fails_blockEdit hblock hpost, rfl⟩, .inl ⟨fails_expressionEdit hfails', rfl⟩,
      declaring_other hblock hpost hfails⟩

theorem exists_line (t : Text) : ∃ line post, t = line ++ post ∧ '\n' ∉ line ∧ post.AtLineEnd := by
  by_cases hmem : '\n' ∈ t
  · obtain ⟨line, post, rfl, hline⟩ := List.eq_append_cons_of_mem hmem
    exact ⟨line, '\n' :: post, rfl, hline, by simp [AtLineEnd]⟩
  · exact ⟨t, [], by simp, hmem, by simp [AtLineEnd]⟩

theorem contains_topLevelStarts (hpre : pre.AtLineStart) :
    (topLevelStarts (pre ++ t)).contains pre.length = decide (State.start.after pre = State.start) := by
  rw [Bool.eq_iff_iff, List.contains_iff_mem, mem_topLevelStarts hpre, decide_eq_true_eq]

theorem after_onLine (hcode : code = pre ++ (line ++ post))
    (h : (blockEdit (topLevelStarts code)).OnLine pre line post out) :
    State.start.after (pre ++ out) = State.start.after (pre ++ line) := by
  rcases h.eq_or_changes with rfl | ⟨w, rest, r, rfl, hr, rfl⟩
  · rfl
  · have hstep := after_of_changes (by simpa using hcode) hr
    simp only [State.after_append, hstep]

theorem editAt_passes (hcode : code = pre ++ t)
    (hcode' : declareBlocks code = q ++ (blockEdit (topLevelStarts code)).editAt pre t) (hpre : pre.AtLineStart)
    (hq : q.AtLineStart) (hstate : State.start.after q = State.start.after pre) :
    (expressionEdit (topLevelStarts (declareBlocks code))).editAt q ((blockEdit (topLevelStarts code)).editAt pre t) =
      (declaring (topLevelStarts code)).editAt pre t := by
  generalize hn : t.length = n
  -- Line by line. Both edits meet again behind the line feed, where a reader of either text is in the same state.
  induction n using Nat.strong_induction_on generalizing pre q t with
  | _ n ih =>
    obtain ⟨line, post, rfl, hline, hpost⟩ := exists_line t
    have hm := linewise_blockEdit (topLevelStarts code)
    have hpost' : AtLineEnd ((blockEdit (topLevelStarts code)).editAt (pre ++ line) post) := hm.atLineEnd_editAt hpost
    have htop : (topLevelStarts (declareBlocks code)).contains q.length = (topLevelStarts code).contains pre.length := by
      rw [hcode', hcode, contains_topLevelStarts hq, contains_topLevelStarts hpre, hstate]
    obtain ⟨mid, out, hmid, hout, hdeclared⟩ := exists_onLine_passes hline hpre hq hpost hpost' htop
      continues_editAt_blockEdit
    have hmidline : '\n' ∉ mid := hmid.notMem hm hline
    rw [editAt_line hm hline hmid, editAt_line (linewise_expressionEdit _) hmidline hout,
      editAt_line (linewise_declaring _) hline hdeclared]
    cases post with
    | nil => simp
    | cons c post =>
      obtain rfl := hpost c rfl
      have hfeed {x : Text} : AtLineStart (x ++ ['\n']) := by simp [AtLineStart]
      have hstep : State.start.after (q ++ mid) = State.start.after (pre ++ line) := by
        rw [State.after_append, hstate, ← State.after_append, after_onLine hcode hmid]
      rw [editAt_newline hm, editAt_newline (linewise_expressionEdit _), editAt_newline (linewise_declaring _),
        ih post.length ?_ ?_ ?_ hfeed hfeed ?_ rfl]
      · rw [← hn]
        simp
        omega
      · simp [hcode]
      · rw [hcode', editAt_line hm hline hmid, editAt_newline hm]
        simp
      · rw [State.after_append, hstep, ← State.after_append]

/-- Declaring all that is bound is one pass over the code. -/
theorem declare_eq_edit (code : Text) : declare code = (declaring (topLevelStarts code)).edit code := by
  have hblocks : declareBlocks code = [] ++ (blockEdit (topLevelStarts code)).editAt [] code := by
    rw [declareBlocks, edit_eq, List.nil_append]
  have hpasses := editAt_passes (List.nil_append code).symm hblocks atLineStart_nil atLineStart_nil rfl
  rw [declare, declareExpressions, edit_eq, edit_eq, ← hpasses, hblocks, List.nil_append]

end AppsScript.Arrow
