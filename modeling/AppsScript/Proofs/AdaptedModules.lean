import AppsScript.Proofs.Guarantees
import AppsScript.Proofs.MarkedBindings
import AppsScript.Proofs.SettledModules

/-!
# Chunks of adapted modules

A module that has been adapted when it was loaded goes through the same passes again in its chunk. The second time
they find nothing to remove, to redirect or to mark, but they read the markers. `Unobtrusive` says where no marker
must be due, so that the declaring of arrow functions reads as much without them as with them: line by line it puts
the same (`Abreast.agrees`), and the outcome lacks no more than these markers (`spliced_declare`). Then the chunk is
the one of the module as it was (`finishChunk_adaptModule`).
-/

namespace AppsScript

namespace Arrow

open Source Scan Text Trigger

variable {pre pre' w post post' r t t' out u v x y s s' name line line' rest code code' o p : Text} {c : Char}
  {h : Head} {b : ExpressionBinding} {starts : List Nat}

/-- The places from which the passes read on afresh to the end of the code: its start, the brace of a block that is
the body of a function, and the end of a line that may not be the end of the value. -/
inductive Origin (code : Text) : Text → Prop
  | start : Origin code []
  | block {pre u rest : Text} {h : Head} (hcode : code = pre ++ (u ++ '\x7b' :: rest)) (hpre : pre.AtLineStart)
    (htop : pre.length ∈ topLevelStarts code) (hu : Binds h u) : Origin code (pre ++ u)
  | line {pre line post : Text} {b : ExpressionBinding} (hcode : code = pre ++ (line ++ post))
    (htop : pre.length ∈ topLevelStarts code) (hb : expressionBinding.ReadsFirst pre line post b)
    (hopen : b.isTerminated = false) : Origin code (pre ++ line)

/-- No declaration of a trigger that lacks its marker stands where the marker would change what is declared. -/
structure Unobtrusive (code : Text) : Prop where
  /-- The declaration is on one line up to its parenthesis. -/
  oneLine : ∀ {pre w post r}, code = pre ++ (w ++ post) → declarationHead.Changes pre w post r → '\n' ∉ w
  /-- No reader comes to it in a block comment or behind a slash. -/
  outside : ∀ {o pre w post r}, Origin code o → code = (o ++ pre) ++ (w ++ post) →
    declarationHead.Changes (o ++ pre) w post r → Admits (State.start.after pre).spot
  /-- It is not in a line that is itself declared. -/
  apart : ∀ {pre line post r x w y r'}, code = pre ++ (line ++ post) →
    (expressionEdit (topLevelStarts code)).Changes pre line post r → line = x ++ (w ++ y) →
    ¬ declarationHead.Changes (pre ++ x) w (y ++ post) r'

/-- The markers take no reader elsewhere. -/
theorem after_inserts {reader : Reader} (hc : Unobtrusive code) (ho : Origin code o)
    (hcode : code = (o ++ p) ++ (t ++ post)) (hsplice : Spliced (fun _ _ => True) Inserts (o ++ p) t post out)
    (hf : Follows reader (State.start.after p)) : reader.after out = reader.after t := by
  refine hsplice.foldl_eq fun x w y r ht ⟨hr, hw⟩ => ?_
  have hcode' : code = (o ++ (p ++ x)) ++ (w ++ (y ++ post)) := by simp [hcode, ht]
  have hr' : declarationHead.Changes (o ++ (p ++ x)) w (y ++ post) r := by simpa using hr
  have hadmits := hc.outside ho hcode' hr'
  obtain ⟨s, name, s', rfl, -, hb, hn, hs', -, rfl⟩ := changes_declarationHead hr
  rw [State.after_append] at hadmits
  exact after_marking (hf.after x) hadmits (isSound_after (isSound_after trivial)) hb hn hs' hw

/-! ### A line with the markers and without -/

/-- A line of the code, the primed one with the markers, and `x`, which has been put in front of it. -/
structure Abreast (code code' pre pre' line line' post post' x : Text) : Prop where
  eq : code = pre ++ (line ++ post)
  eq' : code' = pre' ++ (line' ++ post')
  spliceLine : Spliced (fun _ _ => True) Inserts pre line post line'
  splicePost : Spliced (fun _ _ => True) Inserts (pre ++ line) post [] post'
  start : pre.AtLineStart
  start' : pre'.AtLineStart
  notMem : '\n' ∉ line
  notMem' : '\n' ∉ line'
  stop : post.AtLineEnd
  stop' : post'.AtLineEnd
  state : State.start.after pre' = State.start.after pre
  put : x.AtLineStart
  marked : ∀ name ∈ triggers, EndsMarked name x → EndsMarked name pre

theorem Abreast.contains (h : Abreast code code' pre pre' line line' post post' x) :
    (topLevelStarts code').contains pre'.length = (topLevelStarts code).contains pre.length := by
  rw [h.eq, h.eq', contains_topLevelStarts h.start', contains_topLevelStarts h.start, h.state]

/-- Behind the start of a line a marker is due where it is due behind another one. -/
theorem endsMarked_append (hx : x.AtLineStart) (hmarked : ∀ name ∈ triggers, EndsMarked name x → EndsMarked name pre)
    (hn : name ∈ triggers) (h : EndsMarked name (x ++ y)) : EndsMarked name (pre ++ y) := by
  rcases List.eq_nil_or_concat x with rfl | ⟨z, c, rfl⟩
  · exact h.prepend pre
  · obtain rfl : c = '\n' := hx c (by simp)
    have hsplit : EndsMarked name (z ++ '\n' :: y) := by simpa using h
    rcases hsplit.cases (notMem_marker hn '\n' (by simp)) with hy | ⟨hblank, hz⟩
    · exact hy.prepend pre
    · have hput : EndsMarked name (z.concat '\n') := by
        rw [List.concat_eq_append]
        exact hz.append_blank fun d hd => hblank d (by simp_all)
      exact (hmarked name hn hput).append_blank fun d hd => hblank d (by simp [hd])

theorem edge_of_atLineStart (hx : x.AtLineStart) : x.getLast?.any isWord = false := by
  cases h : x.getLast? with
  | none => rfl
  | some c =>
    obtain rfl := hx c h
    decide

/-- What is put in place of a line that both keep has the same markers. -/
theorem Abreast.rebase (h : Abreast code code' pre pre' line line' post post' x) {z : Text} :
    Spliced (fun _ _ => True) Inserts x line z line' := by
  refine h.spliceLine.rebase fun y w v r _ hr => hr.move ?_ fun name hn => endsMarked_append h.put h.marked hn
  by_cases hy : y = []
  · rw [hy, List.append_nil]
    exact edge_of_atLineStart h.put
  · have hedge := hr.edge
    rwa [List.getLast?_append_of_ne_nil _ hy] at hedge ⊢

/-- Whether the line holds the whole value is not changed by the markers. -/
theorem Abreast.isComplete_eq (h : Abreast code code' pre pre' line line' post post' x) (hc : Unobtrusive code)
    (htop : pre.length ∈ topLevelStarts code) (hb : expressionBinding.ReadsFirst pre line post b) :
    b.isComplete post' = b.isComplete post := by
  cases hopen : b.isTerminated with
  | true => simp [ExpressionBinding.isComplete, hopen]
  | false =>
    have hgoes : continues post' = continues post := by
      have hcode : code = ((pre ++ line) ++ []) ++ (post ++ []) := by simp [h.eq]
      have hpost := h.splicePost
      rw [← List.append_nil (pre ++ line)] at hpost
      rw [continues_eq, continues_eq, after_inserts hc (.line h.eq htop hb hopen) hcode hpost (.inl rfl)]
    rw [ExpressionBinding.isComplete, ExpressionBinding.isComplete, hgoes]

theorem declaring_unchanged (hblock : Blockless line) (hline : '\n' ∉ line) (hpost : post.AtLineEnd)
    (hnot : ∀ b, expressionBinding.ReadsFirst pre line post b → ¬ (starts.contains pre.length && b.isComplete post)) :
    (declaring starts).OnLine pre line post line := by
  rcases form hpost hline with ⟨h, u, rest, hu, heq⟩ | ⟨b, -, hb⟩ | ⟨-, hfails⟩
  · exact absurd heq (hblock h u rest hu)
  · have honLine : (declaring starts).OnLine pre line post _ := declaring_expression hblock hpost hb
    rwa [expressionLine, if_neg (hnot b hb)] at honLine
  · exact declaring_other hblock hpost hfails

/-- What becomes of the line is the same with the markers, but for those. -/
def Agrees (code code' pre pre' line line' post post' x z : Text) : Prop :=
  ∃ out out', (declaring (topLevelStarts code)).OnLine pre line post out ∧
    (declaring (topLevelStarts code')).OnLine pre' line' post' out' ∧
    Spliced (fun _ _ => True) Inserts x out z out' ∧
    ∀ name ∈ triggers, EndsMarked name (x ++ out) → EndsMarked name (pre ++ line)

theorem exists_brace (g : Bool) (h : Head) (u : Text) :
    ∃ q, (if g then some (h.declaration ++ " \x7b") else none).getD (u ++ ['\x7b']) = q ++ ['\x7b'] := by
  cases g with
  | false => exact ⟨u, rfl⟩
  | true => exact ⟨h.declaration ++ " ", by simp⟩

theorem Abreast.agrees_block (h : Abreast code code' pre pre' line line' post post' x) (hc : Unobtrusive code)
    {head : Head} (hu : Binds head u) (hline : line = u ++ '\x7b' :: rest) (z : Text) :
    Agrees code code' pre pre' line line' post post' x z := by
  subst hline
  obtain ⟨rest', rfl, hrest⟩ := exists_block hu h.spliceLine
  have hgoes (htop : pre.length ∈ topLevelStarts code) :
      (afterBlock? ('\x7b' :: (rest' ++ post'))).any continues = (afterBlock? ('\x7b' :: (rest ++ post))).any continues := by
    have hcode : code = ((pre ++ u) ++ ['\x7b']) ++ ((rest ++ post) ++ []) := by simp [h.eq]
    have hsplice : Spliced (fun _ _ => True) Inserts ((pre ++ u) ++ ['\x7b']) (rest ++ post) [] (rest' ++ post') := by
      have hpost := h.splicePost
      rw [← List.append_nil post] at hrest
      exact Spliced.append (by simpa using hrest) (by simpa using hpost)
    have hfollows : Follows ⟨⟨.code, 1⟩, .close⟩ (State.start.after ['\x7b']) := .inl rfl
    rw [afterBlock?_eq, afterBlock?_eq,
      after_inserts hc (.block (by simpa using h.eq) h.start htop hu) hcode hsplice hfollows]
  obtain ⟨q, hq⟩ := exists_brace
    ((topLevelStarts code).contains pre.length && !(afterBlock? ('\x7b' :: (rest ++ post))).any continues) head u
  have hout : blockLine (topLevelStarts code) pre head u rest post = q ++ '\x7b' :: rest := by
    rw [blockLine, hq]
    simp
  have hout' : blockLine (topLevelStarts code') pre' head u rest' post' = q ++ '\x7b' :: rest' := by
    have hguard : ((topLevelStarts code').contains pre'.length && !(afterBlock? ('\x7b' :: (rest' ++ post'))).any continues) =
        ((topLevelStarts code).contains pre.length && !(afterBlock? ('\x7b' :: (rest ++ post))).any continues) := by
      rw [h.contains]
      cases htop : (topLevelStarts code).contains pre.length with
      | false => rfl
      | true => rw [hgoes (List.contains_iff_mem.1 htop)]
    rw [blockLine, hguard, hq]
    simp
  refine ⟨_, _, declaring_block h.start hu, declaring_block h.start' hu, ?_, fun name hn hm => ?_⟩
  · rw [hout, hout']
    -- What is in front of the brace does not matter to the markers behind it.
    have hmove : Spliced (fun _ _ => True) Inserts (x ++ (q ++ ['\x7b'])) rest z rest' := by
      refine hrest.rebase fun y w v r _ hr => hr.move ?_ fun name hn hm => ?_
      · by_cases hy : y = []
        · simp [hy]
          decide
        · have hedge := hr.edge
          rwa [List.getLast?_append_of_ne_nil _ hy] at hedge ⊢
      · have hsplit : EndsMarked name ((x ++ q) ++ '\x7b' :: y) := by simpa using hm
        exact (hsplit.of_brace hn).prepend _
    simpa using hmove.keeps
  · rw [hout] at hm
    have hsplit : EndsMarked name ((x ++ q) ++ '\x7b' :: rest) := by simpa using hm
    have hend := (hsplit.of_brace hn).prepend (pre ++ (u ++ ['\x7b']))
    simpa using hend

theorem not_endsMarked_declaration (hb : expressionBinding.Reads pre line post b) (hn : name ∈ triggers) :
    ¬ EndsMarked name (x ++ b.declaration) := by
  intro h
  obtain ⟨u, t, -, -, -, -, -, ⟨g, semi, -, -, -, hcr⟩, -⟩ := reads_expressionBinding.1 hb
  have hsplit : EndsMarked name
      ((x ++ (b.head.declaration ++ (" \x7b return " ++ (trim b.body ++ "; ")))) ++ '\x7d' :: b.carriageReturn) := by
    simpa [b.declaration_eq] using h
  rcases hsplit.cases (notMem_marker hn '\x7d' (by simp)) with ⟨v, g, hv, -⟩ | ⟨hblank, -⟩
  · have hmem : '@' ∈ b.carriageReturn := by simp [hv, markerText, Text.concat]
    rcases hcr with hcr | hcr <;> simp [hcr] at hmem
  · exact absurd (hblank '\x7d' (by simp)) (by decide)

theorem Abreast.agrees_expression (h : Abreast code code' pre pre' line line' post post' x) (hc : Unobtrusive code)
    (hblock : Blockless line) (hb : expressionBinding.ReadsFirst pre line post b)
    (hguard : ((topLevelStarts code).contains pre.length && b.isComplete post) = true) (z : Text) :
    Agrees code code' pre pre' line line' post post' x z := by
  have htop : pre.length ∈ topLevelStarts code := List.contains_iff_mem.1 (Bool.and_eq_true_iff.1 hguard).1
  have hchanges : (expressionEdit (topLevelStarts code)).Changes pre line post b.declaration := by
    have hfirst : (expressionEdit (topLevelStarts code)).ReadsFirst pre line post _ := readsFirst_expressionEdit hb
    rwa [if_pos hguard] at hfirst
  obtain rfl : line' = line := h.spliceLine.eq_of_forall fun y w v r hy hr => hc.apart h.eq hchanges hy hr.1
  let l : SameLine := ⟨line', pre, pre', post, post', h.notMem, h.start, h.start', h.stop, h.stop'⟩
  have hb' : expressionBinding.ReadsFirst pre' line' post' b := moves_expressionBinding.readsFirst (l := l) hb
  have hout : expressionLine (topLevelStarts code) pre line' post b = b.declaration := by
    rw [expressionLine, if_pos hguard, Option.getD_some]
  have hout' : expressionLine (topLevelStarts code') pre' line' post' b = b.declaration := by
    rw [expressionLine, h.contains, h.isComplete_eq hc htop hb, if_pos hguard, Option.getD_some]
  refine ⟨_, _, declaring_expression hblock h.stop hb, declaring_expression hblock h.stop' hb', ?_, fun name hn hm => ?_⟩
  · rw [hout, hout']
    simpa using Spliced.keeps (w := b.declaration) (t := []) .done
  · rw [hout] at hm
    exact absurd hm (not_endsMarked_declaration hb.reads hn)

theorem Abreast.agrees_unchanged (h : Abreast code code' pre pre' line line' post post' x) (hc : Unobtrusive code)
    (hblock : Blockless line) (hnot : ∀ b, expressionBinding.ReadsFirst pre line post b →
      ¬ ((topLevelStarts code).contains pre.length && b.isComplete post) = true) (z : Text) :
    Agrees code code' pre pre' line line' post post' x z := by
  refine ⟨line, line', declaring_unchanged hblock h.notMem h.stop hnot,
    declaring_unchanged (blockless_of_spliced h.spliceLine hblock) h.notMem' h.stop' fun b hb hguard => ?_, h.rebase,
    fun name hn hm => endsMarked_append h.put h.marked hn hm⟩
  rcases eq_or_exists_marking h.spliceLine with rfl | ⟨y, name, v, hn, heq⟩
  · let l : SameLine := ⟨line', pre', pre, post', post, h.notMem, h.start', h.start, h.stop', h.stop⟩
    have hb' : expressionBinding.ReadsFirst pre line' post b := moves_expressionBinding.readsFirst (l := l) hb
    rw [h.contains] at hguard
    have htop : pre.length ∈ topLevelStarts code := List.contains_iff_mem.1 (Bool.and_eq_true_iff.1 hguard).1
    rw [h.isComplete_eq hc htop hb'] at hguard
    exact hnot b hb' hguard
  · rw [isComplete_of_marking hb.reads hn heq] at hguard
    simp at hguard

theorem Abreast.agrees (h : Abreast code code' pre pre' line line' post post' x) (hc : Unobtrusive code) (z : Text) :
    Agrees code code' pre pre' line line' post post' x z := by
  by_cases hblock : Blockless line
  · by_cases hdeclared : ∃ b, expressionBinding.ReadsFirst pre line post b ∧
        ((topLevelStarts code).contains pre.length && b.isComplete post) = true
    · obtain ⟨b, hb, hguard⟩ := hdeclared
      exact h.agrees_expression hc hblock hb hguard z
    · exact h.agrees_unchanged hc hblock (fun b hb hguard => hdeclared ⟨b, hb, hguard⟩) z
  · simp only [Blockless, not_forall, not_not] at hblock
    obtain ⟨head, u, rest, hu, hline⟩ := hblock
    exact h.agrees_block hc hu hline z

/-! ### Line by line -/

theorem not_endsMarked_nil : ¬ EndsMarked name [] := by
  rintro ⟨u, g, heq, -⟩
  simp [markerText, Text.concat] at heq

/-- The code in front of a place and behind it, the primed one with the markers, and `x`, which has been put in
front of it. -/
structure Ahead (code code' pre pre' t t' x : Text) : Prop where
  eq : code = pre ++ t
  eq' : code' = pre' ++ t'
  splice : Spliced (fun _ _ => True) Inserts pre t [] t'
  start : pre.AtLineStart
  start' : pre'.AtLineStart
  state : State.start.after pre' = State.start.after pre
  put : x.AtLineStart
  marked : ∀ name ∈ triggers, EndsMarked name x → EndsMarked name pre

theorem ne_nil_and_notMem_of_inserts (h : Inserts pre w post r) : r ≠ [] ∧ '\n' ∉ r := by
  obtain ⟨s, name, s', -, -, -, hn, -, -, rfl⟩ := changes_declarationHead h.1
  exact ⟨by simp [marking_eq], notMem_marking hn '\n' (by simp)⟩

/-- There is a line without the markers for each line with them. -/
theorem Ahead.exists_line (h : Ahead code code' pre pre' t t' x) : ∃ line line' post post', t = line ++ post ∧
    t' = line' ++ post' ∧ Abreast code code' pre pre' line line' post post' x ∧
    (post = [] ∧ post' = [] ∨ ∃ v v', post = '\n' :: v ∧ post' = '\n' :: v' ∧
      Spliced (fun _ _ => True) Inserts (pre ++ line ++ ['\n']) v [] v') := by
  have hfeed {pre t post out : Text} (hs : Spliced (fun _ _ => True) Inserts pre t post out) (hout : '\n' ∉ out) :
      '\n' ∉ t := fun hmem =>
    hs.forall_mem (p := (· ≠ '\n')) (fun c hc h => hout (h ▸ hc)) (fun hr c hc h => hr.2 (h ▸ hc)) _ hmem rfl
  by_cases hmem : '\n' ∈ t'
  · obtain ⟨line', v', rfl, hline'⟩ := List.eq_append_cons_of_mem hmem
    obtain ⟨line, v, rfl, hline, hv⟩ := h.splice.split_char rfl ne_nil_and_notMem_of_inserts
    rw [List.append_nil] at hline
    refine ⟨line, line', '\n' :: v, '\n' :: v', rfl, rfl, ?_, .inr ⟨v, v', rfl, rfl, hv⟩⟩
    exact ⟨h.eq, h.eq', hline, .keep trivial hv, h.start, h.start', hfeed hline hline', hline', by simp [AtLineEnd],
      by simp [AtLineEnd], h.state, h.put, h.marked⟩
  · refine ⟨t, t', [], [], by simp, by simp, ?_, .inl ⟨rfl, rfl⟩⟩
    exact ⟨by simp [h.eq], by simp [h.eq'], h.splice, .done, h.start, h.start', hfeed h.splice hmem, hmem,
      by simp [AtLineEnd], by simp [AtLineEnd], h.state, h.put, h.marked⟩

/-- A reader comes to the end of a line as it does without the markers. -/
theorem Abreast.state_line (h : Abreast code code' pre pre' line line' post post' x) (hc : Unobtrusive code) :
    State.start.after (pre' ++ line') = State.start.after (pre ++ line) := by
  have hfollows : Follows ⟨State.start.after pre, .stop⟩ (State.start.after pre) := .inl rfl
  have hafter := after_inserts hc .start (p := pre) (by simpa using h.eq) (by simpa using h.spliceLine) hfollows
  rw [Reader.after_stop, Reader.after_stop] at hafter
  rw [State.after_append, State.after_append, h.state]
  exact congrArg Reader.state hafter

theorem Abreast.ahead {v v' out : Text} (h : Abreast code code' pre pre' line line' ('\n' :: v) ('\n' :: v') x)
    (hc : Unobtrusive code) (hv : Spliced (fun _ _ => True) Inserts (pre ++ line ++ ['\n']) v [] v')
    (hmarked : ∀ name ∈ triggers, EndsMarked name (x ++ out) → EndsMarked name (pre ++ line)) :
    Ahead code code' (pre ++ line ++ ['\n']) (pre' ++ line' ++ ['\n']) v v' (x ++ out ++ ['\n']) where
  eq := by simp [h.eq]
  eq' := by simp [h.eq']
  splice := hv
  start := by simp [AtLineStart]
  start' := by simp [AtLineStart]
  state := by rw [State.after_append (t := pre' ++ line'), State.after_append (t := pre ++ line), h.state_line hc]
  put := by simp [AtLineStart]
  marked name hn hm := by
    rcases hm.cases (notMem_marker hn '\n' (by simp)) with hnil | ⟨-, hm⟩
    · exact absurd hnil not_endsMarked_nil
    · exact (hmarked name hn hm).append_blank (by simp [AllBlank]; decide)

/-- Behind a place the same is declared as without the markers, but for those. -/
theorem Ahead.spliced_declaring (h : Ahead code code' pre pre' t t' x) (hc : Unobtrusive code) :
    Spliced (fun _ _ => True) Inserts x ((declaring (topLevelStarts code)).editAt pre t) []
      ((declaring (topLevelStarts code')).editAt pre' t') := by
  generalize hn : t.length = n
  induction n using Nat.strong_induction_on generalizing pre pre' t t' x with
  | _ n ih =>
    obtain ⟨line, line', post, post', rfl, rfl, habreast, hpost⟩ := h.exists_line
    obtain ⟨out, out', hout, hout', hsplice, hmarked⟩ :=
      habreast.agrees hc ((declaring (topLevelStarts code)).editAt (pre ++ line) post ++ [])
    rw [editAt_line (linewise_declaring _) habreast.notMem hout, editAt_line (linewise_declaring _) habreast.notMem' hout']
    refine hsplice.append ?_
    rcases hpost with ⟨rfl, rfl⟩ | ⟨v, v', rfl, rfl, hv⟩
    · exact .done
    · rw [editAt_newline (linewise_declaring _), editAt_newline (linewise_declaring _)]
      refine .keep trivial (ih v.length ?_ (habreast.ahead hc hv hmarked) rfl)
      rw [← hn, List.length_append, List.length_cons]
      omega

theorem spliced_mark (hline : ∀ {pre w post r}, code = pre ++ (w ++ post) → declarationHead.Changes pre w post r → '\n' ∉ w) :
    Spliced (fun _ _ => True) Inserts [] code [] (mark code) :=
  (spliced_edit declarationHead code).changes.rebase fun y w v r hy hr =>
    ⟨by simpa using hr, hline hy (by simpa using hr)⟩

/-- What is declared is the same with the markers, but for those. -/
theorem spliced_declare (hc : Unobtrusive code) :
    Spliced (fun _ _ => True) Inserts [] (declare code) [] (declare (mark code)) := by
  have hahead : Ahead code (mark code) [] [] code (mark code) [] :=
    ⟨rfl, rfl, spliced_mark hc.oneLine, atLineStart_nil, atLineStart_nil, rfl, atLineStart_nil, fun _ _ h => h⟩
  rw [declare_eq_edit, declare_eq_edit, edit_eq, edit_eq]
  exact hahead.spliced_declaring hc

theorem head_ne_of_binds (hu : Binds h u) : ∀ c ∈ u.head?, c ≠ 'f' := by
  obtain ⟨ex, kw, v, rfl, hm, hex, hkw⟩ := exists_bindingWord hu
  cases hmargin : h.margin with
  | cons x m =>
    rintro c hc rfl
    obtain rfl : x = 'f' := by simpa using hc
    exact absurd (hm 'f' (by simp [hmargin])) (by decide)
  | nil =>
    simp only [bindingWords, List.mem_cons, List.not_mem_nil, or_false] at hkw
    rcases hex with ⟨-, g, rfl, -, -⟩ | ⟨-, rfl⟩
    · simp
    · rcases hkw with rfl | rfl | rfl <;> simp

/-- The marker of a declaration in front of the code makes no difference, if there is no other one. -/
theorem unobtrusive_front (hrest : 'f' ∉ rest) : Unobtrusive ("function onOpen(" ++ rest) := by
  have hfront {pre w post r : Text} (heq : ("function onOpen(" : Text) ++ rest = pre ++ (w ++ post))
      (hr : declarationHead.Changes pre w post r) : pre = [] ∧ w = "function onOpen(" := by
    obtain ⟨s, name, s', rfl, -, hb, hn, hs', -, -⟩ := changes_declarationHead hr
    have hpre : pre = [] := by
      cases pre with
      | nil => rfl
      | cons c pre =>
        have hmem : 'f' ∈ ("unction onOpen(" : Text) ++ rest := by
          rw [show ("unction onOpen(" : Text) ++ rest = pre ++ (opening s name s' ++ post) from (List.cons.inj heq).2]
          simp [opening_eq]
        simp [hrest] at hmem
    subst hpre
    obtain ⟨q, hq, hparen⟩ := exists_eq_append_paren hb hn hs'
    have hsplit : q ++ '(' :: post = ("function onOpen" : Text) ++ '(' :: rest := by simpa [hq] using heq.symm
    refine ⟨rfl, ?_⟩
    rw [hq, (first_unique hsplit hparen (by simp)).1]
    rfl
  refine ⟨fun heq hr => ?_, fun {o pre w post r} _ heq hr => ?_, fun {pre line post r x w y r'} heq hr hline hr' => ?_⟩
  · rw [(hfront heq hr).2]
    simp
  · obtain ⟨hnil, -⟩ := hfront heq hr
    obtain ⟨-, rfl⟩ := List.append_eq_nil_iff.1 hnil
    trivial
  · obtain ⟨hnil, rfl⟩ := hfront (by simpa [hline] using heq) hr'
    obtain ⟨rfl, rfl⟩ := List.append_eq_nil_iff.1 hnil
    obtain ⟨b, hb, -⟩ := reads_expressionEdit.1 hr.reads
    obtain ⟨u, t, hu, -, hbinds, -⟩ := reads_expressionBinding.1 hb
    obtain ⟨v, g, harrow, -⟩ := exists_arrow hbinds
    obtain ⟨c, u, rfl⟩ := List.exists_cons_of_ne_nil (l := u) (by simp [harrow])
    obtain rfl : 'f' = c := by simpa using congrArg List.head? (hline.symm.trans hu)
    exact head_ne_of_binds hbinds 'f' rfl rfl

theorem mark_declare_mark (hc : Unobtrusive code) : mark (declare (mark code)) = mark (declare code) :=
  mark_of_spliced ((spliced_declare hc).mono And.left)

end Arrow

/-! ### What the other passes do to markers -/

namespace Trigger

open Source Scan Text ModuleSyntax

theorem unnoticed_inserts : Unnoticed Inserts where
  before h := any_isAlphanum_of_changes h.1
  last h := by
    obtain ⟨s, name, s', rfl, -, -, -, -, -, rfl⟩ := changes_declarationHead h.1
    rw [getLast?_marking, getLast?_opening]
  clean {_ w _ r} h := by
    obtain ⟨hr, hw⟩ := h
    obtain ⟨s, name, s', rfl, -, hb, hn, hs', -, rfl⟩ := changes_declarationHead hr
    have hblank {g : Text} (hg : AllBlank g) (hfeed : '\n' ∉ g) :
        ∀ c ∈ g, c ∉ ['"', '\'', '\x7b', '\x7d', ';', '\n'] := by
      intro c hc hmem
      have := hg c hc
      simp only [List.mem_cons, List.not_mem_nil, or_false] at hmem
      rcases hmem with rfl | rfl | rfl | rfl | rfl | rfl
      · exact absurd this (by decide)
      · exact absurd this (by decide)
      · exact absurd this (by decide)
      · exact absurd this (by decide)
      · exact absurd this (by decide)
      · exact hfeed hc
    have hname : ∀ c ∈ name, c ∉ ['"', '\'', '\x7b', '\x7d', ';', '\n'] := by
      intro c hc hmem
      have := isAlphanum_of_mem_triggers hn c hc
      simp only [List.mem_cons, List.not_mem_nil, or_false] at hmem
      rcases hmem with rfl | rfl | rfl | rfl | rfl | rfl <;> exact absurd this (by decide)
    simp only [opening_eq, List.mem_append, not_or] at hw
    simp only [opening_eq, marking_eq, List.forall_mem_append]
    exact ⟨⟨by simp, hblank hb hw.2.1, hname, hblank hs' hw.2.2.2.1, by simp⟩, by simp, hname, by simp, hname, by simp⟩
  strange h := .inl (List.mem_of_head? (head_of_changes h.1))
  start h := .inl (head_of_changes h.1)
  cut {_ _ _ r₁ r₂} h h₁ _ hname := by
    have hhead := head_of_changes h.1
    rw [List.head?_append_of_ne_nil _ h₁] at hhead
    exact absurd (hname '/' (List.mem_of_head? hhead)) (by decide)

end Trigger

/-! ### Modules and chunks -/

open Arrow Source Scan Text Trigger

variable {settings : Settings} {code : Text}

theorem redirectCalls_mark (settings : Settings) (code : Text) :
    redirectCalls settings (mark (redirectCalls settings code)) = mark (redirectCalls settings code) := by
  by_cases h : settings.transformLogger = true
  · have hmarked := redirected_mark (redirectCalls_redirected h code)
    rw [redirectCalls, if_pos h, Logger.redirect_of_redirected hmarked]
  · rw [redirectCalls, if_neg h]

theorem noSyntax_redirectCalls (h : ModuleSyntax.NoSyntax code) : ModuleSyntax.NoSyntax (redirectCalls settings code) := by
  rw [redirectCalls]
  split_ifs
  · exact ModuleSyntax.noSyntax_redirect h
  · exact h

theorem remove_mark (h : ModuleSyntax.NoSyntax code) (hline : ∀ {pre w post r}, code = pre ++ (w ++ post) →
    declarationHead.Changes pre w post r → '\n' ∉ w) : ModuleSyntax.remove (mark code) = mark code :=
  ModuleSyntax.remove_eq_self_iff.2 (h.of_spliced unnoticed_inserts (spliced_mark hline))

/-- A module gives the same chunk when it has been adapted before, if removing module syntax again removes nothing
more and no marker gets where it makes a difference. -/
theorem finishChunk_adaptModule
    (hstable : ModuleSyntax.remove (ModuleSyntax.remove code) = ModuleSyntax.remove code)
    (hmarks : Unobtrusive (redirectCalls settings (ModuleSyntax.remove code))) :
    finishChunk settings (adaptModule settings code) = finishChunk settings code := by
  have hbare : ModuleSyntax.NoSyntax (redirectCalls settings (ModuleSyntax.remove code)) :=
    noSyntax_redirectCalls (ModuleSyntax.remove_eq_self_iff.1 hstable)
  calc finishChunk settings (adaptModule settings code)
    _ = mark (declare (redirectCalls settings (adaptModule settings code))) := by
      rw [finishChunk, adaptModule, remove_mark hbare hmarks.oneLine]
    _ = mark (declare (adaptModule settings code)) := by rw [adaptModule, redirectCalls_mark]
    _ = finishChunk settings code := mark_declare_mark hmarks

/-- A trigger and an arrow function. -/
def menu : Text := "export function onOpen() \x7b\x7d\nconst twice = (x) => 2 * x;"

theorem finishChunk_adaptModule_menu :
    ModuleSyntax.remove (ModuleSyntax.remove menu) = ModuleSyntax.remove menu ∧
    Unobtrusive (redirectCalls Settings.default (ModuleSyntax.remove menu)) ∧
    finishChunk Settings.default (adaptModule Settings.default menu) =
      "/* @preserve onOpen */ function onOpen() \x7b\x7d\nfunction twice(x) \x7b return 2 * x; \x7d" := by
  have hremove : ModuleSyntax.remove menu = "function onOpen() \x7b\x7d\nconst twice = (x) => 2 * x;" := by
    unfold menu
    simp only [String.reduceToList]
    decide +kernel
  have hstable : ModuleSyntax.remove (ModuleSyntax.remove menu) = ModuleSyntax.remove menu := by
    rw [hremove]
    simp only [String.reduceToList]
    decide +kernel
  have hcalls : redirectCalls Settings.default (ModuleSyntax.remove menu) =
      "function onOpen(" ++ (") \x7b\x7d\nconst twice = (x) => 2 * x;" : Text) := by
    rw [hremove]
    simp only [String.reduceToList]
    decide +kernel
  have hmarks : Unobtrusive (redirectCalls Settings.default (ModuleSyntax.remove menu)) := by
    rw [hcalls]
    exact unobtrusive_front (by simp)
  have hdeclare : declare (redirectCalls Settings.default (ModuleSyntax.remove menu)) =
      "function onOpen() \x7b\x7d\nfunction twice(x) \x7b return 2 * x; \x7d" := by
    rw [hcalls]
    simp only [String.reduceToList]
    decide +kernel
  refine ⟨hstable, hmarks, (finishChunk_adaptModule hstable hmarks).trans ?_⟩
  rw [finishChunk, hdeclare]
  simp only [String.reduceToList]
  decide +kernel

/-- The chunk is another one where a marker is in a line that is declared, where there is more to remove the second
time, where a marker ends a comment, and where it takes in a line feed that ends one. -/
theorem finishChunk_adaptModule_ne :
    finishChunk Settings.default (adaptModule Settings.default "const f = () => 'function onOpen()';") ≠
      finishChunk Settings.default "const f = () => 'function onOpen()';" ∧
    finishChunk Settings.default (adaptModule Settings.default "export default import '';") ≠
      finishChunk Settings.default "export default import '';" ∧
    finishChunk Settings.default (adaptModule Settings.default "/*function onOpen()\nconst f=()=>1;") ≠
      finishChunk Settings.default "/*function onOpen()\nconst f=()=>1;" ∧
    finishChunk Settings.default (adaptModule Settings.default "//function\nonOpen(\x7b\nconst f=()=>1;") ≠
      finishChunk Settings.default "//function\nonOpen(\x7b\nconst f=()=>1;" := by
  simp only [String.reduceToList]
  refine ⟨?_, ?_, ?_, ?_⟩ <;> decide +kernel

end AppsScript
