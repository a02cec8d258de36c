import AppsScript.Proofs.BindingValues
import AppsScript.Proofs.PreferredReadings

/-!
# Line endings

With a carriage return in front of every line feed (`Text.crlf`) a text has the same lines but for their last
character. A reader of code comes to the same states (`Reader.after_crlf`), so the same lines start at the top level
and the same values go on. A line that has something behind its arrow becomes what it became, with the carriage
return. A line that ends at its arrow does not: there the carriage return is read as the body
(`readsFirst_of_dangling`). `declare_crlf_iff` says that this is the only difference.
-/

namespace AppsScript

namespace Text

variable {t u pre line post : Text} {i : Nat}

/-- The text with a carriage return in front of every line feed. -/
def crlf (t : Text) : Text := t.flatMap fun c => if c = '\n' then ['\r', '\n'] else [c]

@[simp] theorem crlf_nil : crlf [] = [] := rfl

@[simp] theorem crlf_append (t u : Text) : crlf (t ++ u) = crlf t ++ crlf u := List.flatMap_append

@[simp] theorem crlf_newline (t : Text) : crlf ('\n' :: t) = '\r' :: '\n' :: crlf t := rfl

theorem crlf_of_notMem (ht : '\n' ∉ t) : crlf t = t := by
  induction t with
  | nil => rfl
  | cons c t ih =>
    rw [List.mem_cons, not_or] at ht
    rw [crlf, List.flatMap_cons, if_neg (Ne.symm ht.1), ← crlf, ih ht.2, List.singleton_append]

theorem count_crlf (t : Text) : (crlf t).count '\n' = t.count '\n' := by
  induction t with
  | nil => rfl
  | cons c t ih =>
    rw [crlf, List.flatMap_cons, List.count_append, ← crlf, ih]
    by_cases hc : c = '\n'
    · simp [hc, Nat.add_comm]
    · simp [hc]

theorem AtLineStart.crlf (h : pre.AtLineStart) : (Text.crlf pre).AtLineStart := by
  rcases List.eq_nil_or_concat pre with rfl | ⟨q, c, rfl⟩
  · exact atLineStart_nil
  · obtain rfl := h c (by simp)
    simp [AtLineStart]

theorem LineAt.crlf (h : LineAt t i pre line ('\n' :: post)) :
    LineAt (Text.crlf t) i (Text.crlf pre) (line ++ ['\r']) ('\n' :: Text.crlf post) where
  eq := by simp [h.eq, crlf_of_notMem h.notMem]
  start := h.start.crlf
  count := by rw [count_crlf, h.count]
  notMem := by simp [h.notMem]
  stop := by simp [AtLineEnd]

theorem LineAt.crlf_last (h : LineAt t i pre line []) : LineAt (Text.crlf t) i (Text.crlf pre) line [] where
  eq := by simp [h.eq, crlf_of_notMem h.notMem]
  start := h.start.crlf
  count := by rw [count_crlf, h.count]
  notMem := h.notMem
  stop := h.stop

theorem length_lines_crlf (t : Text) : (lines (crlf t)).length = (lines t).length := by
  rw [length_lines, length_lines, count_crlf]

theorem unlines_lines (t : Text) : unlines (lines t) = t ++ ['\n'] := by
  induction t with
  | nil => rfl
  | cons c t ih =>
    by_cases hc : c = '\n'
    · rw [lines, pieces, if_pos (by simpa using hc), ← lines, unlines_cons, ih, hc]
      rfl
    · have hne : lines t ≠ [] := pieces_ne_nil _ t
      obtain ⟨p, ps, hp⟩ := List.exists_cons_of_ne_nil hne
      rw [hp, unlines_cons] at ih
      rw [lines, pieces, if_neg (by simpa using hc), ← lines, hp, unlines_cons, List.cons_append, ih]
      rfl

/-- A text is known from its lines. -/
theorem eq_iff_getElem?_lines : t = u ↔ ∀ i : Nat, (lines t)[i]? = (lines u)[i]? := by
  constructor
  · rintro rfl i
    rfl
  · intro h
    have hlines : unlines (lines t) = unlines (lines u) := by rw [List.ext_getElem? h]
    rw [unlines_lines, unlines_lines] at hlines
    exact List.append_cancel_right hlines

end Text

/-! ### Readers -/

namespace Source

open Text

variable {t : Text} {c : Char} {r : Reader} {s : State}

theorem State.step_crlf (hsound : s.spot.IsSound) : (s.step '\r').step '\n' = s.step '\n' := by
  obtain ⟨spot, d⟩ := s
  cases spot with
  | literal q =>
    have hq : '\r' ≠ q := by
      rintro rfl
      simp [Spot.IsSound, isQuote] at hsound
    simp [step, hq]
  | escape q =>
    have hq : '\n' ≠ q := by
      rintro rfl
      simp [Spot.IsSound, isQuote] at hsound
    simp [step, hq]
  | _ => simp [step, behindCode, isQuote]

/-- A carriage return does not take a reader out of a literal or a comment. -/
theorem State.step_carriageReturn (hsound : s.spot.IsSound) (hcode : s.spot ≠ .code) (hslash : s.spot ≠ .slash) :
    (s.step '\r').spot ≠ .code ∧ (s.step '\r').spot ≠ .slash := by
  obtain ⟨spot, d⟩ := s
  cases spot with
  | code => exact absurd rfl hcode
  | slash => exact absurd rfl hslash
  | literal q =>
    have hq : '\r' ≠ q := by
      rintro rfl
      simp [Spot.IsSound, isQuote] at hsound
    simp [step, hq]
  | _ => simp [step]

theorem step_next (hcode : s.spot ≠ .code) (hslash : s.spot ≠ .slash) :
    (⟨s, .next⟩ : Reader).step c = ⟨s.step c, .next⟩ := by
  rw [Reader.step, if_neg fun h => hcode h.1, if_neg fun h => hslash h.1]

/-- A carriage return in front of a line feed tells a reader nothing. -/
theorem Reader.step_crlf (h : Follows r s) (hsound : s.spot.IsSound) : (r.step '\r').step '\n' = r.step '\n' := by
  obtain ⟨state, aim⟩ := r
  rcases h with rfl | ⟨g, rfl⟩
  · have hstate : (state.step '\r').step '\n' = state.step '\n' := State.step_crlf hsound
    cases aim with
    | stop => exact congrArg (Reader.mk · .stop) hstate
    | close =>
      rw [step_close (.inl (by simp)), step_close (.inl (by simp)), step_close (.inl (by simp)), hstate]
    | next =>
      by_cases hcode : state.spot = .code
      · obtain ⟨spot, d⟩ := state
        obtain rfl : spot = .code := hcode
        rw [step_next_blank (by decide), step_next_blank (by decide)]
      by_cases hslash : state.spot = .slash
      · obtain ⟨spot, d⟩ := state
        obtain rfl : spot = .slash := hslash
        simp [Reader.step]
      obtain ⟨hcode', hslash'⟩ := State.step_carriageReturn hsound hcode hslash
      rw [step_next hcode hslash, step_next hcode' hslash', step_next hcode hslash, hstate]
    | settled g => rfl
  · rfl

theorem Reader.after_crlf (h : Follows r s) (hsound : s.spot.IsSound) : r.after (crlf t) = r.after t := by
  induction t generalizing r s with
  | nil => rfl
  | cons c t ih =>
    have hrest := ih (h.step c) (isSound_step hsound)
    by_cases hc : c = '\n'
    · subst hc
      rw [crlf_newline, after_cons, after_cons, step_crlf h hsound, hrest, after_cons]
    · rw [crlf, List.flatMap_cons, if_neg hc, ← crlf, List.singleton_append, after_cons, after_cons, hrest]

theorem after_start_crlf (t : Text) : State.start.after (crlf t) = State.start.after t := by
  have hsound : State.start.spot.IsSound := trivial
  have hstop : (⟨State.start, .stop⟩ : Reader).after (crlf t) = (⟨State.start, .stop⟩ : Reader).after t :=
    Reader.after_crlf (.inl rfl) hsound
  rw [Reader.after_stop, Reader.after_stop] at hstop
  exact congrArg Reader.state hstop

theorem continues_crlf (t : Text) : continues (crlf t) = continues t := by
  have hsound : State.start.spot.IsSound := trivial
  rw [continues_eq, continues_eq, Reader.after_crlf (.inl rfl) hsound]

theorem continues_newline (t : Text) : continues ('\n' :: t) = continues t := by
  have hstart : State.start = ⟨.code, 0⟩ := rfl
  rw [continues_eq, continues_eq, Reader.after_cons, hstart, step_next_blank (by decide)]

theorem afterBlock?_crlf (t : Text) :
    (afterBlock? ('\x7b' :: crlf t)).any continues = (afterBlock? ('\x7b' :: t)).any continues := by
  have hsound : (⟨.code, 1⟩ : State).spot.IsSound := trivial
  rw [afterBlock?_eq, afterBlock?_eq, Reader.after_crlf (.inl rfl) hsound]

end Source

/-! ### Lines of bindings -/

namespace Arrow

open Source Scan Text

variable {pre pre' post post' line u x out code : Text} {h h' : Head} {b b' : ExpressionBinding} {starts starts' : List Nat}
  {i : Nat}

theorem isGreedy_head : IsGreedy isIndent head :=
  .bind fun _ => .bind fun _ => .bind fun _ => .bind fun _ => .bind fun _ => .bind fun _ => .bind fun _ =>
    .bind fun _ => .bind fun _ => .bind fun _ => .bind fun _ => .bind fun _ => .bind fun _ => isGreedy_many_bind _

theorem readsFirst_head (hpre : pre.AtLineStart) (hu : Binds h u) (hpost : ∀ c ∈ post.head?, ¬ isIndent c) :
    head.ReadsFirst pre u post h := by
  have hreads : head.Reads pre u post h := reads_head.2 ⟨hpre, hu⟩
  obtain ⟨u', post', h', heq, hfirst⟩ := exists_readsFirst fun hfails => fails_iff.1 hfails u post h rfl hreads
  obtain ⟨-, hu'⟩ := reads_head.1 hfirst.reads
  obtain ⟨rfl, v, g, g', rfl, rfl, hg, hg'⟩ := binds_unique hu hu' heq
  have hrest : g ++ post = g' ++ post' := by simpa using heq
  obtain ⟨rfl, rfl⟩ := hg.unique hg' hrest hpost (isGreedy_head.stops hfirst)
  exact hfirst

/-- At a line that ends at its arrow a carriage return is read as the body. -/
theorem readsFirst_of_dangling (hpre : pre.AtLineStart) (hu : Binds h line) (hpost : post.AtLineEnd) :
    expressionBinding.ReadsFirst pre (line ++ ['\r']) post ⟨h, ['\r'], false, []⟩ := by
  have hindent : ∀ c ∈ post.head?, ¬ isIndent c := fun c hc => by
    obtain rfl := hpost c hc
    decide
  have hword {x : Char} (hx : x ≠ '\n') : ¬ [x] <+: post := by
    rintro ⟨t, rfl⟩
    exact hx (hpost x rfl)
  have hbody : (few1 (· ∉ [';', '\x7b', '\x7d', '\n'])).ReadsFirst (pre ++ line) ['\r'] post () :=
    ReadsFirst.bind (u := ['\r']) (readsFirst_char (by decide)) readsFirst_few
  have hsemi : (Scan.maybe do .word ";"; indent : Scan (Option Unit)).ReadsFirst (pre ++ line ++ ['\r']) [] post none :=
    readsFirst_maybe_none (fails_word (hword (by decide))).bind
  have hcr : (Scan.maybe (.word "\r")).text.ReadsFirst (pre ++ line ++ ['\r']) [] post [] :=
    (readsFirst_maybe_none (fails_word (hword (by decide)))).text
  have hall : expressionBinding.ReadsFirst pre (line ++ ([] ++ (['\r'] ++ ([] ++ ([] ++ ([] ++ ([] ++ ([] ++ [])))))))) post
      ⟨h, (Cursor.between (pre ++ line) (['\r'] ++ post)).upTo (Cursor.between (pre ++ line ++ ['\r']) post), false,
        []⟩ := by
    refine (readsFirst_head hpre hu (by simpa using by decide)).bind (readsFirst_here.bind ?_)
    refine ReadsFirst.bind (by simpa using hbody) (readsFirst_here.bind ?_)
    simp only [List.append_nil]
    exact ReadsFirst.bind (u := []) (readsFirst_many (by simp) hindent) (ReadsFirst.bind (u := []) (by simpa using hsemi)
      (ReadsFirst.bind (u := []) (by simpa using hcr) (ReadsFirst.bind (u := []) (readsFirst_lineEnd hpost)
        readsFirst_pure)))
  rw [Cursor.upTo_between] at hall
  simpa using hall

theorem ends_carriageReturn_iff {isTerminated : Bool} {t : Text} :
    Ends isTerminated "\r" t ↔ ∃ t', t = t' ++ ['\r'] ∧ Ends isTerminated [] t' := by
  constructor
  · rintro ⟨g, semi, rfl, hg, hsemi, -⟩
    exact ⟨g ++ (semi ++ []), by simp, g, semi, rfl, hg, hsemi, .inr rfl⟩
  · rintro ⟨_, rfl, g, semi, rfl, hg, hsemi, -⟩
    exact ⟨g, semi, by simp, hg, hsemi, .inl rfl⟩

/-- A carriage return may be left to the end of the line. -/
theorem reads_carriageReturn_iff {body : Text} {isTerminated : Bool} (hpre : pre.AtLineStart) (hpre' : pre'.AtLineStart)
    (hpost : post.AtLineEnd) (hpost' : post'.AtLineEnd) :
    expressionBinding.Reads pre (line ++ ['\r']) post ⟨h, body, isTerminated, "\r"⟩ ↔
      expressionBinding.Reads pre' line post' ⟨h, body, isTerminated, []⟩ := by
  rw [reads_expressionBinding, reads_expressionBinding]
  constructor
  · rintro ⟨u, t, heq, -, hu, hne, hbody, ht, -⟩
    obtain ⟨t, rfl, ht'⟩ := ends_carriageReturn_iff.1 ht
    have hline : line = u ++ (body ++ t) := by simpa [← List.append_assoc] using heq
    exact ⟨u, t, hline, hpre', hu, hne, hbody, ht', hpost'⟩
  · rintro ⟨u, t, rfl, -, hu, hne, hbody, ht, -⟩
    exact ⟨u, t ++ ['\r'], by simp, hpre, hu, hne, hbody, ends_carriageReturn_iff.2 ⟨t, rfl, ht⟩, hpost⟩

theorem carriageReturn_of_notMem (hr : '\r' ∉ line) (hb : expressionBinding.Reads pre line post b) :
    b.carriageReturn = [] := by
  obtain ⟨u, t, rfl, -, -, -, -, ⟨g, semi, rfl, -, -, hcr⟩, -⟩ := reads_expressionBinding.1 hb
  refine hcr.resolve_left fun hcr => hr ?_
  simp [hcr]

theorem notMem_of_ends {isTerminated : Bool} {t : Text} (ht : Ends isTerminated [] t) : '\r' ∉ t := by
  obtain ⟨g, semi, rfl, hg, hsemi, -⟩ := ht
  have hindent {g : Text} (hg : AllIndent g) : '\r' ∉ g := fun hc => absurd (hg _ hc) (by decide)
  rcases hsemi with ⟨-, g', rfl, hg'⟩ | ⟨-, rfl⟩
  · simp [hindent hg, hindent hg']
  · simp [hindent hg]

/-- It is read as a part of the body only if nothing else stands there. -/
theorem carriageReturn_of_readsFirst (hu : ∀ h, ¬ Binds h line)
    (hb : expressionBinding.ReadsFirst pre (line ++ ['\r']) post b) : b.carriageReturn = "\r" := by
  obtain ⟨u, _, h, hline, hhead, hb⟩ := hb.exists_bind
  obtain ⟨-, hbinds⟩ := reads_head.1 hhead
  obtain ⟨_, _, start, rfl, hstart, hb⟩ := hb.exists_bind
  obtain ⟨rfl, -⟩ := reads_here.1 hstart
  obtain ⟨body, t, rfl, hne, -, hb, hshort⟩ := hb.few1_bind
  have hread := hb.reads
  simp only [reads_bind, reads_here, reads_ending, reads_carriageReturn, reads_lineEnd, reads_pure,
    ↓reads_indent_bind] at hread
  obtain ⟨_, _, _, rfl, ⟨rfl, -⟩, g, _, rfl, hg, semi, _, o, rfl, hsemi, cr, _, _, rfl, ⟨rfl, hcr⟩, _, _, _, rfl,
    ⟨rfl, hend⟩, rfl, rfl⟩ := hread
  refine hcr.resolve_right ?_
  rintro rfl
  have hnotMem : '\r' ∉ g ++ semi := by
    simpa using notMem_of_ends ⟨g, semi, rfl, hg, hsemi, .inr rfl⟩
  simp only [List.nil_append, List.append_nil] at hline
  obtain ⟨x, hx, rfl⟩ := eq_append_of_concat_eq hline (by simp [hne])
  have hnil : g ++ semi = [] := by
    by_contra hgs
    have hlast := congrArg List.getLast? hx
    rw [List.getLast?_append_of_ne_nil _ hgs, List.getLast?_concat] at hlast
    exact hnotMem (List.mem_of_getLast? hlast)
  rw [hnil, List.append_nil] at hx
  subst hx
  have hx : x ≠ [] := by
    rintro rfl
    exact hu h (by simpa using hbinds)
  -- the body without the carriage return would have been preferred
  refine absurd ?_ (fails_iff.1 (hshort x ['\r'] rfl hx (by simp)) ['\r'] post
    ⟨h, start.upTo (Cursor.between (pre ++ u ++ [] ++ x) (['\r'] ++ post)), false, ['\r']⟩ (by simp [hnil]))
  simp only [reads_bind, reads_here, reads_ending, reads_carriageReturn, reads_lineEnd, reads_pure,
    ↓reads_indent_bind]
  exact ⟨[], _, _, rfl, ⟨rfl, rfl⟩, [], _, rfl, allIndent_nil, [], _, none, rfl, .inr ⟨rfl, rfl⟩, ['\r'], [], _,
    rfl, ⟨rfl, .inl rfl⟩, [], [], (), rfl, ⟨rfl, hend⟩, rfl, by simp⟩

/-! ### What becomes of a line -/

theorem contains_crlf (hline : LineAt code i pre line post) :
    (topLevelStarts (crlf code)).contains (crlf pre).length = (topLevelStarts code).contains pre.length := by
  rw [hline.eq, crlf_append, contains_topLevelStarts hline.start.crlf, contains_topLevelStarts hline.start,
    after_start_crlf]

/-- Nothing but its own end is different for the last line. -/
theorem exists_onLine_last (hline : '\n' ∉ line) (hpre : pre.AtLineStart) (hpre' : pre'.AtLineStart)
    (htop : starts'.contains pre'.length = starts.contains pre.length) :
    ∃ out, (declaring starts).OnLine pre line [] out ∧ (declaring starts').OnLine pre' line [] out := by
  have hend : AtLineEnd [] := by simp [AtLineEnd]
  let l : SameLine := ⟨line, pre, pre', [], [], hline, hpre, hpre', hend, hend⟩
  have hform : Form pre line [] := form hend hline
  rcases hform with ⟨h, u, rest, hu, rfl⟩ | ⟨b, hblock, hb⟩ | ⟨hblock, hfails⟩
  · have heq : blockLine starts' pre' h u rest [] = blockLine starts pre h u rest [] := by
      rw [blockLine, blockLine, htop]
    exact ⟨_, declaring_block hpre hu, heq ▸ declaring_block hpre' hu⟩
  · have hb' : expressionBinding.ReadsFirst pre' line [] b := moves_expressionBinding.readsFirst (l := l) hb
    have heq : expressionLine starts' pre' line [] b = expressionLine starts pre line [] b := by
      rw [expressionLine, expressionLine, htop]
    exact ⟨_, declaring_expression hblock hend hb, heq ▸ declaring_expression hblock hend hb'⟩
  · have hfails' : expressionBinding.Fails pre' (line ++ []) := moves_expressionBinding.fails (l := l) hfails
    exact ⟨line, declaring_other hblock hend hfails, declaring_other hblock hend hfails'⟩

/-- A line that ends at its arrow stays the same if it does not start at the top level or if the value goes on. -/
theorem onLine_of_dangling (hline : LineAt code i pre line post) (hr : '\r' ∉ line) (hu : Binds h line)
    (hgo : starts.contains pre.length = true → continues post = true) : (declaring starts).OnLine pre line post line := by
  have hdangling : expressionBinding.Reads pre (line ++ ['\r']) post ⟨h, ['\r'], false, []⟩ :=
    (readsFirst_of_dangling hline.start hu hline.stop).reads
  have hform : Form pre line post := form hline.stop hline.notMem
  rcases hform with ⟨h', u, rest, hu', rfl⟩ | ⟨b, hblock, hb⟩ | ⟨hblock, hfails⟩
  · exact absurd (by simp) (blockless_of_reads hdangling h' u (rest ++ ['\r']) hu')
  · obtain ⟨h', body, isTerminated, cr⟩ := b
    obtain rfl : cr = [] := carriageReturn_of_notMem hr hb.reads
    obtain ⟨-, -, hterm, -⟩ := reads_unique hdangling
      ((reads_carriageReturn_iff hline.start hline.start hline.stop hline.stop).2 hb.reads)
    have hout : (declaring starts).OnLine pre line post _ := declaring_expression hblock hline.stop hb
    have hkeep : (starts.contains pre.length && (⟨h', body, isTerminated, []⟩ : ExpressionBinding).isComplete post) = false := by
      rw [Bool.and_eq_false_iff]
      refine or_iff_not_imp_left.2 fun htop => ?_
      rw [Bool.eq_false_iff, Ne, isComplete_iff, not_not, Notices, ← hterm]
      simp [hgo (by simpa using htop)]
    rwa [expressionLine, hkeep] at hout
  · exact declaring_other hblock hline.stop hfails

theorem isComplete_carriageReturn : (⟨h, ['\r'], false, []⟩ : ExpressionBinding).isComplete post = !continues post := by
  have htrim : trim ['\r'] = [] := by decide
  simp [ExpressionBinding.isComplete, htrim, mentions, endsOpen, before?, after?, hasOuterComma, outerCommaFrom]

theorem exists_onLine_of_dangling (hline : LineAt code i pre line ('\n' :: post)) (hr : '\r' ∉ line) (hu : Binds h line) :
    ∃ out out', (declaring (topLevelStarts code)).OnLine pre line ('\n' :: post) out ∧
      (declaring (topLevelStarts (crlf code))).OnLine (crlf pre) (line ++ ['\r']) ('\n' :: crlf post) out' ∧
      (out' = out ++ ['\r'] ↔ (pre.length ∈ topLevelStarts code → continues post = true)) := by
  have hfirst := readsFirst_of_dangling hline.crlf.start hu hline.crlf.stop
  have hout' : (declaring (topLevelStarts (crlf code))).OnLine (crlf pre) (line ++ ['\r']) ('\n' :: crlf post) _ :=
    declaring_expression (blockless_of_reads hfirst.reads) hline.crlf.stop hfirst
  rw [expressionLine, contains_crlf hline, isComplete_carriageReturn, continues_newline, continues_crlf] at hout'
  by_cases hgo : pre.length ∈ topLevelStarts code → continues post = true
  · have hout : (declaring (topLevelStarts code)).OnLine pre line ('\n' :: post) line := by
      refine onLine_of_dangling hline hr hu fun htop => ?_
      rw [continues_newline]
      exact hgo (List.contains_iff_mem.1 htop)
    have hkeep : ((topLevelStarts code).contains pre.length && !continues post) = false := by
      simpa [imp_iff_not_or] using hgo
    rw [hkeep] at hout'
    exact ⟨line, _, hout, hout', by simpa using hgo⟩
  · obtain ⟨out, hout⟩ : ∃ out, (declaring (topLevelStarts code)).OnLine pre line ('\n' :: post) out :=
      (linewise_declaring _).exists_onLine hline.stop
    have hdeclared : ((topLevelStarts code).contains pre.length && !continues post) = true := by
      simpa using hgo
    rw [hdeclared] at hout'
    refine ⟨out, _, hout, hout', iff_of_false (fun heq => ?_) hgo⟩
    have htrim : trim ['\r'] = [] := by decide
    have hlast := congrArg List.getLast? heq
    simp [ExpressionBinding.declaration_eq, htrim] at hlast

theorem blockLine_crlf {rest : Text} (hline : LineAt code i pre (u ++ '\x7b' :: rest) ('\n' :: post)) :
    blockLine (topLevelStarts (crlf code)) (crlf pre) h u (rest ++ ['\r']) ('\n' :: crlf post) =
      blockLine (topLevelStarts code) pre h u rest ('\n' :: post) ++ ['\r'] := by
  have hrest : '\n' ∉ rest := fun hc => hline.notMem (by simp [hc])
  have hgoes : (afterBlock? ('\x7b' :: (rest ++ ['\r'] ++ '\n' :: crlf post))).any continues =
      (afterBlock? ('\x7b' :: (rest ++ '\n' :: post))).any continues := by
    rw [← afterBlock?_crlf (rest ++ '\n' :: post), crlf_append, crlf_of_notMem hrest, crlf_newline, List.append_assoc,
      List.singleton_append]
  rw [blockLine, blockLine, contains_crlf hline, hgoes, List.append_assoc]

theorem expressionLine_crlf {body body' : Text} {isTerminated : Bool}
    (hline : LineAt code i pre line ('\n' :: post)) (htrim : trim body = trim body') :
    expressionLine (topLevelStarts (crlf code)) (crlf pre) (line ++ ['\r']) ('\n' :: crlf post)
        ⟨h, body, isTerminated, "\r"⟩ =
      expressionLine (topLevelStarts code) pre line ('\n' :: post) ⟨h, body', isTerminated, []⟩ ++ ['\r'] := by
  have hcomplete : (⟨h, body, isTerminated, "\r"⟩ : ExpressionBinding).isComplete ('\n' :: crlf post) =
      (⟨h, body', isTerminated, []⟩ : ExpressionBinding).isComplete ('\n' :: post) := by
    rw [ExpressionBinding.isComplete, ExpressionBinding.isComplete, continues_newline, continues_newline, continues_crlf]
    simp only [htrim]
  have hdeclaration : (⟨h, body, isTerminated, "\r"⟩ : ExpressionBinding).declaration =
      (⟨h, body', isTerminated, []⟩ : ExpressionBinding).declaration ++ ['\r'] := by
    simp [ExpressionBinding.declaration_eq, htrim]
  rw [expressionLine, expressionLine, contains_crlf hline, hcomplete, hdeclaration]
  split_ifs <;> rfl

/-- A line that does not end at its arrow becomes what it became, with the carriage return. -/
theorem exists_onLine_of_not_dangling (hline : LineAt code i pre line ('\n' :: post)) (hr : '\r' ∉ line)
    (hnot : ∀ h, ¬ Binds h line) : ∃ out, (declaring (topLevelStarts code)).OnLine pre line ('\n' :: post) out ∧
      (declaring (topLevelStarts (crlf code))).OnLine (crlf pre) (line ++ ['\r']) ('\n' :: crlf post) (out ++ ['\r']) := by
  have hreads {h : Head} {body : Text} {isTerminated : Bool} :
      expressionBinding.Reads (crlf pre) (line ++ ['\r']) ('\n' :: crlf post) ⟨h, body, isTerminated, "\r"⟩ ↔
        expressionBinding.Reads pre line ('\n' :: post) ⟨h, body, isTerminated, []⟩ :=
    reads_carriageReturn_iff hline.crlf.start hline.start hline.crlf.stop hline.stop
  have hform : Form pre line ('\n' :: post) := form hline.stop hline.notMem
  have hform' : Form (crlf pre) (line ++ ['\r']) ('\n' :: crlf post) := form hline.crlf.stop hline.crlf.notMem
  -- With the carriage return the line has the same form: it is not the body of a line that ends at its arrow.
  rcases hform' with ⟨h, u, rest, hu, hsplit⟩ | ⟨b, hblock, hb⟩ | ⟨hblock, hfails⟩
  · obtain ⟨x, hx, rfl⟩ := eq_append_of_concat_eq hsplit (by simp)
    obtain ⟨rest, rfl, rfl⟩ : ∃ y, x = '\x7b' :: y ∧ rest = y ++ ['\r'] := by
      cases x with
      | nil => simp at hx
      | cons c y =>
        obtain ⟨rfl, rfl⟩ := List.cons.inj hx
        exact ⟨y, rfl, rfl⟩
    have hout' : (declaring (topLevelStarts (crlf code))).OnLine (crlf pre) (u ++ '\x7b' :: (rest ++ ['\r']))
      ('\n' :: crlf post) _ := declaring_block hline.crlf.start hu
    rw [blockLine_crlf hline] at hout'
    exact ⟨_, declaring_block hline.start hu, by simpa using hout'⟩
  · obtain ⟨h, body, isTerminated, cr⟩ := b
    obtain rfl : cr = "\r" := carriageReturn_of_readsFirst hnot hb
    have hread := hreads.1 hb.reads
    have hout' : (declaring (topLevelStarts (crlf code))).OnLine (crlf pre) (line ++ ['\r']) ('\n' :: crlf post) _ :=
      declaring_expression hblock hline.crlf.stop hb
    rcases hform with ⟨h', u, rest, hu, rfl⟩ | ⟨b', hblock', hb'⟩ | ⟨-, hfails⟩
    · exact absurd rfl (blockless_of_reads hread h' u rest hu)
    · obtain ⟨h', body', isTerminated', cr'⟩ := b'
      obtain rfl : cr' = [] := carriageReturn_of_notMem hr hb'.reads
      obtain ⟨rfl, htrim, rfl, -⟩ := reads_unique hread hb'.reads
      rw [expressionLine_crlf hline htrim] at hout'
      exact ⟨_, declaring_expression hblock' hline.stop hb', hout'⟩
    · exact absurd hread (fails_iff.1 hfails line ('\n' :: post) _ rfl)
  · have hout' : (declaring (topLevelStarts (crlf code))).OnLine (crlf pre) (line ++ ['\r']) ('\n' :: crlf post) _ :=
      declaring_other hblock hline.crlf.stop hfails
    rcases hform with ⟨h, u, rest, hu, rfl⟩ | ⟨b, -, hb⟩ | ⟨hblock', hfails'⟩
    · exact absurd (by simp) (hblock h u (rest ++ ['\r']) hu)
    · obtain ⟨h, body, isTerminated, cr⟩ := b
      obtain rfl : cr = [] := carriageReturn_of_notMem hr hb.reads
      exact absurd (hreads.2 hb.reads) (fails_iff.1 hfails _ _ _ rfl)
    · exact ⟨line, declaring_other hblock' hline.stop hfails', hout'⟩

/-- With the other line endings the pass puts the same, with the other line endings, unless a line ends at its arrow at
the top level and nothing behind it goes on with the value. -/
theorem declare_crlf_iff (hr : '\r' ∉ code) : declare (crlf code) = crlf (declare code) ↔
    ∀ i pre line post h, LineAt code i pre line ('\n' :: post) → Binds h line → pre.length ∈ topLevelStarts code →
      continues post = true := by
  have hm := linewise_declaring (topLevelStarts code)
  have hcrlf {i : Nat} {pre line post out : Text} (hline : LineAt code i pre line ('\n' :: post))
      (hout : (declaring (topLevelStarts code)).OnLine pre line ('\n' :: post) out) :
      (lines (crlf (declare code)))[i]? = some (out ++ ['\r']) := by
    obtain ⟨q, hq, -⟩ := hm.lineAt_edit (f := fun n _ => n) (a := 0) (by simp) hline hout
    rw [editAt_newline hm] at hq
    rw [declare_eq_edit]
    exact getElem?_lines hq.crlf
  have hnotMem {i : Nat} {pre line post : Text} (hline : LineAt code i pre line post) : '\r' ∉ line := fun hc =>
    hr (by simp [hline.eq, hc])
  rw [eq_iff_getElem?_lines]
  constructor
  · intro hall i pre line post h hline hu htop
    obtain ⟨out, out', hout, hout', hiff⟩ := exists_onLine_of_dangling hline (hnotMem hline) hu
    refine hiff.1 ?_ htop
    have heq := hall i
    rw [getElem?_lines_declare hline.crlf hout', hcrlf hline hout] at heq
    exact Option.some.inj heq
  · intro hall i
    cases hi : (lines code)[i]? with
    | none =>
      have hlength := List.getElem?_eq_none_iff.1 hi
      rw [List.getElem?_eq_none, List.getElem?_eq_none]
      · rwa [length_lines_crlf, length_lines_declare]
      · rwa [length_lines_declare, length_lines_crlf]
    | some line =>
      obtain ⟨pre, post, hline⟩ := exists_lineAt hi
      cases post with
      | nil =>
        -- No line feed ends the last line, so it is the same in both texts.
        obtain ⟨out, hout, hout'⟩ := exists_onLine_last hline.notMem hline.start hline.crlf_last.start (contains_crlf hline)
        obtain ⟨q, hq, -⟩ := hm.lineAt_edit (f := fun n _ => n) (a := 0) (by simp) hline hout
        rw [getElem?_lines_declare hline.crlf_last hout', declare_eq_edit]
        exact (getElem?_lines hq.crlf_last).symm
      | cons c post =>
        obtain rfl := hline.stop c rfl
        by_cases hu : ∃ h, Binds h line
        · obtain ⟨h, hu⟩ := hu
          obtain ⟨out, out', hout, hout', hiff⟩ := exists_onLine_of_dangling hline (hnotMem hline) hu
          rw [getElem?_lines_declare hline.crlf hout', hcrlf hline hout,
            hiff.2 fun htop => hall i pre line post h hline hu htop]
        · obtain ⟨out, hout, hout'⟩ := exists_onLine_of_not_dangling hline (hnotMem hline) (not_exists.1 hu)
          rw [getElem?_lines_declare hline.crlf hout', hcrlf hline hout]

theorem declare_crlf_iff_identity :
    '\r' ∉ ("const id = x => x;\n" : Text) ∧ declare (crlf "const id = x => x;\n") = crlf (declare "const id = x => x;\n") := by
  have hlines : lines "const id = x => x;\n" = [("const id = x => x;" : Text), []] := by
    simp only [String.reduceToList]
    decide
  refine ⟨by simp, (declare_crlf_iff (by simp)).2 ?_⟩
  intro i pre line post h hline hu
  -- neither line ends with an arrow
  have hmem : line ∈ lines "const id = x => x;\n" := List.mem_of_getElem? (getElem?_lines hline)
  rw [hlines, List.mem_cons, List.mem_singleton] at hmem
  obtain ⟨c, hc, hlast⟩ := getLast?_of_binds hu
  rcases hmem with rfl | rfl
  · obtain rfl : ';' = c := by simpa using hc
    exact absurd hlast (by decide)
  · simp at hc

/-- A function whose body starts on the next line stays as it is, but with the other line endings it loses the body. -/
theorem declare_crlf_dangling : '\r' ∉ ("const f = (x) =>\n  x * 2;\n" : Text) ∧
    crlf (declare "const f = (x) =>\n  x * 2;\n") = "const f = (x) =>\r\n  x * 2;\r\n" ∧
    declare (crlf "const f = (x) =>\n  x * 2;\n") = "function f(x) \x7b return ; \x7d\n  x * 2;\r\n" := by
  rw [declare_eq_edit, declare_eq_edit]
  simp only [String.reduceToList]
  refine ⟨by decide, by decide +kernel, by decide +kernel⟩

end Arrow

end AppsScript
