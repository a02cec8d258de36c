import AppsScript.Proofs.LineEndings
import AppsScript.Proofs.RemovalRounds
import AppsScript.Proofs.WhiteSpace

/-!
# Module syntax between carriage returns

Every part of the forms reads in a text with carriage returns what it reads in the text without them (`Agrees`). Only
a repetition that takes a carriage return as any other character may stop between it and its line feed, and what
follows such a repetition does not start with a line feed (`ReadsSolid`). So a removal finds the same statements
(`foldl_removeForm_crlf`). The merging of blank lines does not: it looks for line feeds with spaces and tabs between
them, of which there are none (`remove_crlf`).
-/

namespace AppsScript

namespace Text

variable {pre t u x y : Text}

theorem filter_crlf (ht : '\r' ∉ t) : (crlf t).filter (· ≠ '\r') = t := by
  induction t with
  | nil => rfl
  | cons c t ih =>
    rw [List.mem_cons, not_or] at ht
    have hc : ('\r' == c) = false := by simpa using ht.1
    rw [crlf, List.flatMap_cons, List.filter_append, ← crlf, ih ht.2]
    split_ifs with h
    · simp [h]
    · simp [Ne.symm ht.1]

theorem crlf_inj (ht : '\r' ∉ t) (hu : '\r' ∉ u) : crlf t = crlf u ↔ t = u := by
  refine ⟨fun h => ?_, congrArg crlf⟩
  rw [← filter_crlf ht, h, filter_crlf hu]

theorem crlf_cons {c : Char} (hc : c ≠ '\n') (t : Text) : crlf (c :: t) = c :: crlf t := by
  rw [crlf, List.flatMap_cons, if_neg hc]
  rfl

/-- A line feed follows every carriage return. -/
theorem exists_of_crlf_eq (ht : '\r' ∉ t) (h : crlf t = x ++ '\r' :: y) : ∃ z, y = '\n' :: z := by
  induction t generalizing x with
  | nil => simp at h
  | cons c t ih =>
    rw [List.mem_cons, not_or] at ht
    by_cases hc : c = '\n'
    · rw [hc, crlf_newline] at h
      rcases x with _ | ⟨d, _ | ⟨e, x⟩⟩
      · exact ⟨crlf t, (List.cons.inj h).2.symm⟩
      · simp at h
      · exact ih ht.2 (List.cons.inj (List.cons.inj h).2).2
    · rw [crlf_cons hc] at h
      rcases x with _ | ⟨d, x⟩
      · exact absurd (List.cons.inj h).1.symm ht.1
      · exact ih ht.2 (List.cons.inj h).2

/-- A carriage return precedes every line feed. -/
theorem getLast?_of_crlf_eq (h : crlf t = x ++ '\n' :: y) : x.getLast? = some '\r' := by
  induction t generalizing x with
  | nil => simp at h
  | cons c t ih =>
    by_cases hc : c = '\n'
    · rw [hc, crlf_newline] at h
      rcases x with _ | ⟨d, _ | ⟨e, x⟩⟩
      · simp at h
      · rw [← (List.cons.inj h).1]
        rfl
      · have hlast := ih (List.cons.inj (List.cons.inj h).2).2
        rw [List.getLast?_cons_cons, List.getLast?_cons, hlast]
        rfl
    · rw [crlf_cons hc] at h
      rcases x with _ | ⟨d, x⟩
      · exact absurd (List.cons.inj h).1 hc
      · have hlast := ih (List.cons.inj h).2
        rw [List.getLast?_cons, hlast]
        rfl

theorem getLast?_crlf (t : Text) : (crlf t).getLast? = t.getLast? := by
  rcases List.eq_nil_or_concat t with rfl | ⟨q, c, rfl⟩
  · rfl
  · rw [List.concat_eq_append, crlf_append]
    by_cases hc : c = '\n'
    · simp [hc]
    · simp [crlf_cons hc]

theorem crlf_eq_nil_iff : crlf t = [] ↔ t = [] := by
  rw [← List.getLast?_eq_none_iff, getLast?_crlf, List.getLast?_eq_none_iff]

end Text

namespace Cursor

/-- The place lies behind a carriage return. -/
def isTorn (c : Cursor) : Bool := c.before.head? == some '\r'

/-- The place in the text with carriage returns. -/
def crlf (c : Cursor) : Cursor := between (Text.crlf c.before.reverse) (Text.crlf c.after)

@[simp] theorem crlf_between (pre t : Text) : (between pre t).crlf = between (Text.crlf pre) (Text.crlf t) := by
  simp [crlf]

theorem isTorn_between (pre t : Text) : (between pre t).isTorn = (pre.getLast? == some '\r') := by
  simp [isTorn]

theorem isTorn_crlf {pre : Text} (hpre : '\r' ∉ pre) (t : Text) : (between (Text.crlf pre) t).isTorn = false := by
  rw [isTorn_between, Text.getLast?_crlf, beq_eq_false_iff_ne]
  exact fun h => hpre (List.mem_of_getLast? h)

end Cursor

namespace Scan

open Cursor Text

variable {α β : Type} {m n k l : Scan α} {f f' : α → Scan β} {g : α → α} {h : β → β} {torn : Bool} {pre t : Text}

/-- With carriage returns in front of the line feeds `m` has the ways that `n` has without them, with results as `g`
says. If `torn`, then `m` may have others that end between a carriage return and its line feed. -/
structure Agrees (torn : Bool) (g : α → α) (m n : Scan α) : Prop where
  run_crlf : ∀ {pre t : Text}, '\r' ∉ pre → '\r' ∉ t →
    ((m.run (between (crlf pre) (crlf t))).filter fun r => !torn || !r.2.isTorn) =
      (n.run (between pre t)).map fun r => (g r.1, r.2.crlf)

theorem notMem_of_mem_run {r : α × Cursor} (hpre : '\r' ∉ pre) (ht : '\r' ∉ t) (hr : r ∈ m.run (between pre t)) :
    ∃ u v, t = u ++ v ∧ r.2 = between (pre ++ u) v ∧ '\r' ∉ pre ++ u ∧ '\r' ∉ v := by
  obtain ⟨u, v, rfl, hd⟩ := mem_run_between hr
  rw [List.mem_append, not_or] at ht
  exact ⟨u, v, rfl, hd, by simp [hpre, ht.1], ht.2⟩

theorem exists_of_isTorn {r : α × Cursor} (hpre : '\r' ∉ pre) (ht : '\r' ∉ t)
    (hr : r ∈ m.run (between (crlf pre) (crlf t))) (htorn : r.2.isTorn = true) :
    ∃ x y, r.2 = between (x ++ ['\r']) ('\n' :: y) := by
  obtain ⟨u, v, hu, hd⟩ := mem_run_between hr
  rw [hd, isTorn_between, beq_iff_eq, List.getLast?_eq_some_iff] at htorn
  obtain ⟨x, hx⟩ := htorn
  have hsplit : crlf (pre ++ t) = x ++ '\r' :: v := by rw [crlf_append, hu, ← List.append_assoc, hx]; simp
  obtain ⟨y, rfl⟩ := exists_of_crlf_eq (by simp [hpre, ht]) hsplit
  exact ⟨x, y, by rw [hd, hx]⟩

theorem flatMap_eq_filter {p : α → Bool} {q : α → List β} {as : List α} (h : ∀ a ∈ as, p a = false → q a = []) :
    as.flatMap q = (as.filter p).flatMap q := by
  induction as with
  | nil => rfl
  | cons a as ih =>
    have ih := ih fun b hb => h b (List.mem_cons_of_mem _ hb)
    by_cases ha : p a
    · rw [List.filter_cons_of_pos ha, List.flatMap_cons, List.flatMap_cons, ih]
    · rw [List.filter_cons_of_neg ha, List.flatMap_cons, h a (by simp) (by simpa using ha), List.nil_append, ih]

/-! ### Parts that agree -/

theorem Agrees.run_eq (hm : Agrees false g m n) (hpre : '\r' ∉ pre) (ht : '\r' ∉ t) :
    m.run (between (crlf pre) (crlf t)) = (n.run (between pre t)).map fun r => (g r.1, r.2.crlf) := by
  simpa using hm.run_crlf hpre ht

theorem Agrees.isTorn_eq_false (hm : Agrees false g m n) {r : α × Cursor} (hpre : '\r' ∉ pre) (ht : '\r' ∉ t)
    (hr : r ∈ m.run (between (crlf pre) (crlf t))) : r.2.isTorn = false := by
  rw [hm.run_eq hpre ht] at hr
  obtain ⟨q, hq, rfl⟩ := List.mem_map.1 hr
  obtain ⟨u, v, -, hd, hu, -⟩ := notMem_of_mem_run hpre ht hq
  rw [hd, crlf_between, isTorn_crlf hu]

theorem Agrees.weaken (hm : Agrees false g m n) : Agrees torn g m n := by
  refine ⟨fun {pre t} hpre ht => ?_⟩
  rw [← hm.run_eq hpre ht, List.filter_eq_self]
  intro r hr
  simp [hm.isTorn_eq_false hpre ht hr]

theorem agrees_pure {a a' : α} (ha : a' = g a) : Agrees torn g (pure a') (pure a) := by
  refine .weaken ⟨fun {pre t} _ _ => ?_⟩
  show [(a', between (crlf pre) (crlf t))].filter _ = [(a, between pre t)].map _
  simp [ha]

/-- A part may end between a carriage return and its line feed if from there the rest cannot be read. -/
theorem Agrees.bind_of_isTorn (hm : Agrees true g m n) (hf : ∀ a, Agrees torn h (f (g a)) (f' a))
    (hstop : ∀ {pre t r}, '\r' ∉ pre → '\r' ∉ t → r ∈ m.run (between (crlf pre) (crlf t)) → r.2.isTorn = true →
      (f r.1).run r.2 = []) : Agrees torn h (m >>= f) (n >>= f') := by
  refine ⟨fun {pre t} hpre ht => ?_⟩
  have hrun := hm.run_crlf hpre ht
  simp only [Bool.not_true, Bool.false_or] at hrun
  have hskip : ((m >>= f).run (between (crlf pre) (crlf t))).filter (fun r => !torn || !r.2.isTorn) =
      ((m.run (between (crlf pre) (crlf t))).filter fun r => !r.2.isTorn).flatMap fun r =>
        ((f r.1).run r.2).filter fun r => !torn || !r.2.isTorn := by
    rw [run_bind, List.filter_flatMap]
    refine flatMap_eq_filter fun r hr hkeep => ?_
    rw [hstop hpre ht hr (by simpa using hkeep), List.filter_nil]
  rw [hskip, hrun, run_bind, List.flatMap_map, List.map_flatMap]
  refine List.flatMap_congr fun r hr => ?_
  obtain ⟨u, v, -, hd, hu, hv⟩ := notMem_of_mem_run hpre ht hr
  rw [hd, crlf_between]
  exact (hf r.1).run_crlf hu hv

theorem Agrees.bind (hm : Agrees false g m n) (hf : ∀ a, Agrees torn h (f (g a)) (f' a)) :
    Agrees torn h (m >>= f) (n >>= f') := by
  refine hm.weaken.bind_of_isTorn hf fun hpre ht hr htorn => ?_
  rw [hm.isTorn_eq_false hpre ht hr] at htorn
  exact absurd htorn (by simp)

theorem Agrees.bind_solid (hm : Agrees true g m n) (hf : ∀ a, Agrees torn h (f (g a)) (f' a))
    (hsolid : ∀ a, ReadsSolid (f a)) : Agrees torn h (m >>= f) (n >>= f') := by
  refine hm.bind_of_isTorn hf fun {pre t r} hpre ht hr htorn => ?_
  obtain ⟨x, y, hd⟩ := exists_of_isTorn hpre ht hr htorn
  rw [hd]
  exact (hsolid r.1).fails (by decide)

theorem Agrees.or (hm : Agrees torn g m n) (hk : Agrees torn g k l) : Agrees torn g (m <|> k) (n <|> l) := by
  refine ⟨fun {pre t} hpre ht => ?_⟩
  show (m.run _ ++ k.run _).filter _ = (n.run _ ++ l.run _).map _
  rw [List.filter_append, List.map_append, hm.run_crlf hpre ht, hk.run_crlf hpre ht]

theorem Agrees.map {γ : Type} {s d : α → γ} {q : γ → γ} (hm : Agrees torn g m n) (hs : ∀ a, d (g a) = q (s a)) :
    Agrees torn q (d <$> m) (s <$> n) := by
  refine ⟨fun {pre t} hpre ht => ?_⟩
  rw [run_map, run_map, List.filter_map]
  show ((m.run _).filter fun r => !torn || !r.2.isTorn).map _ = _
  rw [hm.run_crlf hpre ht, List.map_map, List.map_map]
  exact List.map_congr_left fun r _ => by simp [hs]

theorem Agrees.bind_pure {a : β} (hm : Agrees torn g m n) :
    Agrees torn h (m >>= fun _ => Pure.pure (h a)) (n >>= fun _ => Pure.pure a) :=
  hm.map (s := fun _ => a) (d := fun _ => h a) fun _ => rfl

theorem Agrees.maybe (hm : Agrees torn g m n) : Agrees torn (Option.map g) m.maybe n.maybe :=
  Agrees.or (hm.map fun _ => rfl) (agrees_pure (g := Option.map g) rfl)

theorem Agrees.text (hm : Agrees torn g m n) : Agrees torn Text.crlf m.text n.text := by
  refine ⟨fun {pre t} hpre ht => ?_⟩
  show ((m.run _).map fun r => (_, r.2)).filter _ = ((n.run _).map fun r => (_, r.2)).map _
  rw [List.filter_map]
  show ((m.run _).filter fun r => !torn || !r.2.isTorn).map _ = _
  rw [hm.run_crlf hpre ht, List.map_map, List.map_map]
  refine List.map_congr_left fun r hr => ?_
  obtain ⟨u, v, rfl, hd, -⟩ := notMem_of_mem_run hpre ht hr
  simp only [Function.comp_apply, hd, crlf_between, upTo_between, crlf_append]

theorem agrees_holds {q : Cursor → Bool}
    (hq : ∀ {pre t}, '\r' ∉ pre → '\r' ∉ t → q (between (crlf pre) (crlf t)) = q (between pre t)) :
    Agrees torn id (holds q) (holds q) := by
  refine .weaken ⟨fun {pre t} hpre ht => ?_⟩
  show (if q _ then _ else []).filter _ = (if q _ then _ else []).map _
  rw [hq hpre ht]
  split_ifs <;> simp

theorem agrees_lineStart : Agrees torn id lineStart lineStart := by
  refine agrees_holds fun {pre t} _ _ => ?_
  have hlast := getLast?_crlf pre
  rw [← List.head?_reverse, ← List.head?_reverse] at hlast
  rw [before_between, before_between]
  cases h : (crlf pre).reverse <;> cases h' : pre.reverse <;> simp_all

theorem head?_crlf_any {p : Char → Bool} (hr : p '\r' = p '\n') (t : Text) : (crlf t).head?.any p = t.head?.any p := by
  cases t with
  | nil => rfl
  | cons c t =>
    by_cases hc : c = '\n'
    · simp [hc, hr]
    · simp [crlf_cons hc]

theorem agrees_wordEdge : Agrees torn id wordEdge wordEdge := by
  refine agrees_holds fun {pre t} _ _ => ?_
  rw [before_between, before_between, after_between, after_between, List.head?_reverse, List.head?_reverse,
    getLast?_crlf, head?_crlf_any (by decide)]

theorem after?_crlf {w : Text} (hw : ∀ c ∈ w, c ≠ '\r' ∧ c ≠ '\n') (t : Text) :
    after? w (Text.crlf t) = (after? w t).map Text.crlf := by
  induction w generalizing t with
  | nil => rfl
  | cons a w ih =>
    obtain ⟨ha, ha'⟩ := hw a (by simp)
    cases t with
    | nil => rfl
    | cons c t =>
      by_cases hc : c = '\n'
      · rw [hc, crlf_newline, after?, after?, if_neg ha, if_neg ha', Option.map_none]
      · rw [crlf_cons hc, after?, after?, ih (fun c hc => hw c (by simp [hc]))]
        split_ifs <;> rfl

theorem agrees_word {w : Text} (hw : ∀ c ∈ w, c ≠ '\r' ∧ c ≠ '\n') : Agrees torn id (word w) (word w) := by
  refine .weaken ⟨fun {pre t} hpre ht => ?_⟩
  have hcrlf : Text.crlf w = w := crlf_of_notMem fun h => (hw _ h).2 rfl
  simp only [word, after_between, after?_crlf hw]
  cases after? w t with
  | none => rfl
  | some rest => simp [Cursor.crlf, between, hcrlf]

/-! ### Repetitions -/

theorem agrees_few {p : Char → Bool} (hp : p '\n' → p '\r') (ht : p '\r' → torn = true) :
    Agrees torn id (few p) (few p) := by
  refine ⟨fun {pre t} hpre hfree => ?_⟩
  induction t generalizing pre with
  | nil => simp [run_few_nil, isTorn_crlf hpre]
  | cons c t ih =>
    rw [List.mem_cons, not_or] at hfree
    have hpre' : '\r' ∉ pre ++ [c] := by simp [hpre, hfree.1]
    have ih := ih hpre' hfree.2
    by_cases hc : c = '\n'
    · subst hc
      have htorn : (between (crlf pre ++ ['\r']) ('\n' :: crlf t)).isTorn = true := by simp [isTorn_between]
      have hfeed : crlf pre ++ ['\r'] ++ ['\n'] = crlf (pre ++ ['\n']) := by simp
      rw [crlf_newline, run_few_cons, run_few_cons, hfeed, run_few_cons]
      by_cases hr : p '\r'
      · by_cases hn : p '\n'
        · simp [hr, hn, htorn, isTorn_crlf hpre, ht hr, ← ih]
        · simp [hr, hn, htorn, isTorn_crlf hpre, ht hr]
      · have hn : ¬ p '\n' := mt hp hr
        simp [hr, hn, isTorn_crlf hpre]
    · rw [crlf_cons hc, run_few_cons, run_few_cons]
      have hone : crlf pre ++ [c] = crlf (pre ++ [c]) := by rw [crlf_append, crlf_cons hc, crlf_nil]
      rw [hone]
      by_cases hcp : p c
      · simp [hcp, isTorn_crlf hpre, ← ih, crlf_cons hc]
      · simp [hcp, isTorn_crlf hpre, crlf_cons hc]

theorem agrees_many {p : Char → Bool} (hp : p '\n' → p '\r') (ht : p '\r' → torn = true) :
    Agrees torn id (many p) (many p) := by
  refine ⟨fun {pre t} hpre hfree => ?_⟩
  show (((few p).run _).reverse).filter _ = (((few p).run _).reverse).map _
  rw [List.filter_reverse, List.map_reverse, (agrees_few hp ht).run_crlf hpre hfree]

theorem run_char_cons {p : Char → Bool} {c : Char} :
    (char p).run (between pre (c :: t)) = if p c then [(c, between (pre ++ [c]) t)] else [] := by
  by_cases hc : p c <;> simp [char, between, hc]

theorem agrees_char {p : Char → Bool} (hr : p '\r' = false) (hn : p '\n' = false) :
    Agrees torn id (char p) (char p) := by
  refine .weaken ⟨fun {pre t} hpre ht => ?_⟩
  cases t with
  | nil => rfl
  | cons c t =>
    by_cases hc : c = '\n'
    · rw [hc, crlf_newline, run_char_cons, run_char_cons]
      simp [hr, hn]
    · rw [crlf_cons hc, run_char_cons, run_char_cons]
      split_ifs <;> simp [crlf_cons hc]

theorem run_many1_cons {p : Char → Bool} {c : Char} :
    (many1 p).run (between pre (c :: t)) = if p c then (many p).run (between (pre ++ [c]) t) else [] := by
  rw [many1, run_bind, run_char_cons]
  split_ifs <;> simp

theorem agrees_many1 {p : Char → Bool} (hp : p '\n' → p '\r') (ht : p '\r' → torn = true) :
    Agrees torn id (many1 p) (many1 p) := by
  refine ⟨fun {pre t} hpre hfree => ?_⟩
  cases t with
  | nil => rfl
  | cons c t =>
    rw [List.mem_cons, not_or] at hfree
    have hpre' : '\r' ∉ pre ++ [c] := by simp [hpre, hfree.1]
    have hmany := (agrees_many hp ht).run_crlf hpre' hfree.2
    by_cases hc : c = '\n'
    · subst hc
      rw [crlf_newline, run_many1_cons, run_many1_cons]
      by_cases hr : p '\r'
      · -- The repetition may stop between the two characters of the line ending: that reading is the torn one.
        have hrun : (many p).run (between (crlf pre ++ ['\r']) ('\n' :: crlf t)) =
            (if p '\n' then (many p).run (between (crlf (pre ++ ['\n'])) (crlf t)) else []) ++
              [((), between (crlf pre ++ ['\r']) ('\n' :: crlf t))] := by
          show ((few p).run _).reverse = _
          rw [run_few_cons, List.reverse_cons]
          split_ifs <;> simp [many]
        rw [if_pos hr, hrun, List.filter_append]
        by_cases hn : p '\n'
        · simp [hn, ht hr, isTorn_between, ← hmany]
        · simp [hn, ht hr, isTorn_between]
      · simp [hr, mt hp hr]
    · rw [crlf_cons hc, run_many1_cons, run_many1_cons]
      have hone : crlf pre ++ [c] = crlf (pre ++ [c]) := by rw [crlf_append, crlf_cons hc, crlf_nil]
      rw [hone]
      split_ifs
      · exact hmany
      · rfl

theorem agrees_oneOf {ws : List Text} (hws : ∀ w ∈ ws, ∀ c ∈ w, c ≠ '\r' ∧ c ≠ '\n') :
    Agrees torn Text.crlf (oneOf ws) (oneOf ws) := by
  induction ws with
  | nil => exact .weaken ⟨fun _ _ => rfl⟩
  | cons w ws ih =>
    have hcrlf : Text.crlf w = w := crlf_of_notMem fun h => (hws w (by simp) _ h).2 rfl
    have hword : Agrees torn Text.crlf (do word w; Pure.pure w) (do word w; Pure.pure w) :=
      .bind (agrees_word (hws w (by simp))) fun _ => agrees_pure hcrlf.symm
    exact hword.or (ih fun v hv => hws v (by simp [hv]))

/-! ### What is preferred -/

theorem Agrees.first?_eq (hm : Agrees false g m n) (hpre : '\r' ∉ pre) (ht : '\r' ∉ t) :
    m.first? (between (crlf pre) (crlf t)) = (n.first? (between pre t)).map fun r => (g r.1, r.2.crlf) := by
  rw [first?, first?, hm.run_eq hpre ht, List.head?_map]

/-- What is preferred does not end in front of a line feed if line feeds are read as long as there are any. -/
theorem Agrees.first?_eq_of_isGreedy {p : Char → Bool} (hm : Agrees true g m n) (hgreedy : IsGreedy p m)
    (hp : p '\n' = true) (hpre : '\r' ∉ pre) (ht : '\r' ∉ t) :
    m.first? (between (crlf pre) (crlf t)) = (n.first? (between pre t)).map fun r => (g r.1, r.2.crlf) := by
  have hrun := hm.run_crlf hpre ht
  simp only [Bool.not_true, Bool.false_or] at hrun
  rw [first?, first?]
  cases hall : m.run (between (crlf pre) (crlf t)) with
  | nil =>
    rw [hall, List.filter_nil] at hrun
    rw [List.map_eq_nil_iff.1 hrun.symm]
    rfl
  | cons r rest =>
    have hr : r ∈ m.run (between (crlf pre) (crlf t)) := by simp [hall]
    obtain ⟨u, v, hu, hd⟩ := mem_run_between hr
    have hread : m.ReadsFirst (crlf pre) u v r.1 := by
      rw [ReadsFirst, first?, ← hu, hall, ← hd]
      rfl
    have hwhole : ¬ r.2.isTorn = true := by
      intro htorn
      obtain ⟨x, y, hxy⟩ := exists_of_isTorn hpre ht hr htorn
      obtain ⟨-, rfl⟩ := between_inj.1 (hd.symm.trans hxy)
      exact hgreedy.stops hread '\n' (by simp) hp
    rw [hall, List.filter_cons_of_pos (by simpa using hwhole)] at hrun
    rw [← List.head?_map, ← hrun]
    rfl

end Scan

namespace Source

open Scan Text Cursor

variable {torn : Bool}

theorem agrees_space : Agrees true id space space := agrees_many (by decide) fun _ => rfl

theorem agrees_space1 : Agrees true id space1 space1 := agrees_many1 (by decide) fun _ => rfl

theorem agrees_indent : Agrees torn id indent indent := agrees_many (by decide) fun h => absurd h (by decide)

theorem agrees_anyName : Agrees torn id anyName anyName := agrees_many1 (by decide) fun h => absurd h (by decide)

/-- A line ends with a carriage return and a line feed, or with a line feed alone. -/
theorem agrees_lineBreak : Agrees torn id lineBreak lineBreak := by
  refine .weaken ⟨fun {pre t} hpre ht => ?_⟩
  have hrun (pre t : Text) : lineBreak.run (between pre t) =
      ((word "\r").run (between pre t)).flatMap (fun r => (word "\n").run r.2) ++ (word "\n").run (between pre t) := by
    show (((some <$> word "\r").run _ ++ [(none, _)]).flatMap fun r : Option Unit × Cursor => (word "\n").run r.2) = _
    rw [run_map, List.flatMap_append, List.flatMap_map, List.flatMap_singleton]
  have hword (c : Char) (pre t : Text) : (word [c]).run (between pre t) =
      if t.head? = some c then [((), between (pre ++ [c]) t.tail)] else [] := by
    cases t with
    | nil => rfl
    | cons d t =>
      by_cases hd : c = d
      · subst hd
        simp [word, after?, between]
      · simp [word, after?, hd, Ne.symm hd]
  rw [hrun, hrun]
  cases t with
  | nil => rfl
  | cons c t =>
    rw [List.mem_cons, not_or] at ht
    by_cases hc : c = '\n'
    · simp [hc, hword]
    · simp [crlf_cons hc, hword, hc, Ne.symm ht.1]

end Source

namespace ModuleSyntax

open Source Scan Text

variable {torn : Bool} {form : Scan Text} {pre t t' code : Text}

/-! ### The forms -/

theorem fails_statementStart (x y : Text) : statementStart.Fails (x ++ ['\r']) ('\n' :: y) := by
  rw [fails_iff]
  rintro w post sep hw h
  obtain ⟨rfl, ⟨rfl, hline⟩ | rfl⟩ := reads_statementStart.1 h
  · exact absurd (hline '\r' (by simp)) (by decide)
  · exact absurd (List.cons.inj hw).1 (by decide)

theorem agrees_statementStart : Agrees torn Text.crlf statementStart statementStart :=
  .or (.bind agrees_lineStart fun _ => agrees_pure rfl) (agrees_word (by simp)).text

theorem agrees_statementEnd : Agrees torn Text.crlf statementEnd statementEnd :=
  .bind agrees_indent fun _ => .bind (agrees_word (by simp)).maybe fun _ => .bind agrees_indent fun _ =>
    .bind agrees_lineBreak.text.maybe fun newline => agrees_pure (by cases newline <;> rfl)

theorem crlf_remainder (sep nl : Text) : remainder (Text.crlf sep) (Text.crlf nl) = Text.crlf (remainder sep nl) := by
  simp only [remainder, List.isEmpty_iff, crlf_eq_nil_iff]
  split_ifs
  · rfl
  · rw [crlf_append]

theorem agrees_remainder (sep : Text) : Agrees torn Text.crlf
    (statementEnd >>= fun newline => pure (remainder (Text.crlf sep) newline))
    (statementEnd >>= fun newline => pure (remainder sep newline)) :=
  .bind agrees_statementEnd fun newline => agrees_pure (crlf_remainder sep newline)

theorem agrees_specifier : Agrees torn id specifier specifier :=
  .bind (agrees_char (by decide) (by decide)) fun _ =>
    .bind_solid (agrees_many (by decide) fun _ => rfl)
      (fun _ => .bind (agrees_char (by decide) (by decide)) fun _ => agrees_pure rfl) fun _ => readsSolid_quote.bind

theorem agrees_braces : Agrees torn id braces braces :=
  .bind (agrees_word (by simp)) fun _ =>
    .bind_solid (agrees_many (by decide) fun _ => rfl) (fun _ => agrees_word (by simp)) fun _ => readsSolid_word rfl

theorem agrees_asName : Agrees torn id asName asName :=
  .bind (agrees_word (by simp)) fun _ =>
    .bind_solid agrees_space1 (fun _ => agrees_anyName) fun _ => readsSolid_anyName

theorem agrees_source : Agrees torn id source source :=
  .bind_solid agrees_space (fun _ => .bind (agrees_word (by simp)) fun _ =>
    .bind_solid agrees_space (fun _ => agrees_specifier) fun _ => readsSolid_specifier)
    fun _ => (readsSolid_word rfl).bind

theorem agrees_importFrom : Agrees torn Text.crlf importFrom importFrom := by
  have htype : Agrees true id (do Scan.word "type"; space1 : Scan Unit) (do Scan.word "type"; space1) :=
    .bind (agrees_word (by simp)) fun _ => agrees_space1
  have hname : Agrees true id (do anyName; space; Scan.word ","; space : Scan Unit)
      (do anyName; space; Scan.word ","; space) :=
    .bind agrees_anyName fun _ => .bind_solid agrees_space
      (fun _ => .bind (agrees_word (by simp)) fun _ => agrees_space) fun _ => (readsSolid_word rfl).bind
  have hall : Agrees false id (do Scan.word "*"; space; asName : Scan Unit) (do Scan.word "*"; space; asName) :=
    .bind (agrees_word (by simp)) fun _ => .bind_solid agrees_space (fun _ => agrees_asName)
      fun _ => readsSolid_asName
  have hattributes : Agrees false id (do space; let _ ← Scan.oneOf ["with", "assert"]; space; braces : Scan Unit)
      (do space; let _ ← Scan.oneOf ["with", "assert"]; space; braces) :=
    .bind_solid agrees_space (fun _ => .bind (agrees_oneOf (by simp)) fun _ =>
      .bind_solid agrees_space (fun _ => agrees_braces) fun _ => readsSolid_braces)
      fun _ => readsSolid_attributes.bind
  exact .bind agrees_statementStart fun sep => .bind agrees_indent fun _ => .bind (agrees_word (by simp)) fun _ =>
    .bind agrees_wordEdge fun _ => .bind_solid agrees_space
      (fun _ => .bind_solid htype.maybe
        (fun _ => .bind_solid hname.maybe
          (fun _ => .bind (agrees_braces.or (hall.or agrees_anyName)) fun _ => .bind_solid agrees_space
            (fun _ => .bind (agrees_word (by simp)) fun _ => .bind_solid agrees_space
              (fun _ => .bind agrees_specifier fun _ => .bind hattributes.maybe fun _ => agrees_remainder sep)
              fun _ => readsSolid_specifier.bind)
            fun _ => (readsSolid_word rfl).bind)
          fun _ => readsSolid_bindings.bind)
        fun _ => .maybe_bind readsSolid_anyName.bind readsSolid_bindings.bind)
      fun _ => .maybe_bind (readsSolid_word rfl).bind (.maybe_bind readsSolid_anyName.bind readsSolid_bindings.bind)

theorem agrees_importOnly : Agrees torn Text.crlf importOnly importOnly :=
  .bind agrees_statementStart fun sep => .bind agrees_indent fun _ => .bind (agrees_word (by simp)) fun _ =>
    .bind_solid agrees_space (fun _ => .bind agrees_specifier fun _ => agrees_remainder sep)
      fun _ => readsSolid_specifier.bind

theorem agrees_exportList : Agrees torn Text.crlf exportList exportList :=
  have htype : Agrees true id (do Scan.word "type"; space : Scan Unit) (do Scan.word "type"; space) :=
    .bind (agrees_word (by simp)) fun _ => agrees_space
  .bind agrees_statementStart fun sep => .bind agrees_indent fun _ => .bind (agrees_word (by simp)) fun _ =>
    .bind_solid agrees_space
      (fun _ => .bind_solid htype.maybe
        (fun _ => .bind agrees_braces fun _ => .bind agrees_source.maybe fun _ => agrees_remainder sep)
        fun _ => readsSolid_braces.bind)
      fun _ => .maybe_bind (readsSolid_word rfl).bind readsSolid_braces.bind

theorem agrees_exportAll : Agrees torn Text.crlf exportAll exportAll :=
  have hname : Agrees false id (do space; asName : Scan Unit) (do space; asName) :=
    .bind_solid agrees_space (fun _ => agrees_asName) fun _ => readsSolid_asName
  .bind agrees_statementStart fun sep => .bind agrees_indent fun _ => .bind (agrees_word (by simp)) fun _ =>
    .bind_solid agrees_space
      (fun _ => .bind (agrees_word (by simp)) fun _ => .bind hname.maybe fun _ => .bind agrees_source fun _ =>
        agrees_remainder sep)
      fun _ => (readsSolid_word rfl).bind

theorem agrees_exportDefault : Agrees true Text.crlf exportDefault exportDefault :=
  .bind agrees_statementStart fun sep => .bind agrees_indent.text fun margin => .bind (agrees_word (by simp)) fun _ =>
    .bind_solid agrees_space1
      (fun _ => .bind (agrees_word (by simp)) fun _ => crlf_append sep margin ▸ agrees_space1.bind_pure)
      fun _ => (readsSolid_word rfl).bind

theorem agrees_exportModifier : Agrees torn Text.crlf exportModifier exportModifier :=
  .bind agrees_statementStart fun sep => .bind agrees_indent.text fun margin => .bind (agrees_word (by simp)) fun _ =>
    .bind_solid agrees_space1
      (fun _ => .bind (agrees_oneOf (by simp [modifiers])) fun modifier => .bind agrees_wordEdge fun _ =>
        agrees_pure (by rw [crlf_append, crlf_append]))
      fun _ => readsSolid_modifiers.bind

/-- Behind `export default` all white space is read, so that no carriage return is parted from its line feed. -/
theorem isGreedy_exportDefault : IsGreedy isBlank exportDefault :=
  .bind fun _ => .bind fun _ => .bind fun _ => .bind fun _ => .bind fun _ => isGreedy_many1_bind _

/-- Between a carriage return and its line feed no statement starts. -/
theorem fails_of_carriageReturn (hf : form ∈ forms) (x y : Text) : form.Fails (x ++ ['\r']) ('\n' :: y) := by
  simp only [forms, List.mem_cons, List.not_mem_nil, or_false] at hf
  rcases hf with rfl | rfl | rfl | rfl | rfl | rfl <;> exact (fails_statementStart x y).bind

theorem first?_crlf (hf : form ∈ forms) (hpre : '\r' ∉ pre) (ht : '\r' ∉ t) :
    form.first? (Cursor.between (crlf pre) (crlf t)) =
      (form.first? (Cursor.between pre t)).map fun r => (Text.crlf r.1, r.2.crlf) := by
  simp only [forms, List.mem_cons, List.not_mem_nil, or_false] at hf
  rcases hf with rfl | rfl | rfl | rfl | rfl | rfl
  · exact agrees_importFrom.first?_eq hpre ht
  · exact agrees_importOnly.first?_eq hpre ht
  · exact agrees_exportList.first?_eq hpre ht
  · exact agrees_exportAll.first?_eq hpre ht
  · exact agrees_exportDefault.first?_eq_of_isGreedy isGreedy_exportDefault (by decide) hpre ht
  · exact agrees_exportModifier.first?_eq hpre ht

theorem editAt_crlf (hf : form ∈ forms) (hpre : '\r' ∉ pre) (ht : '\r' ∉ t) :
    (some <$> form).editAt (Text.crlf pre) (Text.crlf t) = Text.crlf ((some <$> form).editAt pre t) := by
  generalize hn : t.length = n
  induction n using Nat.strong_induction_on generalizing pre t with
  | _ n ih =>
    have hfirst := first?_crlf hf hpre ht
    cases t with
    | nil => rfl
    | cons c t =>
      by_cases hfails : form.Fails pre (c :: t)
      · rw [first?_eq_none_iff.2 hfails, Option.map_none, first?_eq_none_iff] at hfirst
        rw [editAt_keep (fails_map hfails).passes]
        rw [List.mem_cons, not_or] at ht
        have hpre' : '\r' ∉ pre ++ [c] := by simp [hpre, ht.1]
        have ih := ih t.length (by simp [← hn]) hpre' ht.2 rfl
        by_cases hc : c = '\n'
        · subst hc
          -- The line ending is kept in two steps, and no form starts between its characters.
          have hmiddle := (fails_map (g := some) (fails_of_carriageReturn hf (Text.crlf pre) (Text.crlf t))).passes
          rw [crlf_newline] at hfirst ⊢
          rw [editAt_keep (fails_map hfirst).passes, editAt_keep hmiddle, crlf_newline, ← ih]
          simp
        · rw [crlf_cons hc] at hfirst ⊢
          rw [editAt_keep (fails_map hfirst).passes, crlf_cons hc, ← ih, crlf_append, crlf_cons hc, crlf_nil]
      · obtain ⟨w, post, r, hw, hr⟩ := exists_readsFirst hfails
        have hne := (shortens_of_mem_forms hf).ne_nil hr.reads
        rw [hw] at hfirst ht ⊢
        rw [show form.first? _ = _ from hr, Option.map_some, Cursor.crlf_between, crlf_append, crlf_append] at hfirst
        have hne' : Text.crlf w ≠ [] := mt crlf_eq_nil_iff.1 hne
        rw [List.mem_append, not_or] at ht
        have hshort : post.length < n := by
          have := List.length_pos_of_ne_nil hne
          rw [← hn, hw, List.length_append]
          omega
        have hpre' : '\r' ∉ pre ++ w := by simp [hpre, ht.1]
        have ih := ih post.length hshort hpre' ht.2 rfl
        rw [replaceAt_put hr hne, crlf_append, crlf_append, replaceAt_put hfirst hne', ← ih, crlf_append]

theorem replace_crlf (hf : form ∈ forms) (ht : '\r' ∉ t) : form.replace (Text.crlf t) = Text.crlf (form.replace t) :=
  editAt_crlf hf List.not_mem_nil ht

/-! ### The removal -/

theorem Rounds.unique {n n' : Nat} {t' t'' : Text} (h : Rounds form n t t') (h' : Rounds form n' t t'') : t' = t'' := by
  induction h generalizing n' with
  | stop habsent =>
    cases h' with
    | stop => rfl
    | round hne => exact absurd habsent hne
  | round hne _ ih =>
    cases h' with
    | stop habsent => exact absurd habsent hne
    | round _ h' => exact ih h'

theorem absent_crlf_iff (hf : form ∈ forms) (ht : '\r' ∉ t) : Absent form (Text.crlf t) ↔ Absent form t := by
  have hreplace : '\r' ∉ form.replace t := fun h => ht (((thins_of_mem_forms hf).replace_sublist t).subset h)
  have hshort := shortens_of_mem_forms hf
  rw [← replace_eq_iff hshort, ← replace_eq_iff hshort, replace_crlf hf ht, crlf_inj hreplace ht]

theorem Rounds.crlf {n : Nat} (hf : form ∈ forms) (ht : '\r' ∉ t) (h : Rounds form n t t') :
    Rounds form n (Text.crlf t) (Text.crlf t') := by
  induction h with
  | stop habsent => exact .stop ((absent_crlf_iff hf ht).2 habsent)
  | @round _ t _ hne _ ih =>
    have hreplace : '\r' ∉ form.replace t := fun h => ht (((thins_of_mem_forms hf).replace_sublist t).subset h)
    refine .round (mt (absent_crlf_iff hf ht).1 hne) ?_
    rw [replace_crlf hf ht]
    exact ih hreplace

theorem removeForm_crlf (hf : form ∈ forms) (ht : '\r' ∉ t) :
    removeForm (Text.crlf t) form = Text.crlf (removeForm t form) := by
  obtain ⟨n, -, h⟩ := exists_rounds_removeForm hf t
  obtain ⟨n', -, h'⟩ := exists_rounds_removeForm hf (Text.crlf t)
  exact h'.unique (h.crlf hf ht)

theorem foldl_removeForm_crlf {fs : List (Scan Text)} (hfs : ∀ f ∈ fs, f ∈ forms) (ht : '\r' ∉ t) :
    fs.foldl removeForm (Text.crlf t) = Text.crlf (fs.foldl removeForm t) := by
  induction fs generalizing t with
  | nil => rfl
  | cons f fs ih =>
    have hf : f ∈ forms := hfs f (by simp)
    have hrest : '\r' ∉ removeForm t f := fun h => ht ((removeForm_sublist hf t).subset h)
    rw [List.foldl_cons, List.foldl_cons, removeForm_crlf hf ht]
    exact ih (fun g hg => hfs g (List.mem_cons_of_mem _ hg)) hrest

/-- Between two line feeds there is a carriage return, so that no blank lines are merged. -/
theorem absent_blankLines_crlf (t : Text) : Absent blankLines (Text.crlf t) := by
  intro u v huv
  rw [fails_iff]
  rintro w post r rfl h
  obtain ⟨b, s, rfl, hb, -⟩ := reads_blankLines.1 h
  have hlast := getLast?_of_crlf_eq (x := u ++ '\n' :: b) (y := s ++ ['\n'] ++ post) (by rw [huv]; simp)
  have hmem : '\r' ∈ '\n' :: b := by
    rw [List.getLast?_append_of_ne_nil _ (by simp)] at hlast
    exact List.mem_of_getLast? hlast
  rcases List.mem_cons.1 hmem with h | h
  · exact absurd h (by decide)
  · exact absurd (hb _ h) (by decide)

/-- Module syntax is removed from a text with carriage returns as from the same text without them, but the blank lines
that are left behind are not merged. -/
theorem remove_crlf (ht : '\r' ∉ code) :
    remove (Text.crlf code) = Text.crlf (forms.foldl removeForm code) ∧
      (remove (Text.crlf code) = Text.crlf (remove code) ↔
        NoSyntax code ∨ Absent blankLines (forms.foldl removeForm code)) := by
  have hbare : forms.foldl removeForm (Text.crlf code) = Text.crlf (forms.foldl removeForm code) :=
    foldl_removeForm_crlf (fun f hf => hf) ht
  have hremove : remove (Text.crlf code) = Text.crlf (forms.foldl removeForm code) := by
    simp only [remove, hbare]
    split_ifs with heq
    · exact heq.symm
    · exact replace_of_fails (absent_blankLines_crlf _)
  have hfree {u : Text} (hu : u.Sublist code) : '\r' ∉ u := fun h => ht (hu.subset h)
  refine ⟨hremove, ?_⟩
  rw [hremove, crlf_inj (hfree (foldl_removeForm_sublist (fun f hf => hf) code)) (hfree (remove_sublist code))]
  by_cases hnone : NoSyntax code
  · rw [remove_eq_self_iff.2 hnone, foldl_removeForm_of_noSyntax hnone fun f hf => hf]
    simp [hnone]
  · rw [remove_eq_replace hnone, eq_comm, replace_eq_iff shortens_blankLines]
    simp [hnone]

theorem remove_crlf_import : '\r' ∉ ("import a from 'a'\nrun(a)\n" : Text) ∧
    remove (Text.crlf "import a from 'a'\nrun(a)\n") = Text.crlf "run(a)\n" := by
  have hfree : '\r' ∉ ("import a from 'a'\nrun(a)\n" : Text) := by simp
  refine ⟨hfree, (remove_crlf hfree).1.trans (congrArg Text.crlf ?_)⟩
  simp only [String.reduceToList]
  decide +kernel

/-- A run of blank lines stays where the lines end with carriage returns. -/
theorem remove_crlf_run : remove "import a from 'a'\n\n\n\nconst b = a\n" = "\n\nconst b = a\n" ∧
    remove (Text.crlf "import a from 'a'\n\n\n\nconst b = a\n") = Text.crlf "\n\n\nconst b = a\n" := by
  simp only [String.reduceToList]
  refine ⟨?_, ?_⟩ <;> decide +kernel

end ModuleSyntax

end AppsScript
