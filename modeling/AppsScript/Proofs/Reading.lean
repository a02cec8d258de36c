import AppsScript.Source.Lexicon
import Mathlib.Data.List.Sort

/-!
# What a scan reads

A scan is seen here between two texts: `m.Reads pre w post a` says that `m`, started behind `pre` and
before `w ++ post`, can read `w` with the result `a`, and `m.ReadsFirst pre w post a` that this is the
way it prefers. The first is compositional (`reads_bind`, `reads_or`, ...), so that the grammar of a
composed scan can be read off its definition. The second is not, because a part may have to give back
what it would like to read; `ReadsFirst.bind` covers the case in which it need not, and
`ReadsFirst.maybe_bind_none` the one in which an optional part has to be left out.
-/

namespace AppsScript

/-- A line starts behind `pre`. -/
def Text.AtLineStart (pre : Text) : Prop := ∀ c ∈ pre.getLast?, c = '\n'

/-- A line ends before `post`. -/
def Text.AtLineEnd (post : Text) : Prop := ∀ c ∈ post.head?, c = '\n'

namespace Cursor

/-- The place between two texts. -/
def between (pre post : Text) : Cursor := ⟨pre.length, pre.reverse, post⟩

@[simp] theorem offset_between (pre post : Text) : (between pre post).offset = pre.length := rfl
@[simp] theorem before_between (pre post : Text) : (between pre post).before = pre.reverse := rfl
@[simp] theorem after_between (pre post : Text) : (between pre post).after = post := rfl

@[simp] theorem upTo_between (pre w post : Text) :
    (between pre (w ++ post)).upTo (between (pre ++ w) post) = w := by
  simp [upTo, between]

@[simp] theorem between_inj {pre post pre' post' : Text} :
    between pre post = between pre' post' ↔ pre = pre' ∧ post = post' := by
  constructor
  · intro h
    exact ⟨List.reverse_injective (congrArg Cursor.before h), congrArg Cursor.after h⟩
  · rintro ⟨rfl, rfl⟩
    rfl

/-- The places behind a place are those between what has been read by then and the rest. -/
theorem reaches_between {pre t : Text} {d : Cursor} :
    (between pre t).Reaches d ↔ ∃ w post, t = w ++ post ∧ d = between (pre ++ w) post := by
  obtain ⟨i, before, after⟩ := d
  constructor
  · rintro ⟨w, hw, hb, hi⟩
    refine ⟨w, after, hw, ?_⟩
    simp_all [between]
  · rintro ⟨w, post, rfl, hd⟩
    simp only [between, mk.injEq] at hd
    obtain ⟨rfl, rfl, rfl⟩ := hd
    exact ⟨w, by simp⟩

end Cursor

namespace Scan

open Cursor

variable {α β : Type} {m n : Scan α} {f : α → Scan β} {p : Char → Bool} {pre w post t : Text} {a : α}
  {b : β} {x : Char}

/-- `m` can read `w` between `pre` and `post`, with the result `a`. -/
def Reads (m : Scan α) (pre w post : Text) (a : α) : Prop :=
  (a, between (pre ++ w) post) ∈ m.run (between pre (w ++ post))

/-- `m` prefers to read `w` between `pre` and `post`, with the result `a`. -/
def ReadsFirst (m : Scan α) (pre w post : Text) (a : α) : Prop :=
  m.first? (between pre (w ++ post)) = some (a, between (pre ++ w) post)

/-- `m` can read nothing between `pre` and `post`. -/
def Fails (m : Scan α) (pre post : Text) : Prop := m.run (between pre post) = []

theorem ReadsFirst.reads (h : m.ReadsFirst pre w post a) : m.Reads pre w post a :=
  List.mem_of_head? h

theorem mem_run_between {d : Cursor} (h : (a, d) ∈ m.run (between pre t)) :
    ∃ w post, t = w ++ post ∧ d = between (pre ++ w) post :=
  reaches_between.1 (m.reaches h)

theorem fails_iff : m.Fails pre t ↔ ∀ w post a, t = w ++ post → ¬ m.Reads pre w post a := by
  constructor
  · rintro h w post a rfl hr
    rw [Reads, h] at hr
    exact List.not_mem_nil hr
  · intro h
    refine List.eq_nil_iff_forall_not_mem.2 fun ⟨a, d⟩ hd => ?_
    obtain ⟨w, post, rfl, rfl⟩ := mem_run_between hd
    exact h w post a rfl hd

theorem first?_eq_none_iff : m.first? (between pre t) = none ↔ m.Fails pre t := by
  simp [first?, Fails]

theorem exists_readsFirst (h : ¬ m.Fails pre t) :
    ∃ w post a, t = w ++ post ∧ m.ReadsFirst pre w post a := by
  rw [← first?_eq_none_iff] at h
  obtain ⟨⟨a, d⟩, hr⟩ := Option.ne_none_iff_exists'.1 h
  obtain ⟨w, post, rfl, rfl⟩ := mem_run_between (List.mem_of_head? hr)
  exact ⟨w, post, a, rfl, hr⟩

theorem ReadsFirst.unique {w' post' : Text} {a' : α} (h : m.ReadsFirst pre w post a)
    (h' : m.ReadsFirst pre w' post' a') (ht : w ++ post = w' ++ post') : w = w' ∧ a = a' := by
  rw [ReadsFirst, ht, h', Option.some.injEq, Prod.mk.injEq, between_inj] at h
  exact ⟨(List.append_cancel_left h.2.1).symm, h.1.symm⟩

/-! ### What composed scans can read -/

theorem run_bind (c : Cursor) : (m >>= f).run c = (m.run c).flatMap fun r => (f r.1).run r.2 := rfl

theorem reads_bind : (m >>= f).Reads pre w post b ↔
    ∃ u v a, w = u ++ v ∧ m.Reads pre u (v ++ post) a ∧ (f a).Reads (pre ++ u) v post b := by
  simp only [Reads, run_bind, List.mem_flatMap, Prod.exists]
  constructor
  · rintro ⟨a, d, hd, hb⟩
    obtain ⟨u, rest, hu, rfl⟩ := mem_run_between hd
    obtain ⟨v, post', rfl, hp⟩ := mem_run_between hb
    obtain ⟨hw, rfl⟩ := between_inj.1 hp
    rw [List.append_assoc] at hw
    obtain rfl := List.append_cancel_left hw
    exact ⟨u, v, a, rfl, by rwa [← List.append_assoc] , by simpa using hb⟩
  · rintro ⟨u, v, a, rfl, hu, hv⟩
    exact ⟨a, _, by simpa using hu, by simpa using hv⟩

@[simp] theorem reads_pure {a' : α} : (pure a : Scan α).Reads pre w post a' ↔ w = [] ∧ a' = a := by
  show (a', between (pre ++ w) post) ∈ [(a, between pre (w ++ post))] ↔ _
  simp [and_comm]

theorem reads_map {g : α → β} :
    (g <$> m).Reads pre w post b ↔ ∃ a, m.Reads pre w post a ∧ b = g a := by
  show (m >>= fun a => pure (g a)).Reads pre w post b ↔ _
  simp only [reads_bind, reads_pure]
  constructor
  · rintro ⟨u, v, a, rfl, hu, rfl, rfl⟩
    exact ⟨a, by simpa using hu, rfl⟩
  · rintro ⟨a, ha, rfl⟩
    exact ⟨w, [], a, by simp, by simpa using ha, rfl, rfl⟩

@[simp] theorem reads_char : (char p).Reads pre w post x ↔ w = [x] ∧ p x := by
  rw [Reads, between]
  cases hw : w ++ post with
  | nil =>
    have : w ≠ [x] := by rintro rfl; simp at hw
    simp [char, this]
  | cons y ys =>
    simp only [char]
    split_ifs with hp
    · rw [List.mem_singleton, Prod.mk.injEq]
      constructor
      · rintro ⟨rfl, hc⟩
        have hl := congrArg Cursor.after hc
        simp only [after_between] at hl
        subst hl
        have hw' : w ++ post = [x] ++ post := hw
        exact ⟨List.append_cancel_right hw', hp⟩
      · rintro ⟨rfl, -⟩
        obtain ⟨rfl, rfl⟩ := List.cons.inj hw
        exact ⟨rfl, by simp [between]⟩
    · simp only [List.not_mem_nil, false_iff, not_and]
      rintro rfl hx
      obtain ⟨rfl, -⟩ := List.cons.inj hw
      exact hp hx

@[simp] theorem reads_word {u : Text} {o : Unit} : (word u).Reads pre w post o ↔ w = u := by
  cases h : Text.after? u (w ++ post) with
  | none =>
    have : w ≠ u := by
      rintro rfl
      rw [Text.after?_eq_some_iff.2 rfl] at h
      simp at h
    simp [Reads, word, this, h]
  | some rest =>
    simp only [Reads, word, after_between, h, List.mem_singleton, Prod.mk.injEq, true_and]
    rw [Text.after?_eq_some_iff] at h
    constructor
    · intro hc
      have hl := congrArg Cursor.after hc
      simp only [after_between] at hl
      subst hl
      exact List.append_cancel_right h
    · rintro rfl
      obtain rfl := List.append_cancel_left h
      simp [between]

@[simp] theorem reads_here {c : Cursor} :
    here.Reads pre w post c ↔ w = [] ∧ c = between pre (w ++ post) := by
  show (c, between (pre ++ w) post) ∈ [(between pre (w ++ post), between pre (w ++ post))] ↔ _
  rw [List.mem_singleton, Prod.mk.injEq, between_inj, List.append_right_eq_self]
  constructor
  · rintro ⟨rfl, rfl, -⟩
    exact ⟨rfl, rfl⟩
  · rintro ⟨rfl, rfl⟩
    exact ⟨rfl, rfl, rfl⟩

@[simp] theorem reads_holds {q : Cursor → Bool} {o : Unit} :
    (holds q).Reads pre w post o ↔ w = [] ∧ q (between pre (w ++ post)) := by
  show (o, between (pre ++ w) post) ∈ (if q _ then [((), _)] else []) ↔ _
  split_ifs with h
  · rw [List.mem_singleton, Prod.mk.injEq, between_inj, List.append_right_eq_self]
    exact ⟨fun hw => ⟨hw.2.1, h⟩, fun hw => ⟨rfl, hw.1, by simp [hw.1]⟩⟩
  · simp [h]

theorem reads_or : (m <|> n).Reads pre w post a ↔ m.Reads pre w post a ∨ n.Reads pre w post a := by
  show _ ∈ m.run _ ++ n.run _ ↔ _
  exact List.mem_append

theorem reads_maybe {o : Option α} :
    m.maybe.Reads pre w post o ↔ (∃ a, m.Reads pre w post a ∧ o = some a) ∨ w = [] ∧ o = none := by
  show ((some <$> m) <|> pure none).Reads pre w post o ↔ _
  rw [reads_or, reads_map, reads_pure]

theorem reads_text {u : Text} : m.text.Reads pre w post u ↔ u = w ∧ ∃ a, m.Reads pre w post a := by
  show _ ∈ (m.run _).map (fun r => (_, r.2)) ↔ _
  simp only [List.mem_map, Prod.mk.injEq, Prod.exists, Reads]
  constructor
  · rintro ⟨a, d, hd, hu, rfl⟩
    exact ⟨by rw [← hu, upTo_between], a, hd⟩
  · rintro ⟨rfl, a, ha⟩
    exact ⟨a, _, ha, upTo_between .., rfl⟩

theorem text_bind {n : Scan β} : (m.text >>= fun _ => n) = (m >>= fun _ => n) := by
  have h : (m.text >>= fun _ => n).run = (m >>= fun _ => n).run := by
    funext c
    show ((m.run c).map fun r => (c.upTo r.2, r.2)).flatMap (fun r => n.run r.2) = _
    rw [List.flatMap_map]
    rfl
  revert h
  generalize (m.text >>= fun _ => n) = k, (m >>= fun _ => n) = l
  intro h
  cases k
  cases l
  subst h
  rfl

theorem mem_stops {after : Text} : ∀ {i : Nat} {before : List Char} {d : Cursor},
    d ∈ stops p i before after ↔ ∃ u v, after = u ++ v ∧ (∀ c ∈ u, p c) ∧
      d = ⟨i + u.length, u.reverse ++ before, v⟩ := by
  induction after with
  | nil => simp [stops]
  | cons x after ih =>
    intro i before d
    rw [stops, List.mem_cons]
    constructor
    · rintro (rfl | h)
      · exact ⟨[], x :: after, by simp⟩
      · by_cases hx : p x
        · rw [if_pos hx, ih] at h
          obtain ⟨u, v, rfl, hu, rfl⟩ := h
          exact ⟨x :: u, v, rfl, by simpa [hx] using hu, by simp [Nat.add_assoc, Nat.add_comm 1]⟩
        · simp [hx] at h
    · rintro ⟨_ | ⟨y, u⟩, v, hv, hu, rfl⟩
      · exact .inl (by simp [show v = x :: after from hv.symm])
      · obtain ⟨rfl, rfl⟩ := List.cons.inj hv
        rw [if_pos (hu x (by simp)), ih]
        exact .inr ⟨u, v, rfl, fun c hc => hu c (by simp [hc]), by
          simp [Nat.add_assoc, Nat.add_comm 1]⟩

@[simp] theorem reads_few {o : Unit} : (few p).Reads pre w post o ↔ ∀ c ∈ w, p c := by
  show (o, between (pre ++ w) post) ∈ (stops p _ _ (w ++ post)).map (fun d => ((), d)) ↔ _
  simp only [List.mem_map, Prod.mk.injEq, true_and, exists_eq_right, mem_stops]
  constructor
  · rintro ⟨u, v, hv, hu, hd⟩
    have hl := congrArg Cursor.after hd
    simp only [after_between] at hl
    subst hl
    rwa [List.append_cancel_right hv]
  · exact fun hw => ⟨w, post, rfl, hw, by simp [between]⟩

@[simp] theorem reads_many {o : Unit} : (many p).Reads pre w post o ↔ ∀ c ∈ w, p c := by
  show _ ∈ ((few p).run _).reverse ↔ _
  rw [List.mem_reverse]
  exact reads_few

theorem reads_char_bind {n : Scan Unit} {o : Unit} (hm : ∀ {pre w post}, n.Reads pre w post o ↔ ∀ c ∈ w, p c) :
    (char p >>= fun _ => n).Reads pre w post o ↔ w ≠ [] ∧ ∀ c ∈ w, p c := by
  simp only [reads_bind, reads_char]
  constructor
  · rintro ⟨u, v, x, rfl, ⟨rfl, hx⟩, hv⟩
    simpa [hx] using hm.1 hv
  · rintro ⟨hw, h⟩
    obtain ⟨x, v, rfl⟩ := List.exists_cons_of_ne_nil hw
    exact ⟨[x], v, x, rfl, ⟨rfl, h x (by simp)⟩, hm.2 fun c hc => h c (by simp [hc])⟩

@[simp] theorem reads_many1 {o : Unit} :
    (many1 p).Reads pre w post o ↔ w ≠ [] ∧ ∀ c ∈ w, p c :=
  reads_char_bind reads_many

@[simp] theorem reads_few1 {o : Unit} : (few1 p).Reads pre w post o ↔ w ≠ [] ∧ ∀ c ∈ w, p c :=
  reads_char_bind reads_few

@[simp] theorem reads_oneOf {ws : List Text} {u : Text} :
    (oneOf ws).Reads pre w post u ↔ u ∈ ws ∧ w = u := by
  induction ws with
  | nil => simp [oneOf, Reads]
  | cons v ws ih =>
    rw [oneOf, reads_or, ih, reads_bind]
    simp only [reads_word, reads_pure, List.mem_cons]
    constructor
    · rintro (⟨s, s', o, rfl, rfl, rfl, rfl⟩ | ⟨h, rfl⟩)
      · simp
      · exact ⟨.inr h, rfl⟩
    · rintro ⟨rfl | h, rfl⟩
      · exact .inl ⟨w, [], (), by simp⟩
      · exact .inr ⟨h, rfl⟩

theorem reads_word_bind {u : Text} {g : Unit → Scan β} :
    (word u >>= g).Reads pre w post b ↔ ∃ v, w = u ++ v ∧ (g ()).Reads (pre ++ u) v post b := by
  simp only [reads_bind, reads_word]
  constructor
  · rintro ⟨_, v, _, rfl, rfl, h⟩
    exact ⟨v, rfl, h⟩
  · rintro ⟨v, rfl, h⟩
    exact ⟨u, v, (), rfl, rfl, h⟩

theorem reads_many_bind {g : Unit → Scan β} : (many p >>= g).Reads pre w post b ↔
    ∃ u v, w = u ++ v ∧ (∀ c ∈ u, p c) ∧ (g ()).Reads (pre ++ u) v post b := by
  simp only [reads_bind, reads_many]
  constructor
  · rintro ⟨u, v, _, h⟩
    exact ⟨u, v, h⟩
  · rintro ⟨u, v, h⟩
    exact ⟨u, v, (), h⟩

@[simp] theorem reads_lineStart {o : Unit} :
    lineStart.Reads pre w post o ↔ w = [] ∧ pre.AtLineStart := by
  rw [lineStart, reads_holds, before_between, Text.AtLineStart, ← List.head?_reverse]
  cases pre.reverse <;> simp

@[simp] theorem reads_lineEnd {o : Unit} :
    lineEnd.Reads pre w post o ↔ w = [] ∧ post.AtLineEnd := by
  rw [lineEnd, reads_holds, after_between, Text.AtLineEnd]
  constructor
  · rintro ⟨rfl, h⟩
    cases post <;> simp_all
  · rintro ⟨rfl, h⟩
    cases post <;> simp_all

@[simp] theorem reads_wordEdge {o : Unit} : wordEdge.Reads pre w post o ↔
    w = [] ∧ pre.getLast?.any Text.isWord ≠ post.head?.any Text.isWord := by
  rw [wordEdge, reads_holds, before_between, after_between, List.head?_reverse]
  constructor
  · rintro ⟨rfl, h⟩
    exact ⟨rfl, by simpa using h⟩
  · rintro ⟨rfl, h⟩
    exact ⟨rfl, by simpa using h⟩

/-! ### What composed scans prefer to read -/

theorem ReadsFirst.of_unique (h : m.Reads pre w post a)
    (hu : ∀ w' post' a', w ++ post = w' ++ post' → m.Reads pre w' post' a' → w' = w ∧ a' = a) :
    m.ReadsFirst pre w post a := by
  have hne : ¬ m.Fails pre (w ++ post) := fun hf => fails_iff.1 hf w post a rfl h
  obtain ⟨w', post', a', ht, hf⟩ := exists_readsFirst hne
  obtain ⟨rfl, rfl⟩ := hu w' post' a' ht hf.reads
  obtain rfl := List.append_cancel_left ht
  exact hf

theorem ReadsFirst.bind {u v : Text} (h : m.ReadsFirst pre u (v ++ post) a)
    (hf : (f a).ReadsFirst (pre ++ u) v post b) : (m >>= f).ReadsFirst pre (u ++ v) post b := by
  obtain ⟨rest, hr⟩ := List.head?_eq_some_iff.1 h
  rw [ReadsFirst, first?, run_bind, List.append_assoc, hr, List.flatMap_cons, List.head?_append]
  simp only [ReadsFirst, first?] at hf
  simp [hf]

theorem readsFirst_pure : (pure a : Scan α).ReadsFirst pre [] post a := by
  show [(a, between pre ([] ++ post))].head? = _
  simp

theorem readsFirst_word {u : Text} : (word u).ReadsFirst pre u post () :=
  .of_unique (by simp) fun _ _ _ _ h => ⟨reads_word.1 h, rfl⟩

theorem readsFirst_char (hx : p x) : (char p).ReadsFirst pre [x] post x :=
  .of_unique (by simpa) fun _ _ _ ht h => by
    obtain ⟨rfl, -⟩ := reads_char.1 h
    obtain ⟨rfl, -⟩ := List.cons.inj ht
    exact ⟨rfl, rfl⟩

theorem readsFirst_here : here.ReadsFirst pre [] post (between pre post) :=
  .of_unique (by simp) fun _ _ _ ht h => by
    obtain ⟨rfl, rfl⟩ := reads_here.1 h
    exact ⟨rfl, by rw [← ht, List.nil_append]⟩

theorem readsFirst_lineStart (h : pre.AtLineStart) :
    lineStart.ReadsFirst pre [] post () :=
  .of_unique (reads_lineStart.2 ⟨rfl, h⟩) fun _ _ _ _ h => ⟨(reads_lineStart.1 h).1, rfl⟩

theorem readsFirst_wordEdge
    (h : pre.getLast?.any Text.isWord ≠ post.head?.any Text.isWord) :
    wordEdge.ReadsFirst pre [] post () :=
  .of_unique (reads_wordEdge.2 ⟨rfl, h⟩) fun _ _ _ _ h => ⟨(reads_wordEdge.1 h).1, rfl⟩

theorem run_map (g : α → β) (c : Cursor) : (g <$> m).run c = (m.run c).map fun r => (g r.1, r.2) := by
  show (m.run c).flatMap (fun r => [(g r.1, r.2)]) = _
  rw [List.map_eq_flatMap]

theorem readsFirst_map {g : α → β} :
    (g <$> m).ReadsFirst pre w post b ↔ ∃ a, m.ReadsFirst pre w post a ∧ b = g a := by
  simp only [ReadsFirst, first?, run_map, List.head?_map, Option.map_eq_some_iff, Prod.mk.injEq,
    Prod.exists]
  constructor
  · rintro ⟨a, d, h, rfl, rfl⟩
    exact ⟨a, h, rfl⟩
  · rintro ⟨a, h, rfl⟩
    exact ⟨a, _, h, rfl, rfl⟩

theorem ReadsFirst.or_left (h : m.ReadsFirst pre w post a) : (m <|> n).ReadsFirst pre w post a := by
  show (m.run _ ++ n.run _).head? = _
  rw [ReadsFirst, first?] at h
  simp [h]

theorem ReadsFirst.or_right (hm : m.Fails pre (w ++ post)) (h : n.ReadsFirst pre w post a) :
    (m <|> n).ReadsFirst pre w post a := by
  show (m.run _ ++ n.run _).head? = _
  rw [show m.run _ = [] from hm]
  exact h

theorem ReadsFirst.maybe_some (h : m.ReadsFirst pre w post a) :
    m.maybe.ReadsFirst pre w post (some a) :=
  (readsFirst_map.2 ⟨a, h, rfl⟩).or_left

theorem readsFirst_maybe_none (h : m.Fails pre post) : m.maybe.ReadsFirst pre [] post none := by
  refine ReadsFirst.or_right ?_ readsFirst_pure
  rw [Fails, run_map, List.nil_append, show m.run _ = [] from h, List.map_nil]

/-- An optional part is left out if the rest cannot be read behind it. -/
theorem ReadsFirst.maybe_bind_none {f : Option α → Scan β}
    (hm : ∀ u v a, w ++ post = u ++ v → m.Reads pre u v a → (f (some a)).Fails (pre ++ u) v)
    (h : (f none).ReadsFirst pre w post b) : (m.maybe >>= f).ReadsFirst pre w post b := by
  have hnil : ((some <$> m) >>= f).run (between pre (w ++ post)) = [] := by
    rw [run_bind, run_map, List.flatMap_map, List.flatMap_eq_nil_iff]
    rintro ⟨a, d⟩ hd
    obtain ⟨u, v, ht, rfl⟩ := mem_run_between hd
    exact hm u v a ht (by rwa [Reads, ← ht])
  show (((some <$> m).run _ ++ [(none, _)]).flatMap fun r : Option α × Cursor =>
    (f r.1).run r.2).head? = _
  rw [List.flatMap_append, ← run_bind, hnil, List.nil_append, List.flatMap_singleton]
  exact h

theorem ReadsFirst.text (h : m.ReadsFirst pre w post a) : m.text.ReadsFirst pre w post w := by
  show ((m.run _).map fun r => (_, r.2)).head? = _
  rw [List.head?_map, show (m.run _).head? = _ from h, Option.map_some, upTo_between]

/-- The ways of a repetition that lie around one of them: some read less, and the others more. -/
theorem exists_few {u : Text} (hu : ∀ c ∈ u, p c) (pre t : Text) :
    ∃ near far, (few p).run (between pre (u ++ t)) = near ++ ((), between (pre ++ u) t) :: far ∧
      ∀ r ∈ far, ∃ s v, t = s ++ v ∧ s ≠ [] ∧ (∀ c ∈ s, p c) ∧ r = ((), between (pre ++ u ++ s) v) := by
  induction u generalizing pre with
  | nil =>
    cases t with
    | nil => exact ⟨[], [], by simp [few, stops, between], by simp⟩
    | cons y t =>
      by_cases hy : p y
      · refine ⟨[], (few p).run (between (pre ++ [y]) t), ?_, ?_⟩
        · simp [few, stops, between, hy]
        · intro r hr
          obtain ⟨s, v, rfl, hd⟩ := mem_run_between hr
          have hs : (few p).Reads (pre ++ [y]) s v r.1 := by rw [Reads, ← hd]; exact hr
          refine ⟨y :: s, v, rfl, by simp, ?_, by rw [← Prod.eta r, hd]; simp⟩
          simpa [hy] using reads_few.1 hs
      · exact ⟨[], [], by simp [few, stops, between, hy], by simp⟩
  | cons y u ih =>
    obtain ⟨near, far, heq, hfar⟩ := ih (fun c hc => hu c (by simp [hc])) (pre ++ [y])
    refine ⟨((), between pre (y :: (u ++ t))) :: near, far, ?_, by simpa using hfar⟩
    have hy : p y := hu y (by simp)
    have hstep : (few p).run (between pre (y :: u ++ t)) =
        ((), between pre (y :: (u ++ t))) :: (few p).run (between (pre ++ [y]) (u ++ t)) := by
      simp [few, stops, between, hy]
    rw [hstep, heq]
    simp

theorem readsFirst_many (hw : ∀ c ∈ w, p c) (hp : ∀ c ∈ post.head?, ¬ p c) :
    (many p).ReadsFirst pre w post () := by
  obtain ⟨near, far, heq, hfar⟩ := exists_few hw pre post
  have hnil : far = [] := by
    refine List.eq_nil_iff_forall_not_mem.2 fun r hr => ?_
    obtain ⟨s, v, rfl, hs, hsp, -⟩ := hfar r hr
    obtain ⟨c, s, rfl⟩ := List.exists_cons_of_ne_nil hs
    exact hp c (by simp) (hsp c (by simp))
  show ((few p).run _).reverse.head? = _
  rw [heq, hnil]
  simp

/-- A repetition stops at the last place from which the rest can be read. -/
theorem ReadsFirst.many_bind {v : Text} {f : Unit → Scan β} (hw : ∀ c ∈ w, p c)
    (hf : (f ()).ReadsFirst (pre ++ w) v post b)
    (hlong : ∀ u s, v ++ post = u ++ s → u ≠ [] → (∀ c ∈ u, p c) → (f ()).Fails (pre ++ w ++ u) s) :
    (many p >>= f).ReadsFirst pre (w ++ v) post b := by
  obtain ⟨near, far, heq, hfar⟩ := exists_few hw pre (v ++ post)
  have hnil : far.reverse.flatMap (fun r => (f r.1).run r.2) = [] := by
    refine List.flatMap_eq_nil_iff.2 fun r hr => ?_
    obtain ⟨s, t, ht, hs, hsp, rfl⟩ := hfar r (List.mem_reverse.1 hr)
    exact hlong s t ht hs hsp
  obtain ⟨rest, hrest⟩ := List.head?_eq_some_iff.1 hf
  show (((few p).run _).reverse.flatMap fun r => (f r.1).run r.2).head? = _
  rw [List.append_assoc, heq, List.reverse_append, List.reverse_cons, List.append_assoc, List.flatMap_append,
    hnil, List.nil_append, List.flatMap_append, List.flatMap_singleton]
  simp [hrest]

theorem readsFirst_many1 (hne : w ≠ []) (hw : ∀ c ∈ w, p c)
    (hp : ∀ c ∈ post.head?, ¬ p c) : (many1 p).ReadsFirst pre w post () := by
  obtain ⟨x, v, rfl⟩ := List.exists_cons_of_ne_nil hne
  exact ReadsFirst.bind (u := [x]) (readsFirst_char (hw x (by simp)))
    (readsFirst_many (fun c hc => hw c (by simp [hc])) hp)

/-! ### What composed scans cannot read -/

theorem Fails.bind (h : m.Fails pre t) : (m >>= f).Fails pre t := by
  rw [Fails, run_bind, show m.run _ = [] from h, List.flatMap_nil]

theorem fails_map {g : α → β} (h : m.Fails pre t) : (g <$> m).Fails pre t := by
  rw [Fails, run_map, show m.run _ = [] from h, List.map_nil]

theorem fails_word {u : Text} (h : ¬ u <+: t) : (word u).Fails pre t := by
  rw [fails_iff]
  rintro w post o rfl hw
  exact h (by rw [reads_word.1 hw]; exact List.prefix_append ..)

end Scan
end AppsScript
