import AppsScript.Proofs.LineEdits

/-!
# A line in two texts

A scan that no part of which reads a line feed reads the same in a line whatever stands around the line
(`Moves.readsFirst`). This is shown part by part: such a scan has the same ways from the same places, in the same
order.
-/

namespace AppsScript.Scan

open Text Cursor

variable {α β γ δ : Type} {p : Char → Bool} {w x y post t : Text}

/-- A line that stands in two texts. -/
structure SameLine where
  line : Text
  pre : Text
  pre' : Text
  post : Text
  post' : Text
  notMem : '\n' ∉ line
  start : pre.AtLineStart
  start' : pre'.AtLineStart
  stop : post.AtLineEnd
  stop' : post'.AtLineEnd

variable {l : SameLine} {c c' d d' : Cursor}

/-- The same place of the line in both texts. -/
def SameLine.Alike (l : SameLine) (c d : Cursor) : Prop :=
  ∃ x y, l.line = x ++ y ∧ c = between (l.pre ++ x) (y ++ l.post) ∧ d = between (l.pre' ++ x) (y ++ l.post')

/-- From the same places both scans have the same ways, in the same order, with results that `A` relates. -/
structure Moves (l : SameLine) (A : α → β → Prop) (m : Scan α) (n : Scan β) : Prop where
  ways : ∀ {c d}, l.Alike c d → List.Forall₂ (fun r s => A r.1 s.1 ∧ l.Alike r.2 s.2) (m.run c) (n.run d)

variable {A : α → β → Prop} {B : γ → δ → Prop} {m m' : Scan α} {n n' : Scan β} {f : α → Scan γ} {g : β → Scan δ}

theorem Moves.pure {a : α} {b : β} (h : A a b) : Moves l A (Pure.pure a) (Pure.pure b) :=
  ⟨fun hcd => .cons ⟨h, hcd⟩ .nil⟩

theorem Moves.bind (hm : Moves l A m n) (hf : ∀ a b, A a b → Moves l B (f a) (g b)) :
    Moves l B (m >>= f) (n >>= g) where
  ways hcd := by
    rw [run_bind, run_bind]
    exact List.rel_flatMap (hm.ways hcd) fun _ _ h => (hf _ _ h.1).ways h.2

theorem Moves.or (hm : Moves l A m n) (hm' : Moves l A m' n') : Moves l A (m <|> m') (n <|> n') :=
  ⟨fun hcd => List.rel_append (hm.ways hcd) (hm'.ways hcd)⟩

theorem Moves.maybe {m n : Scan α} (hm : Moves l Eq m n) : Moves l Eq m.maybe n.maybe :=
  (hm.bind fun _ _ h => .pure (congrArg some h)).or (.pure rfl)

theorem SameLine.Alike.upTo_eq (h : l.Alike c d) (h' : l.Alike c' d') : c.upTo c' = d.upTo d' := by
  obtain ⟨x, y, hl, rfl, rfl⟩ := h
  obtain ⟨u, v, hl', rfl, rfl⟩ := h'
  have hle : u.length - x.length ≤ y.length := by
    have hlen := congrArg List.length hl
    have hlen' := congrArg List.length hl'
    rw [List.length_append] at hlen hlen'
    omega
  simp only [Cursor.upTo, after_between, offset_between, List.length_append, Nat.add_sub_add_left]
  rw [List.take_append_of_le_length hle, List.take_append_of_le_length hle]

theorem Moves.text (hm : Moves l A m n) : Moves l Eq m.text n.text :=
  ⟨fun hcd => List.rel_map (fun _ _ h => ⟨hcd.upTo_eq h.2, h.2⟩) (hm.ways hcd)⟩

theorem moves_here : Moves l l.Alike here here := ⟨fun hcd => .cons ⟨hcd, hcd⟩ .nil⟩

theorem moves_holds {q : Cursor → Bool} (hq : ∀ {c d}, l.Alike c d → q c = q d) : Moves l Eq (holds q) (holds q) where
  ways {c d} hcd := by
    show List.Forall₂ _ (if q c then [((), c)] else []) (if q d then [((), d)] else [])
    rw [← hq hcd]
    split_ifs
    · exact .cons ⟨rfl, hcd⟩ .nil
    · exact .nil

theorem moves_lineStart : Moves l Eq lineStart lineStart := by
  refine moves_holds ?_
  rintro _ _ ⟨x, y, -, rfl, rfl⟩
  rcases List.eq_nil_or_concat x with rfl | ⟨x, z, rfl⟩
  · have hstart {pre post : Text} (h : pre.AtLineStart) : lineStart.Reads (pre ++ []) [] post () :=
      reads_lineStart.2 ⟨rfl, by rwa [List.append_nil]⟩
    exact (reads_holds.1 (hstart l.start)).2.trans (reads_holds.1 (hstart l.start')).2.symm
  · simp

theorem moves_lineEnd : Moves l Eq lineEnd lineEnd := by
  refine moves_holds ?_
  rintro _ _ ⟨x, y, -, rfl, rfl⟩
  cases y with
  | nil =>
    have hstop {pre post : Text} (h : post.AtLineEnd) : lineEnd.Reads pre [] post () := reads_lineEnd.2 ⟨rfl, h⟩
    exact (reads_holds.1 (hstop l.stop)).2.trans (reads_holds.1 (hstop l.stop')).2.symm
  | cons z y => simp

theorem SameLine.Alike.next {z : Char} (hl : l.line = x ++ z :: y) :
    l.Alike (between (l.pre ++ x ++ [z]) (y ++ l.post)) (between (l.pre' ++ x ++ [z]) (y ++ l.post')) :=
  ⟨x ++ [z], y, by simp [hl], by simp, by simp⟩

/-- The places that lie behind a place of the line over characters of a class are places of the line. -/
theorem alike_stops (hp : p '\n' = false) (hl : l.line = x ++ y) :
    List.Forall₂ l.Alike (stops p (l.pre ++ x).length (l.pre ++ x).reverse (y ++ l.post))
      (stops p (l.pre' ++ x).length (l.pre' ++ x).reverse (y ++ l.post')) := by
  have hhere : l.Alike (between (l.pre ++ x) (y ++ l.post)) (between (l.pre' ++ x) (y ++ l.post')) :=
    ⟨x, y, hl, rfl, rfl⟩
  induction y generalizing x with
  | nil =>
    have hstops {pre post : Text} (h : post.AtLineEnd) :
        stops p pre.length pre.reverse ([] ++ post) = [between pre ([] ++ post)] := by
      cases post with
      | nil => rfl
      | cons z post =>
        obtain rfl := h z rfl
        simp [stops, hp, between]
    rw [hstops l.stop, hstops l.stop']
    exact .cons hhere .nil
  | cons z y ih =>
    rw [List.cons_append, List.cons_append, stops, stops]
    refine .cons hhere ?_
    split_ifs
    · have hrest := ih (x := x ++ [z]) (by simp [hl]) (by simpa using SameLine.Alike.next hl)
      simpa [Nat.add_assoc] using hrest
    · exact .nil

theorem moves_few (hp : p '\n' = false) : Moves l Eq (few p) (few p) where
  ways := by
    rintro _ _ ⟨x, y, hl, rfl, rfl⟩
    exact List.rel_map (fun _ _ h => ⟨rfl, h⟩) (alike_stops hp hl)

theorem moves_many (hp : p '\n' = false) : Moves l Eq (many p) (many p) :=
  ⟨fun hcd => List.rel_reverse ((moves_few hp).ways hcd)⟩

theorem moves_char (hp : p '\n' = false) : Moves l Eq (char p) (char p) where
  ways := by
    rintro _ _ ⟨x, y, hl, rfl, rfl⟩
    cases y with
    | nil =>
      have hnil {pre post : Text} (h : post.AtLineEnd) : (char p).run (between pre ([] ++ post)) = [] := by
        cases post with
        | nil => rfl
        | cons z post =>
          obtain rfl := h z rfl
          simp [char, between, hp]
      rw [hnil l.stop, hnil l.stop']
      exact .nil
    | cons z y =>
      have hrun {pre post : Text} : (char p).run (between pre (z :: y ++ post)) =
          if p z then [(z, between (pre ++ [z]) (y ++ post))] else [] := by
        simp [char, between]
      rw [hrun, hrun]
      split_ifs
      · exact .cons ⟨rfl, .next hl⟩ .nil
      · exact .nil

theorem moves_few1 (hp : p '\n' = false) : Moves l Eq (few1 p) (few1 p) :=
  (moves_char hp).bind fun _ _ _ => moves_few hp

theorem moves_many1 (hp : p '\n' = false) : Moves l Eq (many1 p) (many1 p) :=
  (moves_char hp).bind fun _ _ _ => moves_many hp

theorem moves_word (hw : '\n' ∉ w) : Moves l Eq (word w) (word w) where
  ways := by
    rintro _ _ ⟨x, y, hl, rfl, rfl⟩
    by_cases hprefix : w <+: y
    · obtain ⟨v, rfl⟩ := hprefix
      have hrun {pre post : Text} : (word w).run (between pre (w ++ v ++ post)) = [((), between (pre ++ w) (v ++ post))] := by
        have hafter : after? w (w ++ (v ++ post)) = some (v ++ post) := after?_eq_some_iff.2 rfl
        simp [word, between, hafter]
      rw [hrun, hrun]
      exact .cons ⟨rfl, x ++ w, v, by simp [hl], by simp, by simp⟩ .nil
    · have hnil {pre post : Text} (h : post.AtLineEnd) : (word w).run (between pre (y ++ post)) = [] := by
        refine fails_word ?_
        rintro ⟨s, hs⟩
        obtain ⟨rest, rfl, -⟩ := exists_line_prefix hw h hs.symm
        exact hprefix (List.prefix_append w rest)
      rw [hnil l.stop, hnil l.stop']
      exact .nil

theorem moves_oneOf {ws : List Text} (hws : ∀ w ∈ ws, '\n' ∉ w) : Moves l Eq (oneOf ws) (oneOf ws) := by
  induction ws with
  | nil => exact ⟨fun _ => .nil⟩
  | cons w ws ih =>
    exact ((moves_word (hws w (by simp))).bind fun _ _ _ => .pure rfl).or (ih fun v hv => hws v (by simp [hv]))

theorem SameLine.alike_start (l : SameLine) :
    l.Alike (between l.pre (l.line ++ l.post)) (between l.pre' (l.line ++ l.post')) :=
  ⟨[], l.line, rfl, by simp, by simp⟩

/-- A scan that reads the whole line reads it in the other text too. -/
theorem Moves.readsFirst {m : Scan α} {a : α} (hm : Moves l Eq m m) (h : m.ReadsFirst l.pre l.line l.post a) :
    m.ReadsFirst l.pre' l.line l.post' a := by
  have hways := hm.ways l.alike_start
  obtain ⟨rest, hrest⟩ := List.head?_eq_some_iff.1 h
  rw [hrest, List.forall₂_cons_left_iff] at hways
  obtain ⟨⟨b, e⟩, rest', ⟨rfl, x, y, hl, hx, rfl⟩, -, hrun⟩ := hways
  obtain ⟨hx, hy⟩ := between_inj.1 hx
  obtain rfl : l.line = x := List.append_cancel_left hx
  obtain rfl : y = [] := by simpa using hl
  rw [ReadsFirst, first?, hrun]
  rfl

theorem Moves.fails {m : Scan α} (hm : Moves l A m n) (h : m.Fails l.pre (l.line ++ l.post)) :
    n.Fails l.pre' (l.line ++ l.post') := by
  have hways := hm.ways l.alike_start
  rwa [show m.run _ = [] from h, List.forall₂_nil_left_iff] at hways

end AppsScript.Scan
