import AppsScript.Text.Letter

/-!
# Scanning with choices

A `Scan` reads a piece of a text from some place on. It may be able to do so in several ways, which it
lists in order of preference: a repetition prefers to go on, an option prefers to be taken, the left
of two alternatives comes first. What a scan composed of others reads is then the first of its ways
in which every part succeeds. Every way ends at the place it started from or behind it
(`Scan.reaches`).

`Scan.edit` goes through a text from left to right and puts something else where a scan succeeds.
-/

namespace AppsScript

/-- A place in a text: how many characters lie before it, these, nearest first, and what lies after
it. -/
structure Cursor where
  offset : Nat
  before : List Char
  after : List Char
deriving DecidableEq

namespace Cursor

def start (text : Text) : Cursor := ⟨0, [], text⟩

/-- `d` is `c` moved forward over some characters. -/
def Reaches (c d : Cursor) : Prop :=
  ∃ w : Text, c.after = w ++ d.after ∧ d.before = w.reverse ++ c.before ∧ d.offset = c.offset + w.length

/-- The text from `c` up to a place `d` behind it. -/
def upTo (c d : Cursor) : Text := c.after.take (d.offset - c.offset)

theorem Reaches.refl (c : Cursor) : c.Reaches c := ⟨[], by simp⟩

theorem Reaches.trans {c d e : Cursor} : c.Reaches d → d.Reaches e → c.Reaches e
  | ⟨v, hv, hv', hv''⟩, ⟨w, hw, hw', hw''⟩ =>
    ⟨v ++ w, by simp [hv, hw], by simp [hv', hw'], by simp [hv'', hw'', Nat.add_assoc]⟩

theorem Reaches.cons (i : Nat) (before after : List Char) (x : Char) :
    Reaches ⟨i, before, x :: after⟩ ⟨i + 1, x :: before, after⟩ := ⟨[x], by simp⟩

end Cursor

/-- The ways of reading a piece of a text from a place on, each with its result and the place behind
the piece, in order of preference. -/
structure Scan (α : Type) where
  run : Cursor → List (α × Cursor)
  reaches : ∀ {c a d}, (a, d) ∈ run c → c.Reaches d

namespace Scan

variable {α β : Type}

instance : Monad Scan where
  pure a := ⟨fun c => [(a, c)], by
    intro c b d h
    obtain ⟨_, rfl⟩ := Prod.mk.inj (List.mem_singleton.mp h)
    exact .refl _⟩
  bind m f := ⟨fun c => (m.run c).flatMap fun r => (f r.1).run r.2, by
    intro c b d h
    obtain ⟨r, hr, hd⟩ := List.mem_flatMap.mp h
    exact (m.reaches hr).trans ((f r.1).reaches hd)⟩

def char (p : Char → Bool) : Scan Char where
  run
    | ⟨_, _, []⟩ => []
    | ⟨i, before, x :: after⟩ => if p x then [(x, ⟨i + 1, x :: before, after⟩)] else []
  reaches := by
    intro c a d h
    rcases c with ⟨i, before, _ | ⟨x, after⟩⟩
    · simp at h
    · by_cases hp : p x
      · obtain ⟨rfl, rfl⟩ := by simpa [hp] using h
        exact .cons ..
      · simp [hp] at h

def word (w : Text) : Scan Unit where
  run c :=
    match Text.after? w c.after with
    | some rest => [((), ⟨c.offset + w.length, w.reverse ++ c.before, rest⟩)]
    | none => []
  reaches := by
    intro c a d h
    cases hw : Text.after? w c.after with
    | none => simp [hw] at h
    | some rest =>
      obtain rfl := by simpa [hw] using h
      exact ⟨w, Text.after?_eq_some_iff.mp hw, rfl, rfl⟩

/-- Nothing; the result is the place. -/
def here : Scan Cursor where
  run c := [(c, c)]
  reaches h := (Prod.mk.inj (List.mem_singleton.mp h)).2 ▸ .refl _

/-- Nothing, at a place of which `p` holds. -/
def holds (p : Cursor → Bool) : Scan Unit where
  run c := if p c then [((), c)] else []
  reaches := by
    intro c a d h
    by_cases hp : p c
    · obtain rfl := by simpa [hp] using h
      exact .refl _
    · simp [hp] at h

/-- What `m` reads or else what `n` reads. -/
def or (m n : Scan α) : Scan α where
  run c := m.run c ++ n.run c
  reaches h := (List.mem_append.mp h).elim m.reaches n.reaches

instance : OrElse (Scan α) := ⟨fun m n => m.or (n ())⟩

def maybe (m : Scan α) : Scan (Option α) := (some <$> m).or (pure none)

/-- What `m` reads, as text. -/
def text (m : Scan α) : Scan Text where
  run c := (m.run c).map fun r => (c.upTo r.2, r.2)
  reaches := by
    intro c a d h
    obtain ⟨r, hr, hd⟩ := List.mem_map.mp h
    obtain ⟨_, rfl⟩ := Prod.mk.inj hd
    exact m.reaches hr

/-- The places that lie behind a place over characters of a class, nearest first. -/
def stops (p : Char → Bool) : (offset : Nat) → (before after : List Char) → List Cursor
  | i, before, [] => [⟨i, before, []⟩]
  | i, before, x :: after =>
    ⟨i, before, x :: after⟩ :: if p x then stops p (i + 1) (x :: before) after else []

theorem reaches_of_mem_stops {p : Char → Bool} :
    ∀ {after before : List Char} {i : Nat} {d : Cursor}, d ∈ stops p i before after →
      Cursor.Reaches ⟨i, before, after⟩ d
  | [], before, i, d, h => by
    rw [stops, List.mem_singleton] at h
    exact h ▸ .refl _
  | x :: after, before, i, d, h => by
    rw [stops, List.mem_cons] at h
    rcases h with rfl | h
    · exact .refl _
    · by_cases hp : p x
      · exact (Cursor.Reaches.cons ..).trans (reaches_of_mem_stops (by simpa [hp] using h))
      · simp [hp] at h

/-- Any number of characters of a class, as few as possible. -/
def few (p : Char → Bool) : Scan Unit where
  run c := (stops p c.offset c.before c.after).map fun d => ((), d)
  reaches := by
    intro c a d h
    obtain ⟨e, he, hd⟩ := List.mem_map.mp h
    exact (Prod.mk.inj hd).2 ▸ reaches_of_mem_stops he

/-- Any number of characters of a class, as many as possible. -/
def many (p : Char → Bool) : Scan Unit where
  run c := ((few p).run c).reverse
  reaches h := (few p).reaches (List.mem_reverse.mp h)

def few1 (p : Char → Bool) : Scan Unit := do
  let _ ← char p
  few p

def many1 (p : Char → Bool) : Scan Unit := do
  let _ ← char p
  many p

/-- The first of the words that stands here and lets the rest succeed. -/
def oneOf : List Text → Scan Text
  | [] => ⟨fun _ => [], by simp⟩
  | w :: ws => (do word w; pure w) <|> oneOf ws

/-- The start of the text or the place behind a line feed. -/
def lineStart : Scan Unit :=
  holds fun c => match c.before with
    | [] => true
    | x :: _ => x == '\n'

/-- The end of the text or the place before a line feed. -/
def lineEnd : Scan Unit :=
  holds fun c => match c.after with
    | [] => true
    | x :: _ => x == '\n'

/-- A place with a word character on one side only. -/
def wordEdge : Scan Unit :=
  holds fun c => (c.before.head?.any Text.isWord) != (c.after.head?.any Text.isWord)

/-- The preferred way of reading from a place. -/
def first? (m : Scan α) (c : Cursor) : Option (α × Cursor) := (m.run c).head?

/-- Goes through a text from left to right; `skip` characters have been read already. At the first
place where `m` reads something its result is put there, or with the result `none` the text is kept,
and the search goes on behind what was read. -/
def editFrom (m : Scan (Option Text)) :
    (skip offset : Nat) → (before after : List Char) → Text
  | _, _, _, [] => []
  | skip + 1, i, before, x :: after => editFrom m skip (i + 1) (x :: before) after
  | 0, i, before, x :: after =>
    let here : Cursor := ⟨i, before, x :: after⟩
    match m.first? here with
    | none => x :: editFrom m 0 (i + 1) (x :: before) after
    | some (edit, d) =>
      match d.offset - i with
      | 0 => x :: editFrom m 0 (i + 1) (x :: before) after
      | skip + 1 => edit.getD (here.upTo d) ++ editFrom m skip (i + 1) (x :: before) after

/-- The text with every piece that `m` reads, from left to right, edited as `m` says. -/
def edit (m : Scan (Option Text)) (text : Text) : Text := editFrom m 0 0 [] text

/-- The text with every piece that `m` reads, from left to right, replaced by what `m` says. -/
def replace (m : Scan Text) (text : Text) : Text := edit (some <$> m) text

end Scan

end AppsScript
