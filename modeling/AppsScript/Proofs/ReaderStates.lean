import AppsScript.Proofs.Reading
import AppsScript.Source.Nesting

/-!
# States of the reader of code

`codeChars` and `startsAt` together, read one character at a time: an automaton that knows what the next
character belongs to (`Spot`) and how many blocks are open. The lines at the top level are those in front of
which it is back in the state it starts in (`mem_topLevelStarts`).
-/

namespace AppsScript.Source

open Text

variable {t u v w pre post : Text} {c q : Char} {i j d : Nat} {mode : Mode}

/-- What the next character of a text belongs to. -/
inductive Spot
  | code
  /-- Code behind a `/`, which opens a comment together with the right next character. -/
  | slash
  | literal (quote : Char)
  /-- A literal behind a backslash, which takes the next character along. -/
  | escape (quote : Char)
  | lineComment
  | blockComment
  /-- A block comment behind a `*`, which closes it together with the right next character. -/
  | star
deriving DecidableEq

/-- What a reader of code knows behind a text. -/
structure State where
  spot : Spot
  /-- The number of open blocks; a closing brace without an opening one does not count. -/
  depth : Nat
deriving DecidableEq

namespace State

/-- Outside everything. -/
def start : State := ⟨.code, 0⟩

/-- The state behind a character of code. -/
def behindCode (depth : Nat) (c : Char) : State :=
  if c = '\x7b' then ⟨.code, depth + 1⟩
  else if c = '\x7d' then ⟨.code, depth - 1⟩
  else if c = '/' then ⟨.slash, depth⟩
  else if isQuote c then ⟨.literal c, depth⟩
  else ⟨.code, depth⟩

def step : State → Char → State
  | ⟨.code, d⟩, c => behindCode d c
  | ⟨.slash, d⟩, c =>
    if c = '/' then ⟨.lineComment, d⟩ else if c = '*' then ⟨.blockComment, d⟩ else behindCode d c
  | ⟨.literal q, d⟩, c => ⟨if c = '\\' then .escape q else if c = q then .code else .literal q, d⟩
  | ⟨.escape q, d⟩, _ => ⟨.literal q, d⟩
  | ⟨.lineComment, d⟩, c => ⟨if c = '\n' then .code else .lineComment, d⟩
  | ⟨.blockComment, d⟩, c => ⟨if c = '*' then .star else .blockComment, d⟩
  | ⟨.star, d⟩, c => ⟨if c = '/' then .code else if c = '*' then .star else .blockComment, d⟩

def after (s : State) (t : Text) : State := t.foldl step s

@[simp] theorem after_nil (s : State) : s.after [] = s := rfl
@[simp] theorem after_cons (s : State) (c : Char) (t : Text) : s.after (c :: t) = (s.step c).after t := rfl

@[simp] theorem after_append (s : State) (t u : Text) : s.after (t ++ u) = (s.after t).after u :=
  List.foldl_append

end State

open State

/-! ### The lines at the top level -/

/-- A line that the reader comes to outside everything begins at offset `j` of `t`, which itself stands at offset
`i` and is read from `s` on. -/
def BeginsAt (s : State) (i : Nat) (t : Text) (j : Nat) : Prop :=
  ∃ u v, t = u ++ '\n' :: v ∧ j = i + u.length + 1 ∧ s.after (u ++ ['\n']) = start

theorem not_beginsAt_nil {s : State} : ¬ BeginsAt s i [] j := by
  rintro ⟨u, v, h, -⟩
  simp at h

theorem beginsAt_cons {s : State} : BeginsAt s i (c :: t) j ↔
    c = '\n' ∧ j = i + 1 ∧ s.step c = start ∨ BeginsAt (s.step c) (i + 1) t j := by
  constructor
  · rintro ⟨u, v, h, rfl, hs⟩
    cases u with
    | nil =>
      obtain ⟨rfl, -⟩ := List.cons.inj h
      exact .inl ⟨rfl, rfl, hs⟩
    | cons x u =>
      obtain ⟨rfl, rfl⟩ := List.cons.inj h
      exact .inr ⟨u, v, rfl, by simp [Nat.add_assoc, Nat.add_comm 1], hs⟩
  · rintro (⟨rfl, rfl, hs⟩ | ⟨u, v, rfl, rfl, hs⟩)
    · exact ⟨[], t, rfl, rfl, hs⟩
    · exact ⟨c :: u, v, rfl, by simp [Nat.add_assoc, Nat.add_comm 1], hs⟩

/-- The spot in the middle of a text that a reader without lookahead is in. -/
def Mode.spot : Mode → Spot
  | .code => .code
  | .literal q => .literal q
  | .lineComment => .lineComment
  | .blockComment => .blockComment

theorem Mode.spot_behind (c : Char) : (Mode.behind c).spot = if isQuote c then .literal c else .code := by
  rw [Mode.behind]
  split_ifs <;> rfl

/-- A `/` that opens no comment is a character of code like others. -/
theorem beginsAt_slash (h : ∀ c ∈ t.head?, c ≠ '/' ∧ c ≠ '*') :
    BeginsAt ⟨.slash, d⟩ i t j ↔ BeginsAt ⟨.code, d⟩ i t j := by
  cases t with
  | nil => simp only [not_beginsAt_nil]
  | cons c t =>
    obtain ⟨h₁, h₂⟩ := h c rfl
    simp only [beginsAt_cons, step, if_neg h₁, if_neg h₂]

/-- A `*` that closes no comment is a character of it like others. -/
theorem beginsAt_star (h : ∀ c ∈ t.head?, c ≠ '/') :
    BeginsAt ⟨.star, d⟩ i t j ↔ BeginsAt ⟨.blockComment, d⟩ i t j := by
  cases t with
  | nil => simp only [not_beginsAt_nil]
  | cons c t => simp only [beginsAt_cons, step, if_neg (h c rfl)]

/-- A literal is between quotes. -/
def Spot.IsSound : Spot → Prop
  | .literal q | .escape q => isQuote q = true
  | _ => True

theorem Spot.isSound_behind (c : Char) : (Mode.behind c).spot.IsSound := by
  rw [Mode.spot_behind]
  split_ifs with hc
  · exact hc
  · trivial

theorem Spot.isSound_quote (hq : isQuote q = true) (c : Char) : (if c = q then Mode.code else .literal q).spot.IsSound := by
  split_ifs
  · trivial
  · exact hq

theorem mem_startsAt (hmode : mode.spot.IsSound) :
    j ∈ startsAt d (codeCharsFrom mode i t) ↔ BeginsAt ⟨mode.spot, d⟩ i t j := by
  fun_induction codeCharsFrom mode i t generalizing d with
  | case1 mode i => simp only [not_beginsAt_nil, startsAt, List.not_mem_nil]
  | case2 i cs ih => simp [ih trivial, beginsAt_cons, Mode.spot, step, behindCode]
  | case3 i cs ih => simp [ih trivial, beginsAt_cons, Mode.spot, step, behindCode]
  | case4 i c cs h₁ h₂ ih =>
    have hbehind := Spot.isSound_behind c
    rw [startsAt, beginsAt_cons, Mode.spot, step, behindCode]
    by_cases hopen : c = '\x7b'
    · subst hopen
      simp [ih hbehind, Mode.spot_behind, isQuote]
    by_cases hclose : c = '\x7d'
    · subst hclose
      simp [ih hbehind, Mode.spot_behind, isQuote]
    by_cases hslash : c = '/'
    · subst hslash
      -- No comment starts here, so what is next is read as behind any other character.
      have hcs : ∀ x ∈ cs.head?, x ≠ '/' ∧ x ≠ '*' := by
        intro x hx
        obtain ⟨cs, rfl⟩ := List.head?_eq_some_iff.1 hx
        exact ⟨fun h => h₁ cs rfl (by rw [h]), fun h => h₂ cs rfl (by rw [h])⟩
      simp [ih hbehind, Mode.spot_behind, isQuote, beginsAt_slash hcs]
    by_cases hfeed : c = '\n'
    · subst hfeed
      by_cases hd : d = 0 <;> simp [ih hbehind, Mode.spot_behind, isQuote, start, hd]
    · simp only [if_neg hopen, if_neg hclose, if_neg hslash, hfeed, false_and, if_false, false_or, ih hbehind,
        Mode.spot_behind]
      split_ifs <;> rfl
  | case5 q i c cs ih => simp [ih hmode, beginsAt_cons, Mode.spot, step, start]
  | case6 q i c cs h ih =>
    have hq : q ≠ '\n' := by
      rintro rfl
      exact absurd (show isQuote '\n' = true from hmode) (by decide)
    by_cases hback : c = '\\'
    · -- a backslash at the end of the text
      obtain rfl : cs = [] := by
        cases cs with
        | nil => rfl
        | cons x cs => exact (h x cs hback rfl).elim
      simp [hback, codeCharsFrom, startsAt, beginsAt_cons, not_beginsAt_nil]
    · rw [ih (Spot.isSound_quote hmode c), Mode.spot, beginsAt_cons, step, if_neg hback]
      split_ifs with hc
      · simp [hc, hq, Mode.spot]
      · simp [Mode.spot, start]
  | case7 i cs ih => by_cases hd : d = 0 <;> simp [ih trivial, beginsAt_cons, Mode.spot, step, start, startsAt, hd]
  | case8 i c cs h ih => simp [ih trivial, beginsAt_cons, Mode.spot, step, h]
  | case9 i cs ih => simp [ih trivial, beginsAt_cons, Mode.spot, step]
  | case10 i c cs h ih =>
    by_cases hstar : c = '*'
    · have hcs : ∀ x ∈ cs.head?, x ≠ '/' := by
        intro x hx
        obtain ⟨cs, rfl⟩ := List.head?_eq_some_iff.1 hx
        exact fun hx => h cs hstar (by rw [hx])
      simp [ih trivial, beginsAt_cons, Mode.spot, step, hstar, beginsAt_star hcs]
    · simp [ih trivial, beginsAt_cons, Mode.spot, step, hstar, start]

/-- A line begins at the top level if the reader comes to it outside everything. -/
theorem mem_topLevelStarts (hpre : pre.AtLineStart) :
    pre.length ∈ topLevelStarts (pre ++ post) ↔ start.after pre = start := by
  have hsound : Mode.code.spot.IsSound := trivial
  have hbegins : pre.length ∈ startsAt 0 (codeChars (pre ++ post)) ↔ BeginsAt start 0 (pre ++ post) pre.length :=
    mem_startsAt hsound
  rw [topLevelStarts, List.mem_cons, hbegins]
  rcases List.eq_nil_or_concat pre with rfl | ⟨u, c, rfl⟩
  · simp
  · obtain rfl := hpre c (by simp)
    constructor
    · rintro (h | ⟨v, w, h, hlen, hs⟩)
      · simp at h
      · have hv : u = v := by
          have hlen' : u.length = v.length := by simpa using hlen
          have htake : u ++ '\n' :: post = v ++ '\n' :: w := by simpa using h
          exact (List.append_inj htake hlen').1
        rw [List.concat_eq_append, hv, hs]
    · intro h
      exact .inr ⟨u, post, by simp, by simp, by simpa using h⟩

/-! ### Characters that change nothing -/

/-- A character that is no part of a comment, no quote and no brace. -/
def isSilent (c : Char) : Bool := !(isQuote c || c == '/' || c == '\x7b' || c == '\x7d')

theorem isSilent_iff : isSilent c = true ↔ isQuote c = false ∧ c ≠ '/' ∧ c ≠ '\x7b' ∧ c ≠ '\x7d' := by
  simp [isSilent, and_assoc]

theorem behindCode_of_isSilent (hc : isSilent c) : behindCode d c = ⟨.code, d⟩ := by
  obtain ⟨hquote, hslash, hopen, hclose⟩ := isSilent_iff.1 hc
  simp [behindCode, hquote, hslash, hopen, hclose]

theorem after_of_isSilent (ht : ∀ c ∈ t, isSilent c) : (⟨.code, d⟩ : State).after t = ⟨.code, d⟩ := by
  induction t with
  | nil => rfl
  | cons c t ih =>
    rw [after_cons, step, behindCode_of_isSilent (ht c (by simp)), ih fun x hx => ht x (by simp [hx])]

theorem isSilent_of_isIndent (hc : isIndent c) : isSilent c := by
  simp only [isIndent, Bool.or_eq_true, beq_iff_eq] at hc
  rcases hc with rfl | rfl <;> decide

theorem isSilent_of_isName (hc : isName c) : isSilent c := by
  have hne {x : Char} (hx : isName x = false) : c ≠ x := by
    rintro rfl
    exact absurd hc (by simp [hx])
  have hquote : isQuote c = false := by
    simp only [isQuote, Bool.or_eq_false_iff, beq_eq_false_iff_ne]
    exact ⟨⟨hne (by decide), hne (by decide)⟩, hne (by decide)⟩
  exact isSilent_iff.2 ⟨hquote, hne (by decide), hne (by decide), hne (by decide)⟩

/-- The next character is looked at by itself. -/
def Spot.IsSettled : Spot → Prop
  | .slash | .escape _ | .star => False
  | _ => True

variable {s : State}

theorem isSound_step (hs : s.spot.IsSound) : (s.step c).spot.IsSound := by
  have hcode (d : Nat) : (behindCode d c).spot.IsSound := by
    rw [behindCode]
    split_ifs with _ _ _ hc
    · trivial
    · trivial
    · trivial
    · exact hc
    · trivial
  obtain ⟨spot, d⟩ := s
  cases spot with
  | code => exact hcode d
  | slash =>
    rw [step]
    split_ifs
    · trivial
    · trivial
    · exact hcode d
  | literal q =>
    rw [step]
    split_ifs
    · exact hs
    · trivial
    · exact hs
  | escape q => exact hs
  | lineComment => rw [step]; split_ifs <;> trivial
  | blockComment => rw [step]; split_ifs <;> trivial
  | star => rw [step]; split_ifs <;> trivial

theorem isSound_after (hs : s.spot.IsSound) : (s.after t).spot.IsSound := by
  induction t generalizing s with
  | nil => exact hs
  | cons c t ih => exact ih (isSound_step hs)

/-- No character pairs up with a parenthesis. -/
theorem isSettled_step_close (s : State) : (s.step ')').spot.IsSettled := by
  obtain ⟨spot, d⟩ := s
  cases spot with
  | literal q =>
    rw [step]
    split_ifs
    · contradiction
    · trivial
    · trivial
  | code => trivial
  | slash => trivial
  | escape q => trivial
  | lineComment => trivial
  | blockComment => trivial
  | star => trivial

/-- A space, a tab or a character of an arrow. -/
def isFiller (c : Char) : Bool := isIndent c || c == '=' || c == '>'

theorem step_of_isFiller (hs : s.spot.IsSettled) (hsound : s.spot.IsSound) (hc : isFiller c) : s.step c = s := by
  have hcases : c = ' ' ∨ c = '\t' ∨ c = '=' ∨ c = '>' := by simpa [isFiller, isIndent, or_assoc] using hc
  obtain ⟨spot, d⟩ := s
  cases spot with
  | code => exact behindCode_of_isSilent (by rcases hcases with rfl | rfl | rfl | rfl <;> decide)
  | literal q =>
    have hq : isQuote q = true := hsound
    have hback : c ≠ '\\' := by rcases hcases with rfl | rfl | rfl | rfl <;> decide
    have hne : c ≠ q := by
      rintro rfl
      rcases hcases with rfl | rfl | rfl | rfl <;> simp [isQuote] at hq
    simp [step, hback, hne]
  | lineComment => rcases hcases with rfl | rfl | rfl | rfl <;> rfl
  | blockComment => rcases hcases with rfl | rfl | rfl | rfl <;> rfl
  | slash => exact hs.elim
  | escape q => exact hs.elim
  | star => exact hs.elim

theorem after_of_isFiller (hs : s.spot.IsSettled) (hsound : s.spot.IsSound) (ht : ∀ c ∈ t, isFiller c) :
    s.after t = s := by
  induction t with
  | nil => rfl
  | cons c t ih =>
    rw [after_cons, step_of_isFiller hs hsound (ht c (by simp)), ih fun x hx => ht x (by simp [hx])]

end AppsScript.Source
