import AppsScript.Text.Basic

/-!
# Path patterns

Whether a path matches a pattern with wildcards (`Glob.matches?`). Both are read byte by byte:

* `*` stands for any bytes but `/`, `**` as a whole segment for any number of segments,
* `?` stands for one byte but `/`, `[…]` for one of a class, `\` takes the byte behind it literally,
* `{…,…}` stands for one of its alternatives,
* each `!` at the start turns the answer round.

A pattern is tried from left to right. At a wildcard the search notes how to go on if the rest does not
match with it standing for what it stands for so far (`Retry`). Alternatives are tried in order, each
together with everything behind the braces; how many may be under way at once is limited.
-/

namespace AppsScript.Glob

abbrev byte (c : Char) : UInt8 := c.val.toUInt8

/-- A place in a pattern: the bytes behind it, the nearest first, and those ahead. -/
structure Place where
  behind : List UInt8
  ahead : List UInt8
deriving DecidableEq

namespace Place

def position (p : Place) : Nat := p.behind.length

def skip : (n : Nat) → Place → Place
  | n + 1, ⟨behind, b :: ahead⟩ => skip n ⟨b :: behind, ahead⟩
  | _, p => p

def skipTo (rest : List UInt8) (p : Place) : Place := p.skip (p.ahead.length - rest.length)

end Place

/-- How to go on when the bytes ahead do not match. -/
structure Retry where
  place : Place
  path : List UInt8
  depth : Nat
deriving DecidableEq

structure State where
  place : Place
  /-- The bytes of the path that are still to match. -/
  path : List UInt8
  /-- How many braces the place is in. -/
  depth : Nat
  /-- How to go on with the last wildcard. -/
  retry : Option Retry
  /-- How to go on with the last `**` when a wildcard would have to cross a `/`. -/
  crossing : Option Retry

def escaped (b : UInt8) : UInt8 :=
  if b = byte 'b' then 0x08
  else if b = byte 'n' then byte '\n'
  else if b = byte 'r' then byte '\r'
  else if b = byte 't' then byte '\t'
  else b

/-- The first byte that a pattern writes, and what follows it; none if that is cut off. -/
def literal? : List UInt8 → Option (UInt8 × List UInt8)
  | [] => none
  | b :: rest =>
    if b = byte '\\' then
      match rest with
      | [] => none
      | e :: rest => some (escaped e, rest)
    else some (b, rest)

/-- The first item of a class, a byte or a range, and what follows it. -/
def range? (pattern : List UInt8) : Option ((UInt8 × UInt8) × List UInt8) := do
  let (low, rest) ← literal? pattern
  match rest with
  | dash :: b :: after =>
    -- In front of the closing bracket a dash stands for itself.
    if dash = byte '-' ∧ b ≠ byte ']' then
      let (high, rest) ← literal? (b :: after)
      some ((low, high), rest)
    else some ((low, low), rest)
  | _ => some ((low, low), rest)

/-- The items of a class up to its closing bracket, at most `count` of them, and what follows it. The
first item may be a closing bracket. -/
def rangesFrom? : (count : Nat) → (first : Bool) → List UInt8 →
    Option (List (UInt8 × UInt8) × List UInt8)
  | 0, _, _ | _, _, [] => none
  | count + 1, first, b :: rest =>
    if !first && b == byte ']' then some ([], rest)
    else do
      let (item, rest) ← range? (b :: rest)
      let (items, rest) ← rangesFrom? count false rest
      some (item :: items, rest)

/-- Whether the class that a pattern starts with, its opening bracket left out, has the byte `c`, and
what follows the class; none if the class does not end. -/
def inClass? (c : UInt8) (pattern : List UInt8) : Option (Bool × List UInt8) := do
  let negated := match pattern with
    | b :: _ => b == byte '^' || b == byte '!'
    | [] => false
  let body := if negated then pattern.drop 1 else pattern
  let (items, rest) ← rangesFrom? (body.length + 1) true body
  some (items.any (fun item => item.1 ≤ c && c ≤ item.2) != negated, rest)

/-- What follows the closing brace of the braces that a place in an alternative lies in; `depth` is the
number of braces inside them that are open. -/
def afterBraces : (depth : Nat) → (inBrackets isEscaped : Bool) → List UInt8 → List UInt8
  | _, _, _, [] => []
  | depth, inBrackets, true, _ :: rest => afterBraces depth inBrackets false rest
  | depth, inBrackets, false, b :: rest =>
    if b = byte '\x7b' ∧ !inBrackets then afterBraces (depth + 1) inBrackets false rest
    else if b = byte '\x7d' ∧ !inBrackets then
      match depth with
      | 0 => rest
      | depth + 1 => afterBraces depth inBrackets false rest
    else if b = byte '[' then afterBraces depth true false rest
    else if b = byte ']' then afterBraces depth false false rest
    else afterBraces depth inBrackets (b == byte '\\') rest

/-- Where the alternatives start whose end is found: `start` is where the first one does, and the search
for its end has come as far as the bytes given. -/
def alternativesFrom (start : Place) : (depth : Nat) → (inBrackets isEscaped : Bool) →
    (behind ahead : List UInt8) → List Place
  | _, _, _, _, [] => []
  | depth, inBrackets, true, behind, b :: rest =>
    alternativesFrom start depth inBrackets false (b :: behind) rest
  | depth, inBrackets, false, behind, b :: rest =>
    if b = byte '\x7b' ∧ !inBrackets then
      alternativesFrom start (depth + 1) inBrackets false (b :: behind) rest
    else if b = byte '\x7d' ∧ !inBrackets then
      match depth with
      | 0 => [start]
      | depth + 1 => alternativesFrom start depth inBrackets false (b :: behind) rest
    else if b = byte ',' ∧ depth = 0 then
      start :: alternativesFrom ⟨b :: behind, rest⟩ depth inBrackets false (b :: behind) rest
    else if b = byte '[' then alternativesFrom start depth true false (b :: behind) rest
    else if b = byte ']' then alternativesFrom start depth false false (b :: behind) rest
    else alternativesFrom start depth inBrackets (b == byte '\\') (b :: behind) rest

def alternatives (p : Place) : List Place :=
  let start := p.skip 1
  alternativesFrom start 0 false false start.behind start.ahead

/-- The number of bytes from a `**` to the last `**` in a row of them with single slashes between. -/
def rowFrom : (count : Nat) → List UInt8 → Nat
  | 0, _ => 0
  | count + 1, behindStars =>
    match behindStars with
    | [a, b, c] => if [a, b, c] = [byte '/', byte '*', byte '*'] then 3 else 0
    | a :: b :: c :: d :: rest =>
      if [a, b, c, d] = [byte '/', byte '*', byte '*', byte '/'] then 3 + rowFrom count (d :: rest)
      else 0
    | _ => 0

namespace State

/-- The search at a single `*`. The star stands for nothing at first and for one more byte at each
retry, but never for a `/`. -/
def star (s : State) : State :=
  let retry := match s.path with
    | [] => none
    -- Only the last `**` can take a `/` in.
    | c :: path => if c = byte '/' then s.crossing else some ⟨s.place, path, s.depth⟩
  { s with place := s.place.skip 1, retry := retry }

/-- The search at a `**` that is a whole segment, for no segment at first and one more at each
retry. -/
def stars (s : State) : State :=
  let behind := s.place.skip 2
  let place := behind.skip 1
  match s.path with
  | [] => { s with place := place, retry := none }
  | path =>
    let retry := match path.dropWhile (· != byte '/') with
      | _ :: path => some ⟨s.place, path, s.depth⟩
      | [] => if behind.ahead.isEmpty then some ⟨s.place, [], s.depth⟩ else none
    { s with place := place, retry := retry, crossing := retry }

/-- The search at a wildcard. Two stars that are no segment of their own are like one. What lies at or
before `start` counts as the start of a segment. -/
def wildcard (start : Nat) (s : State) : State :=
  match s.place.ahead with
  | _ :: b :: rest =>
    if b = byte '*' then
      -- Segments of `**` in a row are like the last of them.
      let place := s.place.skip (rowFrom rest.length rest)
      let opens := decide (place.position ≤ start) || place.behind.head? == some (byte '/')
      let closes := match (place.skip 2).ahead with
        | [] => true
        | b :: _ => b == byte '/'
      if opens && closes then stars { s with place := place }
      else
        let s := star { s with place := place }
        { s with place := place.skip 2 }
    else s.star
  | _ => s.star

end State

/-- What comes of looking at the next byte of a pattern. -/
inductive Step
  /-- It matches. -/
  | goOn (s : State)
  /-- It does not. -/
  | differs
  /-- No path at all matches. -/
  | refused
  /-- Alternatives start here. -/
  | braces

/-- Looks at the next byte of the pattern. `chosen` has the alternatives under way, each behind the
position of its braces. -/
def step (start : Nat) (chosen : List (Nat × Place)) (s : State) : Step :=
  match s.place.ahead with
  | [] => .differs
  | b :: rest =>
    if b = byte '*' then .goOn (s.wildcard start)
    else if b = byte '\x7b' then
      match chosen.find? fun c => c.1 == s.place.position with
      | some (_, place) => .goOn { s with place := place, depth := s.depth + 1 }
      | none => .braces
    else if (b = byte ',' ∨ b = byte '\x7d') ∧ 0 < s.depth then
      -- This alternative is over, and the others are left out.
      let rest := afterBraces 0 false false s.place.ahead
      .goOn { s with place := s.place.skipTo rest, depth := s.depth - 1 }
    else
      match s.path with
      | [] => .differs
      | c :: path =>
        if b = byte '?' then
          if c = byte '/' then .differs
          else .goOn { s with place := s.place.skip 1, path := path }
        else if b = byte '[' then
          match inClass? c rest with
          | none => .refused
          | some (false, _) => .differs
          | some (true, rest) => .goOn { s with place := s.place.skipTo rest, path := path }
        else
          match literal? (b :: rest) with
          | none => .refused
          | some (l, rest) =>
            if l ≠ c then .differs
            else .goOn
              { s with
                place := s.place.skipTo rest
                path := path
                retry := if l = byte '/' then s.crossing else s.retry }

/-- The search with at most `steps` steps; `braces` says what comes of new alternatives. -/
def run (braces : State → Option Bool) (start : Nat) (chosen : List (Nat × Place)) :
    (steps : Nat) → State → Option Bool
  | 0, _ => some false
  | steps + 1, s =>
    if s.place.ahead.isEmpty && s.path.isEmpty then some true
    else
      match step start chosen s with
      | .goOn s => run braces start chosen steps s
      | .refused => some false
      | .braces => braces s
      | .differs =>
        match s.retry with
        | none => some false
        | some r =>
          run braces start chosen steps { s with place := r.place, path := r.path, depth := r.depth }

/-- Whether one of the trials succeeds. They are made in order, and one that breaks off ends them. -/
def anySuccess {α : Type} (trial : α → Option Bool) : List α → Option Bool
  | [] => some false
  | a :: as =>
    match trial a with
    | some false => anySuccess trial as
    | answer => answer

/-- The search; `room` is the number of alternatives that may still be under way at once. It breaks off
if there are more. -/
def matchFrom? (steps : Nat) : (room : Nat) → (start : Nat) → (chosen : List (Nat × Place)) → State →
    Option Bool
  | 0, start, chosen, s =>
    let braces (s : State) : Option Bool :=
      if (alternatives s.place).isEmpty then some false else none
    run braces start chosen steps s
  | room + 1, start, chosen, s =>
    let braces (s : State) : Option Bool :=
      (alternatives s.place) |> anySuccess fun place =>
        matchFrom? steps room place.position ((s.place.position, place) :: chosen)
          { s with place := place, depth := chosen.length + 1 }
    run braces start chosen steps s

/-- The number of alternatives that may be under way at once. -/
def maxChosen : Nat := 10

/-- Whether a path matches a pattern; none if too many alternatives are under way at once. Each retry
has less of the path to match, or less of it behind the last crossing, and between two of them the place
moves on, which bounds the number of steps. -/
def matches? (pattern path : Text) : Option Bool :=
  let path := Text.utf8 path
  let pattern := Text.utf8 pattern
  let body := pattern.dropWhile (· == byte '!')
  let negations := pattern.length - body.length
  let steps := (path.length + 3) * (path.length + 3) * (pattern.length + 3)
  let place := Place.skipTo body ⟨[], pattern⟩
  (matchFrom? steps maxChosen 0 [] ⟨place, path, 0, none, none⟩).map fun found =>
    found != (negations % 2 == 1)

def matchesAny? (patterns : List Text) (path : Text) : Option Bool :=
  anySuccess (fun pattern => matches? pattern path) patterns

end AppsScript.Glob
