import AppsScript.Text.Blank
import AppsScript.Text.Letter

/-!
# Patterns for values

A directive of a log filter may ask for the value of a field by a pattern, a regular expression. No
diagnostic has such a field, so all that matters is whether the pattern makes sense (`isValue`): a filter
with one that does not is none at all. Patterns are matched character by character, so they must not look for
bytes that are no characters, nor for the edges of words beyond ASCII. A closing brace never gets into a
pattern, so nothing that needs a pair of braces makes sense.
-/

namespace AppsScript.CommandLine.ValuePattern

/-- What can be switched on and off within a pattern. -/
structure Switches where
  /-- White space does not count, and `#` starts a comment. -/
  isSpaced : Bool := false
  /-- Sets are sets of characters; else they are sets of bytes, and only those of ASCII are characters. -/
  isUnicode : Bool := true

/-- The text behind white space and comments. -/
def skipComments : (inComment : Bool) → Text → Text
  | _, [] => []
  | true, c :: text => skipComments (c != '\n') text
  | false, c :: text =>
    if Text.isBlank c then skipComments false text
    else if c = '#' then skipComments true text
    else c :: text

/-- The text from the next character on that counts. -/
def Switches.skip (s : Switches) (text : Text) : Text :=
  if s.isSpaced then skipComments false text else text

/-- The next character, which is what decides whether a dash makes a range. A comment counts as its first
character there. -/
def Switches.peek (s : Switches) (text : Text) : Option Char :=
  if s.isSpaced then
    match text.dropWhile Text.isBlank with
    | '#' :: comment => (comment.dropWhile Text.isBlank).head?
    | text => text.head?
  else text.head?

/-- Whether a character can be in a set. -/
def Switches.allows (s : Switches) (c : Char) : Bool := s.isUnicode || c.toNat < 0x80

/-- The number of levels that a pattern may be nested. -/
def maxDepth : Nat := 250

/-- The levels of parts side by side, which are one more if there are several of them. -/
def levels : List Nat → Nat
  | [] => 0
  | [depth] => depth
  | depths => depths.foldl max 0 + 1

/-! ### Escapes -/

/-- What a backslash and what follows it stand for. -/
inductive Escape
  | char (c : Char)
  | set
  /-- A condition on the place. -/
  | place

/-- The letters of the general categories. -/
def categories : Text := "CLMNPSZclmnpsz"

/-- Reads the character whose number some hexadecimal digits write; `value` is that of the digits read. -/
def readHex? (s : Switches) : (digits value : Nat) → Text → Option (Char × Text)
  | 0, value, text => if value.isValidChar then some (Char.ofNat value, text) else none
  | digits + 1, value, text =>
    match s.skip text with
    | [] => none
    | c :: rest => (Text.hexDigit? c).bind fun d => readHex? s digits (value * 16 + d) rest

/-- Reads what follows a backslash. -/
def readEscape? (s : Switches) : Text → Option (Escape × Text)
  | [] => none
  | c :: text =>
    match c with
    | 'x' =>
      (readHex? s 2 0 text).bind fun r => if s.allows r.1 then some (.char r.1, r.2) else none
    | 'u' => (readHex? s 4 0 text).map fun r => (.char r.1, r.2)
    | 'U' => (readHex? s 8 0 text).map fun r => (.char r.1, r.2)
    | 'p' | 'P' =>
      match s.skip text with
      | [] => none
      | k :: rest => if s.isUnicode && categories.contains k then some (.set, rest) else none
    | 'd' | 's' | 'w' => some (.set, text)
    | 'D' | 'S' | 'W' => if s.isUnicode then some (.set, text) else none
    | 'b' | 'B' | '<' | '>' => if s.isUnicode then none else some (.place, text)
    | 'A' | 'z' => some (.place, text)
    | 'a' => some (.char '\x07', text)
    | 'f' => some (.char '\x0c', text)
    | 'n' => some (.char '\n', text)
    | 'r' => some (.char '\r', text)
    | 't' => some (.char '\t', text)
    | 'v' => some (.char '\x0b', text)
    | c => if c.toNat < 0x80 && !c.isAlphanum then some (.char c, text) else none

/-! ### Sets in brackets -/

/-- A set whose closing bracket has not been reached. -/
structure OpenSet where
  /-- The levels of what stands before an operator, if one was met. -/
  before : Option Nat := none
  /-- The levels of the members behind it. -/
  members : List Nat := []
  /-- Whether nothing but dashes was met, each of which is a member there. -/
  isFresh : Bool := true

namespace OpenSet

def depth (set : OpenSet) : Nat :=
  match set.before with
  | none => levels set.members
  | some depth => levels [depth, levels set.members]

/-- The set with one more member. -/
def add (set : OpenSet) (depth : Nat) : OpenSet :=
  { set with members := depth :: set.members, isFresh := false }

/-- The set behind an operator. -/
def operator (set : OpenSet) : OpenSet := { before := some set.depth, isFresh := false }

end OpenSet

def classNames : List Text :=
  ["alnum", "alpha", "ascii", "blank", "cntrl", "digit", "graph", "lower", "print", "punct", "space",
    "upper", "word", "xdigit"]

/-- Reads a named class from behind its opening bracket; the result tells whether it is negated. -/
def readNamedClass? : Text → Option (Bool × Text)
  | ':' :: text =>
    let isNegated := text.head? == some '^'
    let text := if isNegated then text.drop 1 else text
    let name := Text.upTo ':' text
    match text.drop name.length with
    | ':' :: ']' :: rest => if classNames.contains name then some (isNegated, rest) else none
    | _ => none
  | _ => none

/-- Reads a member of a set, or one end of a range. -/
def readMember? (s : Switches) : Text → Option (Escape × Text)
  | [] => none
  | '\\' :: text =>
    match readEscape? s text with
    | some (.char c, rest) => if s.allows c then some (.char c, rest) else none
    | some (.set, rest) => some (.set, rest)
    | _ => none
  | c :: text => if s.allows c then some (.char c, text) else none

/-- Reads a range, or a member by itself. A dash before another one, or before the closing bracket, makes no
range. -/
def readRange? (s : Switches) (text : Text) : Option Text := do
  let (first, rest) ← readMember? s text
  match s.skip rest with
  | '-' :: more =>
    let next := s.peek more
    if next == some ']' || next == some '-' then some ('-' :: more)
    else
      match first, ← readMember? s (s.skip more) with
      | .char a, (.char b, rest) => if a ≤ b then some rest else none
      | _, _ => none
  | rest => some rest

/-- Reads the caret that a set of all else starts with. -/
def readCaret? (s : Switches) (text : Text) : Option Text :=
  match s.skip text with
  | '^' :: rest => if s.isUnicode then some rest else none
  | text => some text

/-- Reads the rest of a set within the sets `outer`, in a number of steps; the result are its levels. -/
def readSet? (s : Switches) :
    (steps : Nat) → OpenSet → (outer : List OpenSet) → Text → Option (Nat × Text)
  | 0, _, _, _ => none
  | steps + 1, set, outer, text =>
    let readOne (text : Text) := do readSet? s steps (set.add 0) outer (← readRange? s text)
    match s.skip text with
    | [] => none
    | '[' :: rest =>
      match readNamedClass? rest with
      | some (isNegated, rest) =>
        if isNegated && !s.isUnicode then none else readSet? s steps (set.add 0) outer rest
      | none => do readSet? s steps {} (set :: outer) (← readCaret? s rest)
    | ']' :: rest =>
      if set.isFresh && set.members.isEmpty then readSet? s steps (set.add 0) outer rest
      else
        match outer with
        | [] => some (set.depth + 1, rest)
        | parent :: outer => readSet? s steps (parent.add (set.depth + 1)) outer rest
    | '&' :: '&' :: rest => readSet? s steps set.operator outer rest
    | '~' :: '~' :: rest => readSet? s steps set.operator outer rest
    | '-' :: rest =>
      if set.isFresh then readSet? s steps { set with members := 0 :: set.members } outer rest
      else
        match rest with
        | '-' :: rest => readSet? s steps set.operator outer rest
        | _ => readOne ('-' :: rest)
    | text => readOne text

/-! ### Groups -/

inductive Opening
  /-- Switches for the rest of the group that they are in. -/
  | switches (s : Switches)
  /-- A group, maybe with a name, in which the switches hold. -/
  | group (s : Switches) (name : Option Text)

def switchNames : Text := "imsUuRx"

/-- Reads switches up to a colon or a closing parenthesis. Each is `seen` once at most; those behind a dash
are turned off. -/
def readSwitches? (s : Switches) : (seen : Text) → Text → Option (Text × Switches × Text)
  | _, [] => none
  | seen, c :: text =>
    if c = ':' ∨ c = ')' then
      if seen.head? = some '-' then none else some (seen, s, c :: text)
    else if seen.contains c || !(c == '-' || switchNames.contains c) then none
    else
      let isOn := !seen.contains '-'
      let s :=
        match c with
        | 'x' => { s with isSpaced := isOn }
        | 'u' => { s with isUnicode := isOn }
        | _ => s
      readSwitches? s (c :: seen) text

def readName? (text : Text) : Option (Text × Text) :=
  let name := Text.upTo '>' text
  match name, text.drop name.length with
  | first :: others, _ :: rest =>
    let goesOn (c : Char) := Text.isAlphanumeric c || (['_', '.', '[', ']'] : Text).contains c
    if (Text.isAlphabetic first || first == '_') && others.all goesOn then some (name, rest) else none
  | _, _ => none

def readOpening? (s : Switches) (text : Text) : Option (Opening × Text) :=
  match s.skip text with
  | '?' :: 'P' :: '<' :: rest => (readName? rest).map fun r => (.group s (some r.1), r.2)
  | '?' :: '<' :: rest => (readName? rest).map fun r => (.group s (some r.1), r.2)
  | '?' :: rest =>
    match readSwitches? s [] rest with
    | some (_, s, ':' :: rest) => some (.group s none, rest)
    | some (_ :: _, s, _ :: rest) => some (.switches s, rest)
    | _ => none
  | text => some (.group s none, text)

/-- A group whose closing parenthesis has not been reached. -/
structure OpenGroup where
  /-- The switches that hold again behind it. -/
  switches : Switches
  /-- The levels of its alternatives so far. -/
  branches : List Nat := []
  /-- The levels of the parts of the alternative under way, the last part first; none for switches. -/
  parts : List (Option Nat) := []

namespace OpenGroup

/-- The levels of the alternative under way. -/
def branch (group : OpenGroup) : Nat := levels (group.parts.map (·.getD 0))

def depth (group : OpenGroup) : Nat := levels (group.branch :: group.branches)

def add (group : OpenGroup) (part : Option Nat) : OpenGroup :=
  { group with parts := part :: group.parts }

def next (group : OpenGroup) : OpenGroup :=
  { group with branches := group.branch :: group.branches, parts := [] }

end OpenGroup

/-- Reads the rest of a pattern within the groups `outer`, in a number of steps; the result are its levels.
The `names` are taken. -/
def readFrom? : (steps : Nat) → Switches → (names : List Text) → OpenGroup → (outer : List OpenGroup) →
    Text → Option Nat
  | 0, _, _, _, _, _ => none
  | steps + 1, s, names, group, outer, text =>
    let goOn (part : Option Nat) (rest : Text) := readFrom? steps s names (group.add part) outer rest
    let repeated (rest : Text) :=
      match group.parts with
      | some depth :: parts =>
        let rest := if rest.head? == some '?' then rest.drop 1 else rest
        readFrom? steps s names { group with parts := some (depth + 1) :: parts } outer rest
      | _ => none
    match s.skip text with
    | [] => if outer.isEmpty then some group.depth else none
    | '(' :: rest =>
      match readOpening? s rest with
      | some (.switches s, rest) => readFrom? steps s names (group.add none) outer rest
      | some (.group inner name, rest) =>
        if name.any names.contains then none
        else readFrom? steps inner (name.toList ++ names) { switches := s } (group :: outer) rest
      | none => none
    | ')' :: rest =>
      match outer with
      | [] => none
      | parent :: outer =>
        readFrom? steps group.switches names (parent.add (some (group.depth + 1))) outer rest
    | '|' :: rest => readFrom? steps s names group.next outer rest
    | '[' :: rest => do
      let (depth, rest) ← readSet? s text.length {} [] (← readCaret? s rest)
      goOn (some depth) rest
    | '?' :: rest => repeated rest
    | '*' :: rest => repeated rest
    | '+' :: rest => repeated rest
    -- A repetition by number: the brace that closes it is never there.
    | '{' :: _ => none
    | '\\' :: rest => do
      let (_, rest) ← readEscape? s rest
      goOn (some 0) rest
    -- Else it would stand for any byte.
    | '.' :: rest => if s.isUnicode then goOn (some 0) rest else none
    | _ :: rest => goOn (some 0) rest

/-- Whether a text is a pattern that makes sense. -/
def isPattern (text : Text) : Bool :=
  (readFrom? (text.length + 1) {} [] { switches := {} } [] text).any (· ≤ maxDepth)

/-! ### Values -/

def isDigits (text : Text) : Bool := !text.isEmpty && text.all Char.isDigit

/-- Whether a text is a decimal number: digits with a point somewhere, maybe, and an exponent, maybe. -/
def isDecimal (text : Text) : Bool :=
  let whole := text.takeWhile Char.isDigit
  let rest := text.drop whole.length
  let fraction := if rest.head? == some '.' then (rest.drop 1).takeWhile Char.isDigit else []
  let rest := if rest.head? == some '.' then rest.drop (fraction.length + 1) else rest
  isDigits (whole ++ fraction) &&
    match rest with
    | [] => true
    | e :: rest =>
      (e == 'e' || e == 'E') &&
        match rest with
        | '+' :: digits => isDigits digits
        | '-' :: digits => isDigits digits
        | digits => isDigits digits

/-- Whether a text is a number behind a plus sign. -/
def isPlusNumber : Text → Bool
  | '+' :: text =>
    isDecimal text || (["inf", "infinity", "nan"] : List Text).contains (Text.lowerAscii text)
  | _ => false

/-- Whether a text is something to compare a value with: a number or a pattern. Numbers are patterns too,
unless they start with a plus sign. -/
def isValue (text : Text) : Bool := isPlusNumber text || isPattern text

end AppsScript.CommandLine.ValuePattern
