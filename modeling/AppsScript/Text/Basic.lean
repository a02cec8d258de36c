/-!
# Texts

A text is the list of its characters, so that every function on texts is recursion on a list. String
literals stand for texts wherever a text is expected.
-/

namespace AppsScript

/-- A text: its characters in reading order. -/
abbrev Text := List Char

instance : Coe String Text := ⟨String.toList⟩

namespace Text

/-- The parts one after another. -/
def concat (parts : List Text) : Text := parts.flatten

/-- The parts in order with `separator` between neighbours. -/
def joinWith (separator : Text) (parts : List Text) : Text := separator.intercalate parts

/-- The pieces between the separators; a text with `n` separators has `n + 1` pieces. -/
def pieces (isSeparator : Char → Bool) : Text → List Text
  | [] => [[]]
  | c :: cs =>
    if isSeparator c then [] :: pieces isSeparator cs
    else
      match pieces isSeparator cs with
      | [] => [[c]]
      | p :: ps => (c :: p) :: ps

/-- The rest of a text after `start`, if it starts so. -/
def after? : (start text : Text) → Option Text
  | [], text => some text
  | _ :: _, [] => none
  | a :: start, b :: text => if a = b then after? start text else none

/-- The part of a text before `ending`, if it ends so. -/
def before? (ending text : Text) : Option Text :=
  (after? ending.reverse text.reverse).map List.reverse

theorem after?_eq_some_iff {start text rest : Text} :
    after? start text = some rest ↔ text = start ++ rest := by
  fun_induction after? start text with
  | case1 text => simp
  | case2 a start => simp
  | case3 start b text ih => simp [ih]
  | case4 a start b text h => simp [Ne.symm h]

theorem before?_eq_some_iff {ending text rest : Text} :
    before? ending text = some rest ↔ text = rest ++ ending := by
  simp only [before?, Option.map_eq_some_iff, after?_eq_some_iff]
  constructor
  · rintro ⟨r, h, rfl⟩
    simpa using congrArg List.reverse h
  · rintro rfl
    exact ⟨rest.reverse, by simp⟩

/-- `text` without `ending`, or `text` itself if it does not end so. -/
def dropEnding (ending text : Text) : Text := (before? ending text).getD text

/-- The part before the first `c`, or all of the text. -/
def upTo (c : Char) (text : Text) : Text := text.takeWhile (· != c)

/-- The capital letters A to Z in lower case, all else unchanged. -/
def lowerAscii (text : Text) : Text := text.map Char.toLower

def ofNat (n : Nat) : Text := Nat.toDigits 10 n

def hexDigit? (c : Char) : Option Nat :=
  if c.isDigit then some (c.toNat - '0'.toNat)
  else if 'a' ≤ c ∧ c ≤ 'f' then some (c.toNat - 'a'.toNat + 10)
  else if 'A' ≤ c ∧ c ≤ 'F' then some (c.toNat - 'A'.toNat + 10)
  else none

/-- Alphabetical order by code point, which is the order of the UTF-8 bytes too. -/
def compare : Text → Text → Ordering
  | [], [] => .eq
  | [], _ :: _ => .lt
  | _ :: _, [] => .gt
  | a :: as, b :: bs => (Ord.compare a.val b.val).then (compare as bs)

/-- The UTF-8 bytes. -/
def utf8 (text : Text) : List UInt8 := text.flatMap String.utf8EncodeChar

def byteCount (text : Text) : Nat := (utf8 text).length

/-- Divides a text behind its first `n` bytes, unless that would cut a character. -/
def splitBytes? : (n : Nat) → Text → Option (Text × Text)
  | 0, text => some ([], text)
  | _ + 1, [] => none
  | n + 1, c :: text =>
    if c.utf8Size ≤ n + 1 then
      (splitBytes? (n + 1 - c.utf8Size) text).map fun parts => (c :: parts.1, parts.2)
    else none

/-- The text written in UTF-8 by `bytes`, if they are valid. -/
def ofUtf8? (bytes : List UInt8) : Option Text :=
  (String.fromUTF8? ⟨bytes.toArray⟩).map String.toList

end Text

end AppsScript
