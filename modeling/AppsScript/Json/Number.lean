import AppsScript.Text.Basic

/-!
# JSON numbers

A number as it is written (`Number`) and what it stands for (`Number.value?`). Integers of at most 64
bits are exact. Any other number is computed in floating point: the digits that fit into 64 bits make
an integer, which one multiplication or division by a power of ten brings to size.
-/

namespace AppsScript.Json

/-- A number as written: the digits of its parts. -/
structure Number where
  isNegative : Bool
  whole : Text
  fraction : Option Text
  /-- Whether the exponent is negative, and its digits. -/
  exponent : Option (Bool × Text)
deriving DecidableEq

/-- What a number stands for. -/
inductive NumberValue
  | integer (i : Int)
  | floating (x : Float)

def spanDigits (text : Text) : Text × Text := text.span Char.isDigit

/-- The fraction behind a point that has been read. -/
def readFraction? (text : Text) : Option (Text × Text) :=
  match spanDigits text with
  | ([], _) => none
  | found => some found

/-- The exponent behind an `e` that has been read. -/
def readExponent? (text : Text) : Option ((Bool × Text) × Text) :=
  let (isNegative, text) := match text with
    | '+' :: rest => (false, rest)
    | '-' :: rest => (true, rest)
    | rest => (false, rest)
  match spanDigits text with
  | ([], _) => none
  | (digits, rest) => some ((isNegative, digits), rest)

/-- The minus sign that a text may start with. -/
def readMinus : Text → Bool × Text
  | '-' :: rest => (true, rest)
  | rest => (false, rest)

/-- The fraction that a text may start with. -/
def readFractionPart? : Text → Option (Option Text × Text)
  | '.' :: rest => (readFraction? rest).map fun r => (some r.1, r.2)
  | rest => some (none, rest)

/-- The exponent that a text may start with. -/
def readExponentPart? : Text → Option (Option (Bool × Text) × Text)
  | 'e' :: rest | 'E' :: rest => (readExponent? rest).map fun r => (some r.1, r.2)
  | rest => some (none, rest)

/-- Whether the digits can stand before the point of a number: there are some, and no needless zero. -/
def isWhole : Text → Bool
  | [] | '0' :: _ :: _ => false
  | _ => true

/-- Reads the number that a text starts with; `none` if it does not start with one. A number has no
leading zero, and digits on both sides of its point. -/
def Number.read? (text : Text) : Option (Number × Text) :=
  let signed := readMinus text
  let (whole, text) := spanDigits signed.2
  if isWhole whole then do
    let (fraction, text) ← readFractionPart? text
    let (exponent, text) ← readExponentPart? text
    some (⟨signed.1, whole, fraction, exponent⟩, text)
  else none

def digit (c : Char) : Nat := c.toNat - '0'.toNat

/-- Appends digits to a number as long as the result fits into 64 bits; the result, how many digits
fitted, and how many did not. -/
def absorb (n : Nat) : Text → Nat × Nat × Nat
  | [] => (n, 0, 0)
  | c :: cs =>
    if n * 10 + digit c < UInt64.size then
      let (m, fitted, left) := absorb (n * 10 + digit c) cs
      (m, fitted + 1, left)
    else (n, 0, cs.length + 1)

/-- The nearest floating point number to a power of ten. -/
def powerOfTen (e : Nat) : Float := Float.ofScientific 1 false e

/-- `x * 10 ^ e`, one rounding per step; `none` if that is beyond the greatest number. Three steps
bring every number to zero. -/
def scale? : (steps : Nat) → (x : Float) → (e : Int) → Option Float
  | 0, x, _ => some x
  | steps + 1, x, e =>
    if e.natAbs ≤ 308 then
      if 0 ≤ e then
        let y := x * powerOfTen e.natAbs
        if y.isFinite then some y else none
      else some (x / powerOfTen e.natAbs)
    else if x == 0 then some x
    else if 0 ≤ e then none
    else scale? steps (x / powerOfTen 308) (e + 308)

/-- What the number stands for; `none` if it is out of range. -/
def Number.value? (n : Number) : Option NumberValue :=
  let signed (x : Float) : NumberValue := .floating (if n.isNegative then -x else x)
  let (whole, _, left) := absorb 0 n.whole
  if left = 0 ∧ n.fraction.isNone ∧ n.exponent.isNone then
    if !n.isNegative then some (.integer whole)
    -- The zero with a minus sign is no integer.
    else if 0 < whole ∧ 2 * whole ≤ UInt64.size then some (.integer (-whole))
    else some (signed (Float.ofNat whole))
  else
    let (m, fitted, _) := absorb whole (n.fraction.getD [])
    let shift : Int := left - fitted
    let x := Float.ofNat m
    match n.exponent with
    | none => (scale? 4 x shift).map signed
    | some (isNegative, digits) =>
      let e := digits.foldl (fun e c => e * 10 + digit c) 0
      -- An exponent of more than 31 bits is not computed with.
      if UInt32.size ≤ 2 * e then
        if m = 0 ∨ isNegative then some (signed 0) else none
      else (scale? 4 x (if isNegative then shift - e else shift + e)).map signed

end AppsScript.Json
