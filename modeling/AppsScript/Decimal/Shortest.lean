import AppsScript.Text.Basic

/-!
# Shortest decimals

The decimal with the fewest digits among those that a floating point number is the nearest one to, and
of two with equally many the one nearer to the number. All arithmetic is exact: a number is
`m * 2 ^ q`, and everything is compared as fractions of natural numbers.
-/

namespace AppsScript.Decimal

structure Ratio where
  num : Nat
  den : Nat

namespace Ratio

def scaled (m b : Nat) (e : Int) : Ratio :=
  if 0 ≤ e then ⟨m * Nat.pow b e.toNat, 1⟩ else ⟨m, Nat.pow b (-e).toNat⟩

def lt (x y : Ratio) : Bool := x.num * y.den < y.num * x.den

def dist (x y : Ratio) : Ratio :=
  ⟨(x.num * y.den - y.num * x.den) + (y.num * x.den - x.num * y.den), x.den * y.den⟩

/-- The quotient, rounded down. -/
def floorDiv (x y : Ratio) : Nat := x.num * y.den / (x.den * y.num)

/-- The power of ten of the first digit of a positive fraction. -/
def magnitude (x : Ratio) : Int :=
  if x.den ≤ x.num then (Nat.toDigits 10 (x.num / x.den)).length - 1
  else
    let k := (Nat.toDigits 10 (x.den / x.num)).length
    if x.den ≤ x.num * Nat.pow 10 (k - 1) then -(k - 1 : Nat) else -k

end Ratio

/-- A positive binary floating point number. -/
structure Binary where
  /-- The significand. -/
  m : Nat
  /-- The power of two of its last bit. -/
  q : Int
  /-- Whether the next smaller number is only half as far away as the next greater one. -/
  isBoundary : Bool

namespace Binary

def value (x : Binary) : Ratio := .scaled x.m 2 x.q

/-- Whether `x` is the number that `y` is rounded to; ties go to the even significand. -/
def covers (x : Binary) (y : Ratio) : Bool :=
  let low := Ratio.scaled (4 * x.m - if x.isBoundary then 1 else 2) 2 (x.q - 2)
  let high := Ratio.scaled (4 * x.m + 2) 2 (x.q - 2)
  if x.m % 2 = 0 then !y.lt low && !high.lt y else low.lt y && y.lt high

/-- The multiple of `10 ^ p` next to `x` on either side that is rounded to `x`, the nearer one if both
are, the even one if they are equally near. -/
def onGrid? (x : Binary) (p : Int) : Option Nat :=
  let unit := Ratio.scaled 1 10 p
  let d := x.value.floorDiv unit
  let low := Ratio.scaled d 10 p
  let high := Ratio.scaled (d + 1) 10 p
  match x.covers low, x.covers high with
  | false, false => none
  | true, false => some d
  | false, true => some (d + 1)
  | true, true =>
    let below := x.value.dist low
    let above := x.value.dist high
    if below.lt above then some d
    else if above.lt below then some (d + 1)
    else if d % 2 = 0 then some d else some (d + 1)

/-- The shortest decimal `d * 10 ^ p`, searched from `n` digits on downwards in `p`. -/
def shortestFrom (x : Binary) : (steps : Nat) → (p : Int) → Nat × Int
  | 0, p => (x.value.floorDiv (.scaled 1 10 p), p)
  | steps + 1, p =>
    match x.onGrid? p with
    | some d => (d, p)
    | none => shortestFrom x steps (p - 1)

/-- The shortest decimal `d * 10 ^ p` that is rounded to `x`. Seventeen digits always suffice. -/
def shortest (x : Binary) : Nat × Int := shortestFrom x 17 x.value.magnitude

end Binary

/-- The sign of a finite floating point number and the number without it, if that is not zero. -/
def ofFloat (x : Float) : Bool × Option Binary :=
  let bits : Nat := x.toBits.toNat
  let one : Nat := 0x10000000000000
  let fraction : Nat := bits % one
  let exponent : Nat := bits / one % 0x800
  let magnitude : Option Binary :=
    if exponent = 0 then
      if fraction = 0 then none else some ⟨fraction, -1074, false⟩
    else some ⟨one + fraction, Int.ofNat exponent - 1075, fraction == 0 && exponent != 1⟩
  (bits / one / 0x800 == 1, magnitude)

/-- Where positional notation ends: it is used if the power of ten of the first digit lies between the
two bounds. -/
structure Notation where
  least : Int
  greatest : Int

/-- The text of `d * 10 ^ p`: at least one digit on either side of the point in positional notation,
else one digit, the others behind a point, and the power of ten with its sign. -/
def text (style : Notation) (d : Nat) (p : Int) : Text :=
  let all := Nat.toDigits 10 d
  let digits := (all.reverse.dropWhile (· == '0')).reverse
  let e := p + all.length - 1
  if style.least ≤ e ∧ e ≤ style.greatest then
    if e < 0 then Text.concat ["0.", List.replicate (-e - 1).toNat '0', digits]
    else
      let width := e.toNat + 1
      let whole := digits.take width ++ List.replicate (width - digits.length) '0'
      let fraction := if digits.length ≤ width then ['0'] else digits.drop width
      Text.concat [whole, ".", fraction]
  else
    let tail := match digits with
      | first :: second :: rest => first :: '.' :: second :: rest
      | short => short
    Text.concat [tail, "e", if e < 0 then "-" else "+", Nat.toDigits 10 e.natAbs]

/-- The text of a finite floating point number. -/
def ofFiniteFloat (style : Notation) (x : Float) : Text :=
  let (negative, magnitude) := ofFloat x
  let body := match magnitude with
    | none => "0.0"
    | some b =>
      let (d, p) := b.shortest
      text style d p
  if negative then '-' :: body else body

end AppsScript.Decimal
