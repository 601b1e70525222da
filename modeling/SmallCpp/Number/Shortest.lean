import SmallCpp.Number.Binary64

/-!
# Decimal digits of a positive number

A positive number is written as `digits * 10 ^ (exponent - count + 1)`, where `count` is the
number of the digits and `exponent` that of the first one. Two choices of digits are needed: a
given number of them, and the fewest that read back as the same double.
-/

namespace SmallCpp

/-- Significant decimal digits, as a number, and the exponent of the first of them. -/
structure Scientific where
  digits : Nat
  exponent : Int
deriving DecidableEq, Repr, Inhabited

/-- The number of decimal digits of a natural number; zero has one. -/
def digitCount (n : Nat) : Nat :=
  (Nat.toDigits 10 n).length

/-- `num / den * 10 ^ (-k)` as a quotient of two naturals. -/
def scaleByTen (num den : Nat) (k : Int) : Nat × Nat :=
  if 0 ≤ k then (num, den * Nat.pow 10 k.toNat) else (num * Nat.pow 10 (-k).toNat, den)

/-- The exponent of the first decimal digit of a positive quotient. -/
def decimalExponent (num den : Nat) : Int :=
  let guess : Int := (digitCount num : Int) - (digitCount den : Int)
  let (a, b) := scaleByTen num den guess
  if b ≤ a then guess else guess - 1

/-- A positive quotient to `count` significant digits, a tie going to the even last digit. -/
def roundedTo (count num den : Nat) : Scientific :=
  let x := decimalExponent num den
  let (a, b) := scaleByTen num den (x - ((count : Int) - 1))
  let ds := roundDiv a b
  if ds == Nat.pow 10 count then ⟨Nat.pow 10 (count - 1), x + 1⟩ else ⟨ds, x⟩

def readScaled (digits : Nat) (k : Int) : Option Float :=
  let (a, b) := scaleByTen digits 1 (-k)
  nearestDouble? false a b

/-- The better of the two neighbours of a positive quotient among the numbers of `count`
significant digits, of those that read back as `x`. -/
def neighbour? (x : Float) (num den count : Nat) : Option Scientific :=
  let e := decimalExponent num den
  let k := e - ((count : Int) - 1)
  let (a, b) := scaleByTen num den k
  let below := a / b
  let readsBack (ds : Nat) : Bool := readScaled ds k == some x
  let above := below + 1
  let nearest := roundDiv a b
  let pick (ds : Nat) : Scientific :=
    if ds == Nat.pow 10 count then ⟨Nat.pow 10 (count - 1), e + 1⟩ else ⟨ds, e⟩
  if readsBack nearest then some (pick nearest)
  else if readsBack below then some (pick below)
  else if readsBack above then some (pick above)
  else none

/-- The fewest decimal digits that read back as the positive double `x = num / den`; seventeen
always do. -/
def shortestDigits (x : Float) (num den : Nat) : Scientific :=
  ((List.range 17).findSome? fun i => neighbour? x num den (i + 1)).getD (roundedTo 17 num den)

end SmallCpp
