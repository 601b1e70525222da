/-!
# Doubles as exact numbers

A finite double is an integer multiple of a power of two. This view gives the conversions between
doubles, integers and quotients their exact meaning: each of them is one rounding of a rational
number.
-/

namespace SmallCpp

/-- The exact value of a double. -/
inductive Binary64 where
  | nan
  | infinite (negative : Bool)
  | finite (negative : Bool) (mantissa : Nat) (exponent : Int)
deriving DecidableEq, Repr, Inhabited

namespace Binary64

def ofFloat (x : Float) : Binary64 :=
  let bits : Nat := x.toBits.toNat
  let negative := bits / Nat.pow 2 63 == 1
  let biased : Nat := bits / Nat.pow 2 52 % Nat.pow 2 11
  let fraction : Nat := bits % Nat.pow 2 52
  if biased == 2047 then
    if fraction == 0 then .infinite negative else .nan
  else if biased == 0 then .finite negative fraction (-1074)
  else .finite negative (fraction + Nat.pow 2 52) ((biased : Int) - 1075)

/-- A finite magnitude `m * 2 ^ e` as a quotient of two naturals. -/
def quotient (mantissa : Nat) (exponent : Int) : Nat × Nat :=
  if 0 ≤ exponent then (mantissa * Nat.pow 2 exponent.toNat, 1) else
    (mantissa, Nat.pow 2 (-exponent).toNat)

end Binary64

/-- The integer nearest to `num / den`; of two at the same distance, the even one. -/
def roundDiv (num den : Nat) : Nat :=
  let q := num / den
  let twice := 2 * (num % den)
  if twice < den then q
  else if den < twice then q + 1
  else if q % 2 == 0 then q else q + 1

/-- `num / den * 2 ^ (-e)` as a quotient of two naturals. -/
def scaleByTwo (num den : Nat) (e : Int) : Nat × Nat :=
  if 0 ≤ e then (num, den * Nat.pow 2 e.toNat) else (num * Nat.pow 2 (-e).toNat, den)

/-- The exponent at which the positive quotient `num / den` has a significand of 53 bits, but not
below that of the subnormal numbers. -/
def significandExponent (num den : Nat) : Int :=
  let e : Int := (Nat.log2 num : Int) - (Nat.log2 den : Int) - 52
  let (a, b) := scaleByTwo num den e
  let e := if a / b < Nat.pow 2 52 then e - 1 else e
  max e (-1074)

/-- The double nearest to `± num / den`, a tie going to the even significand; `none` if that is
beyond the finite doubles. -/
def nearestDouble? (negative : Bool) (num den : Nat) : Option Float :=
  let sign : Nat := if negative then Nat.pow 2 63 else 0
  if num == 0 then some (Float.ofBits (UInt64.ofNat sign))
  else
    let e := significandExponent num den
    let (a, b) := scaleByTwo num den e
    let m := roundDiv a b
    let (m, e) := if m == Nat.pow 2 53 then (Nat.pow 2 52, e + 1) else (m, e)
    if 971 < e then none
    else if m < Nat.pow 2 52 then some (Float.ofBits (UInt64.ofNat (sign + m)))
    else some (Float.ofBits
      (UInt64.ofNat (sign + (e + 1075).toNat * Nat.pow 2 52 + (m - Nat.pow 2 52))))

/-- The double nearest to an integer, `none` if it is too large. -/
def doubleOfInt? (n : Int) : Option Float :=
  nearestDouble? (n < 0) n.natAbs 1

def infinity (negative : Bool) : Float :=
  if negative then -(1.0 / 0.0) else 1.0 / 0.0

def notANumber : Float :=
  0.0 / 0.0

def signBit (x : Float) : Bool :=
  match Binary64.ofFloat x with
  | .nan => false
  | .infinite negative => negative
  | .finite negative _ _ => negative

/-- Why a double has no integer part. -/
inductive IntegerPartError where
  | infinite
  | nan
deriving DecidableEq, Repr, Inhabited

/-- Applies a rounding of quotients, given for each sign, to a double. -/
def integerPart (whole : Bool → Nat → Nat → Nat) (x : Float) : Except IntegerPartError Int :=
  match Binary64.ofFloat x with
  | .nan => .error .nan
  | .infinite _ => .error .infinite
  | .finite negative m e =>
    let (num, den) := Binary64.quotient m e
    let n : Int := whole negative num den
    .ok (if negative then -n else n)

def truncateDouble (x : Float) : Except IntegerPartError Int :=
  integerPart (fun _ num den => num / den) x

def floorDouble (x : Float) : Except IntegerPartError Int :=
  integerPart (fun negative num den => if negative then (num + den - 1) / den else num / den) x

def ceilDouble (x : Float) : Except IntegerPartError Int :=
  integerPart (fun negative num den => if negative then num / den else (num + den - 1) / den) x

/-- The exact comparison of an integer with a double, `none` if the double is not a number. -/
def compareIntDouble (n : Int) (x : Float) : Option Ordering :=
  match Binary64.ofFloat x with
  | .nan => none
  | .infinite negative => some (if negative then .gt else .lt)
  | .finite negative m e =>
    let (num, den) := Binary64.quotient m e
    some (compare (n * den) (if negative then -(num : Int) else num))

end SmallCpp
