import SmallCpp.Error
import SmallCpp.Number.Binary64

/-!
# Numbers

The numbers of a running program: integers of any size and doubles. An operation on two integers is
exact; as soon as a double takes part the other operand becomes a double too, which fails for an
integer beyond the doubles. Comparisons are always exact.
-/

namespace SmallCpp

inductive Number where
  | int (n : Int)
  | real (x : Float)
deriving BEq, Repr, Inhabited

namespace Number

def toDouble : Number → Except Fault Float
  | real x => .ok x
  | int n =>
    match doubleOfInt? n with
    | some x => .ok x
    | none => .error .integerTooLarge

/-- Combines two integers exactly and any other two numbers as doubles. -/
def combine (ints : Int → Int → Int) (reals : Float → Float → Float) :
    Number → Number → Except Fault Number
  | int m, int n => .ok (int (ints m n))
  | a, b => do
    let x ← a.toDouble
    let y ← b.toDouble
    return real (reals x y)

def add : Number → Number → Except Fault Number :=
  combine (· + ·) (· + ·)

def sub : Number → Number → Except Fault Number :=
  combine (· - ·) (· - ·)

def mul : Number → Number → Except Fault Number :=
  combine (· * ·) (· * ·)

/-- The quotient of the magnitudes of two integers, negated if just one of the two is negative. -/
def quotient (m n : Int) : Int :=
  let q : Nat := m.natAbs / n.natAbs
  if decide (m < 0) == decide (n < 0) then q else -q

/-- The remainder of the magnitudes of two integers, negated if the dividend is negative. -/
def remainder (m n : Int) : Int :=
  let r : Nat := m.natAbs % n.natAbs
  if 0 ≤ m then r else -r

def neg : Number → Number
  | int n => int (-n)
  | real x => real (-x)

/-- The exact comparison of two numbers, `none` if one of them is a non-number. -/
def compare? : Number → Number → Option Ordering
  | int m, int n => some (compare m n)
  | int m, real y => compareIntDouble m y
  | real x, int n => (compareIntDouble n x).map Ordering.swap
  | real x, real y =>
    if x < y then some .lt else if x == y then some .eq else if y < x then some .gt else none

def isZero : Number → Bool
  | int n => n == 0
  | real x => x == 0.0

def truncate : Number → Except Fault Int
  | int n => .ok n
  | real x =>
    match truncateDouble x with
    | .ok n => .ok n
    | .error .infinite => .error .infinityToInteger
    | .error .nan => .error .nanToInteger

end Number

end SmallCpp
