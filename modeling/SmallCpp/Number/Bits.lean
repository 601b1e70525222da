/-!
# Bitwise operations on integers

Integers of any size as infinite sequences of bits: a negative integer is the complement of a
natural number, so each operation reduces to one on naturals.
-/

namespace SmallCpp.Bits

def without (m n : Nat) : Nat :=
  m ^^^ (m &&& n)

def complement (n : Int) : Int :=
  -n - 1

def bitAnd : Int → Int → Int
  | .ofNat m, .ofNat n => .ofNat (m &&& n)
  | .ofNat m, .negSucc n => .ofNat (without m n)
  | .negSucc m, .ofNat n => .ofNat (without n m)
  | .negSucc m, .negSucc n => .negSucc (m ||| n)

def bitOr : Int → Int → Int
  | .ofNat m, .ofNat n => .ofNat (m ||| n)
  | .ofNat m, .negSucc n => .negSucc (without n m)
  | .negSucc m, .ofNat n => .negSucc (without m n)
  | .negSucc m, .negSucc n => .negSucc (m &&& n)

def bitXor : Int → Int → Int
  | .ofNat m, .ofNat n => .ofNat (m ^^^ n)
  | .ofNat m, .negSucc n => .negSucc (m ^^^ n)
  | .negSucc m, .ofNat n => .negSucc (m ^^^ n)
  | .negSucc m, .negSucc n => .ofNat (m ^^^ n)

/-- A shift to the left, which multiplies by a power of two. -/
def shiftLeft (n : Int) (places : Nat) : Int :=
  n * Int.pow 2 places

/-- A shift to the right, which divides by a power of two and rounds down. -/
def shiftRight (n : Int) (places : Nat) : Int :=
  n >>> places

end SmallCpp.Bits
