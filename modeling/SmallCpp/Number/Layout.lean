import SmallCpp.Number.Shortest

/-!
# Texts of doubles

Three texts of a double are in use: the shortest one that reads back, the one with six significant
digits that a stream prints, and the one with six decimal places.
-/

namespace SmallCpp

/-- The decisions of a text of significant digits. -/
structure Layout where
  lowest : Int
  highest : Int
  /-- Whole numbers written positionally end in a point and a zero. -/
  wholePoint : Bool
deriving DecidableEq, Repr, Inhabited

/-- The shortest text is positional from 0.0001 up to sixteen whole digits. -/
def Layout.shortest : Layout := ⟨-4, 16, true⟩

/-- A stream prints positionally from 0.0001 up to six whole digits. -/
def Layout.general : Layout := ⟨-4, 6, false⟩

/-- `n` in decimal, padded with zeros on the left to `width`. -/
def padLeft (width n : Nat) : List Char :=
  let ds := Nat.toDigits 10 n
  List.replicate (width - ds.length) '0' ++ ds

def dropTrailingZeros (ds : List Char) : List Char :=
  (ds.reverse.dropWhile (· == '0')).reverse

/-- The digits after the point, with the point, or nothing if there are none. -/
def fractionText (ds : List Char) : List Char :=
  if ds.isEmpty then [] else '.' :: ds

/-- An exponent, with its sign and at least two digits. -/
def exponentText (x : Int) : List Char :=
  'e' :: (if x < 0 then '-' else '+') :: padLeft 2 x.natAbs

/-- Significant digits, none of them trailing zeros, written as the layout says. -/
def Layout.write (layout : Layout) (digits : List Char) (x : Int) : List Char :=
  if x < layout.lowest || layout.highest ≤ x then
    digits.take 1 ++ fractionText (digits.drop 1) ++ exponentText x
  else if x < 0 then
    '0' :: '.' :: List.replicate (x.natAbs - 1) '0' ++ digits
  else
    let whole := x.toNat + 1
    let fraction := digits.drop whole
    digits.take whole ++ List.replicate (whole - digits.length) '0'
      ++ (if fraction.isEmpty && layout.wholePoint then ['.', '0'] else fractionText fraction)

/-- A positive number in scientific form, written as the layout says. -/
def Layout.writeScientific (layout : Layout) (s : Scientific) : List Char :=
  layout.write (dropTrailingZeros (Nat.toDigits 10 s.digits)) s.exponent

/-- The text of a double, given that of the positive quotients and that of zero. -/
def doubleText (zero : List Char) (positive : Nat → Nat → List Char) (x : Float) : String :=
  match Binary64.ofFloat x with
  | .nan => "nan"
  | .infinite negative => if negative then "-inf" else "inf"
  | .finite negative m e =>
    let magnitude :=
      if m == 0 then zero
      else
        let (num, den) := Binary64.quotient m e
        positive num den
    String.ofList (if negative then '-' :: magnitude else magnitude)

/-- The shortest text that reads back as the same double. -/
def shortestText (x : Float) : String :=
  doubleText ['0', '.', '0']
    (fun num den => Layout.shortest.writeScientific (shortestDigits x.abs num den)) x

def generalText (x : Float) : String :=
  doubleText ['0'] (fun num den => Layout.general.writeScientific (roundedTo 6 num den)) x

def fixedText (x : Float) : String :=
  let places := fun num den =>
    let ds := padLeft 7 (roundDiv (num * Nat.pow 10 6) den)
    ds.take (ds.length - 6) ++ '.' :: ds.drop (ds.length - 6)
  doubleText (places 0 1) places x

end SmallCpp
