import SmallCpp.Number.Decimal
import SmallCpp.Number.Shortest

/-!
# Reading doubles

A double is read from a decimal text with an optional point and exponent, digits of any script and
single underscores between digits, or from the names of the infinities and of the non-number. The
result is the double nearest to the decimal number.
-/

namespace SmallCpp

/-- The double nearest to `± digits * 10 ^ k`; beyond the finite doubles an infinity. Exponents far
outside the range of doubles are settled without computing the power of ten. -/
def decimalValue (negative : Bool) (digits : Nat) (k : Int) : Float :=
  let magnitude : Int := (digitCount digits : Int) + k
  if digits == 0 || magnitude < -330 then if negative then -0.0 else 0.0
  else if 320 < magnitude then infinity negative
  else
    let (num, den) := scaleByTen digits 1 (-k)
    (nearestDouble? negative num den).getD (infinity negative)

/-- The run of digits and underscores at the front of a text, and what follows it. -/
def spanNumeral (cs : List Char) : List Char × List Char :=
  cs.span fun c => Text.isDigit c || c == '_'

def optionalRun? (cs : List Char) : Option (List Nat) :=
  if cs.isEmpty then some [] else digitRun? cs

def readExponent? : List Char → Option Int
  | [] => some 0
  | c :: cs =>
    if c == 'e' || c == 'E' then
      let (negative, ds) := splitSign cs
      (digitRun? ds).map fun run =>
        if negative then -(ofDigitList run : Int) else (ofDigitList run : Int)
    else none

/-- An unsigned decimal text: its digits before and after the point, and its exponent. -/
def readDecimal? (cs : List Char) : Option (List Nat × List Nat × Int) := do
  let (whole, rest) := spanNumeral cs
  let (fraction, rest) :=
    match rest with
    | '.' :: more => spanNumeral more
    | _ => ([], rest)
  if whole.isEmpty && fraction.isEmpty then none
  else
    let wholeDigits ← optionalRun? whole
    let fractionDigits ← optionalRun? fraction
    let exponent ← readExponent? rest
    return (wholeDigits, fractionDigits, exponent)

/-- The double that a text denotes: blanks around it and a sign are allowed. -/
def readDouble? (s : String) : Option Float :=
  let (negative, cs) := splitSign (Text.trimBoth Text.isNumberBlank s.toList)
  let word := String.ofList (cs.map Char.toLower)
  if word == "inf" || word == "infinity" then some (infinity negative)
  else if word == "nan" then some notANumber
  else
    (readDecimal? cs).map fun (whole, fraction, exponent) =>
      decimalValue negative (ofDigitList (whole ++ fraction)) (exponent - fraction.length)

end SmallCpp
