import SmallCpp.Text.Blank
import SmallCpp.Text.Digit

/-!
# Decimal integers

Writing and reading integers in base ten. Both directions refuse integers of more than
`digitLimit` digits, which bounds the work of one conversion.
-/

namespace SmallCpp

/-- The largest number of digits that a conversion between integers and text handles. -/
def digitLimit : Nat := 4300

/-- Decimal text of an integer of at most `digitLimit` digits. -/
def integerText? (n : Int) : Option String :=
  if n.natAbs < Nat.pow 10 digitLimit then some (toString n) else none

/-- Why a text does not denote an integer. -/
inductive IntegerError where
  | malformed
  | tooLong (count : Nat)
deriving DecidableEq, Repr, Inhabited

/-- The values of a run of decimal digits, where one underscore may stand between two digits. -/
def digitRun? : List Char → Option (List Nat)
  | [] => none
  | [c] => (Text.digitValue? c).map fun d => [d]
  | c :: next :: rest =>
    match Text.digitValue? c with
    | none => none
    | some d => (if next == '_' then digitRun? rest else digitRun? (next :: rest)).map (d :: ·)

/-- The number that a list of digits denotes, most significant first. -/
def ofDigitList (ds : List Nat) : Nat :=
  ds.foldl (fun n d => 10 * n + d) 0

/-- Splits a sign off a number's text; the flag says that it is negative. -/
def splitSign : List Char → Bool × List Char
  | '-' :: cs => (true, cs)
  | '+' :: cs => (false, cs)
  | cs => (false, cs)

def readNatural (cs : List Char) : Except IntegerError Nat :=
  match digitRun? cs with
  | none => .error .malformed
  | some ds => if ds.length ≤ digitLimit then .ok (ofDigitList ds) else .error (.tooLong ds.length)

/-- Reads an integer: surrounding blanks and a sign are allowed. -/
def readInteger (s : String) : Except IntegerError Int :=
  let (negative, cs) := splitSign (Text.trimBoth Text.isNumberBlank s.toList)
  (readNatural cs).map fun n => if negative then -(n : Int) else n

end SmallCpp
