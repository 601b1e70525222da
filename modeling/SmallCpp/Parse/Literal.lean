import SmallCpp.Expr.Basic
import SmallCpp.Number.Reading
import SmallCpp.Parse.Basic

/-!
# Values of literals
-/

namespace SmallCpp.Parse

def escaped (c : Char) : Char :=
  match c with
  | 'n' => '\n'
  | 't' => '\t'
  | 'r' => '\r'
  | '0' => '\x00'
  | 'a' => '\x07'
  | 'b' => '\x08'
  | 'f' => '\x0c'
  | 'v' => '\x0b'
  | c => c

/-- A text with its escapes resolved; a backslash at the end stays. -/
def decodeEscapes : List Char → List Char
  | [] => []
  | ['\\'] => ['\\']
  | '\\' :: c :: cs => escaped c :: decodeEscapes cs
  | c :: cs => c :: decodeEscapes cs

def inner (text : String) : List Char :=
  (text.toList.drop 1).dropLast

/-- The constant of a number's text: a decimal number if it has a point or an exponent. -/
def numberLiteral (text : String) : Except Fault Literal :=
  if text.any fun c => c == '.' || c == 'e' || c == 'E' then
    match readDouble? text with
    | some x => .ok (.real x text)
    | none => .error (.badDouble text)
  else
    match readInteger text with
    | .ok n => .ok (.int n text)
    | .error (.tooLong count) => .error (.literalTooLong count)
    | .error .malformed => .error (.badInteger (Text.quoted text))

/-- The constant that a token of a literal's class denotes, `none` for the other classes. -/
def literal? (t : Token) : Except Fault (Option Literal) :=
  match t.kind with
  | .number => (numberLiteral t.text).map some
  | .string => .ok (some (.string (String.ofList (decodeEscapes (inner t.text))) t.text))
  | .char => .ok (some (.char ((decodeEscapes (inner t.text)).headD '\x00') t.text))
  | .keyword =>
    .ok (if t.text == "true" then some (.bool true)
      else if t.text == "false" then some (.bool false)
      else none)
  | _ => .ok none

end SmallCpp.Parse
