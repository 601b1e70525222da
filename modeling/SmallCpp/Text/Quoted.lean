import SmallCpp.Text.Printable

/-!
# Quoted text

How a text is shown inside a message: between quotes, with every code point that does not print
written as an escape. The quotes are single, unless the text holds a single quote and no double
one.
-/

namespace SmallCpp.Text

/-- Hexadecimal digits of `n`, lower case, padded with zeros to `width`. -/
def hexDigits (width n : Nat) : String :=
  let ds := Nat.toDigits 16 n
  String.ofList (List.replicate (width - ds.length) '0' ++ ds)

/-- The escape of a code point, with as few digits as its size allows. -/
def escaped (p : CodePoint) : String :=
  if p.val < 0x100 then "\\x" ++ hexDigits 2 p.val
  else if p.val < 0x10000 then "\\u" ++ hexDigits 4 p.val
  else "\\U" ++ hexDigits 8 p.val

/-- The quote that surrounds a text: single, unless that would need escapes and a double one
would not. -/
def quoteFor (t : CodeText) : Char :=
  if t.contains (.ofChar '\'') && !t.contains (.ofChar '"') then '"' else '\''

/-- One character of a quoted text, as it is or behind a backslash. -/
def quotedChar (quote c : Char) : String :=
  if c == quote || c == '\\' then String.ofList ['\\', c]
  else if c == '\n' then "\\n"
  else if c == '\r' then "\\r"
  else if c == '\t' then "\\t"
  else if isPrintable (.ofChar c) then String.singleton c
  else escaped (.ofChar c)

def quotedPoint (quote : Char) (p : CodePoint) : String :=
  match p.char? with
  | some c => quotedChar quote c
  | none => escaped p

/-- A text between quotes, its unprintable code points as escapes. -/
def quotedText (t : CodeText) : String :=
  let quote := quoteFor t
  String.singleton quote ++ String.join (t.map (quotedPoint quote)) ++ String.singleton quote

def quoted (s : String) : String :=
  quotedText (.ofString s)

end SmallCpp.Text
