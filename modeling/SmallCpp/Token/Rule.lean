import SmallCpp.Token.Basic

/-!
# Lexical rules

The lexer tries a fixed list of rules at each offset and takes the first that matches there. The
order of the rules is part of the language: the first match wins, not the longest.
-/

namespace SmallCpp.Lexical

def keywords : List String :=
  ["int", "float", "double", "char", "void", "bool", "auto", "const", "static", "string", "vector",
   "map", "pair", "if", "else", "while", "for", "do", "return", "break", "continue", "cout", "cin",
   "endl", "true", "false", "new", "delete", "class", "struct", "public", "private", "protected",
   "namespace", "using", "template", "typename"]

def isWordStart (c : Char) : Bool :=
  c.isAlpha || c == '_'

def isWordChar (c : Char) : Bool :=
  c.isAlphanum || c == '_'

/-- The number of characters of the class `p` at the front of a text. -/
def spanLength (p : Char → Bool) (cs : List Char) : Nat :=
  (cs.takeWhile p).length

/-- The word at the front of a text, empty if none starts there. -/
def wordAt (cs : List Char) : List Char :=
  match cs with
  | [] => []
  | c :: _ => if isWordStart c then cs.takeWhile isWordChar else []

/-! ### The pieces -/

/-- The length of a text up to the end of a block comment, if it ends. -/
def blockCommentLength? : List Char → Option Nat
  | [] => none
  | '*' :: '/' :: _ => some 2
  | _ :: cs => (blockCommentLength? cs).map (· + 1)

/-- A comment up to the end of the line, or between its two marks. -/
def commentLength : List Char → Nat
  | '/' :: '/' :: cs => 2 + spanLength (· != '\n') cs
  | '/' :: '*' :: cs => ((blockCommentLength? cs).map (2 + ·)).getD 0
  | _ => 0

/-- The length of a non-empty name without line feeds, up to and with the closing sign. -/
def headerLength (close : Char) (cs : List Char) : Nat :=
  let n := spanLength (fun c => c != close && c != '\n') cs
  if n == 0 then 0 else if cs[n]? == some close then n + 1 else 0

/-- An include directive: the word, blanks, and a header between its signs. -/
def directiveLength (cs : List Char) : Nat :=
  if "#include".toList.isPrefixOf cs then
    let blanks := spanLength Text.isBlank (cs.drop 8)
    let header :=
      match cs.drop (8 + blanks) with
      | '<' :: rest => headerLength '>' rest
      | '"' :: rest => headerLength '"' rest
      | _ => 0
    if header == 0 then 0 else 8 + blanks + 1 + header
  else 0

def pairLength (texts : List (Char × Char)) : List Char → Nat
  | a :: b :: _ => if texts.contains (a, b) then 2 else 0
  | _ => 0

def oneLength (chars : List Char) : List Char → Nat
  | c :: _ => if chars.contains c then 1 else 0
  | [] => 0

/-- A reserved word that no letter, digit or underscore follows. -/
def keywordLength (cs : List Char) : Nat :=
  let word := wordAt cs
  if keywords.contains (String.ofList word) then word.length else 0

def identifierLength (cs : List Char) : Nat :=
  (wordAt cs).length

/-- The exponent of a number, nothing if it is not complete. -/
def exponentLength : List Char → Nat
  | e :: cs =>
    if e == 'e' || e == 'E' then
      let sign :=
        match cs with
        | c :: _ => if c == '+' || c == '-' then 1 else 0
        | [] => 0
      let digits := spanLength Text.isDigit (cs.drop sign)
      if digits == 0 then 0 else 1 + sign + digits
    else 0
  | [] => 0

/-- Digits, a point with further digits, and an exponent; all but the first digits optional. -/
def numberLength (cs : List Char) : Nat :=
  let whole := spanLength Text.isDigit cs
  if whole == 0 then 0
  else
    let fraction :=
      match cs.drop whole with
      | '.' :: rest => 1 + spanLength Text.isDigit rest
      | _ => 0
    whole + fraction + exponentLength (cs.drop (whole + fraction))

def charLength : List Char → Nat
  | '\'' :: '\\' :: c :: '\'' :: _ => if c == '\n' then 0 else 4
  | '\'' :: c :: '\'' :: _ => if c == '\'' || c == '\\' || c == '\n' then 0 else 3
  | _ => 0

/-- The length of a string literal after its first quote, up to and with the last one. -/
def stringRestLength? : List Char → Option Nat
  | [] => none
  | c :: cs =>
    if c == '"' then some 1
    else if c == '\n' then none
    else if c == '\\' then
      match cs with
      | [] => none
      | d :: rest => if d == '\n' then none else (stringRestLength? rest).map (· + 2)
    else (stringRestLength? cs).map (· + 1)

/-- Characters and escapes between double quotes, on one line. -/
def stringLength : List Char → Nat
  | '"' :: cs => ((stringRestLength? cs).map (· + 1)).getD 0
  | _ => 0

/-! ### The table -/

/-- A class of pieces: what becomes of such a piece, and how long it is at the front of a text. -/
structure Rule where
  /-- The class of the token, `none` if the piece is dropped. -/
  kind : Option TokenKind
  /-- The length of the piece at the front of a text, zero if there is none. -/
  length : List Char → Nat

def longOperators : List (Char × Char) :=
  [('+', '+'), ('-', '-'), ('=', '='), ('!', '='), ('<', '='), ('>', '='), ('&', '&'), ('|', '|'),
   ('-', '>'), ('+', '='), ('-', '='), ('*', '='), ('/', '='), ('%', '=')]

def shortOperators : List Char :=
  ['+', '-', '*', '/', '=', '<', '>', '!', '%', '&', '|', '~', '^', '.']

def delimiters : List Char :=
  ['[', ']', '(', ')', '\x7b', '\x7d', ';', ',', ':']

def rules : List Rule :=
  [⟨none, commentLength⟩,
   ⟨some .directive, directiveLength⟩,
   ⟨some .stream, pairLength [('<', '<'), ('>', '>')]⟩,
   ⟨some .operator, pairLength longOperators⟩,
   ⟨some .keyword, keywordLength⟩,
   ⟨some .identifier, identifierLength⟩,
   ⟨some .number, numberLength⟩,
   ⟨some .char, charLength⟩,
   ⟨some .string, stringLength⟩,
   ⟨some .scope, pairLength [(':', ':')]⟩,
   ⟨some .operator, oneLength shortOperators⟩,
   ⟨some .delimiter, oneLength delimiters⟩,
   ⟨none, spanLength Text.isBlank⟩]

/-- The class and the length of the piece that the first matching rule finds at the front of a
text, `none` if no rule matches there. -/
def firstMatch? (cs : List Char) : Option (Option TokenKind × Nat) :=
  rules.findSome? fun rule =>
    let n := rule.length cs
    if n == 0 then none else some (rule.kind, n)

end SmallCpp.Lexical
