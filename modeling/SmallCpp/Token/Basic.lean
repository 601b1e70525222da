import SmallCpp.Error

/-!
# Tokens

A token is a piece of the normalized source with the class that the lexer found for it.
-/

namespace SmallCpp

inductive TokenKind where
  | keyword
  | identifier
  | number
  | string
  | char
  | stream
  /-- An arithmetic, logical, assignment or member operator. -/
  | operator
  | scope
  | delimiter
  | directive
  | endOfInput
deriving DecidableEq, Repr, Inhabited

def TokenKind.name : TokenKind → String
  | keyword => "KEYWORD"
  | identifier => "IDENTIFIER"
  | number => "NUMBER"
  | string => "STRING"
  | char => "CHAR"
  | stream => "STREAM"
  | operator => "OPERATOR"
  | scope => "SCOPE"
  | delimiter => "DELIMITER"
  | directive => "INCLUDE"
  | endOfInput => "EOF"

/-- A piece of the source with its class and its place. -/
structure Token where
  kind : TokenKind
  /-- The text of the piece, empty at the end of the input. -/
  text : String
  offset : Nat
  position : Position := {}
deriving DecidableEq, Repr, Inhabited

namespace Token

def is (t : Token) (kind : TokenKind) (text : String) : Bool :=
  t.kind == kind && t.text == text

def isKeyword (t : Token) (words : List String) : Bool :=
  t.kind == .keyword && words.contains t.text

def isDelimiter (t : Token) (text : String) : Bool :=
  t.is .delimiter text

def isOperator (t : Token) (texts : List String) : Bool :=
  t.kind == .operator && texts.contains t.text

def described (t : Token) : String :=
  if t.kind == .endOfInput then "end of input" else t.text

/-- A token with its class, its quoted text and its offset. -/
def shown (t : Token) : String :=
  s!"Token({t.kind.name}, " ++ Text.quoted t.text ++ s!", @{t.offset})"

def listed (t : Token) : String :=
  s!"{t.kind.name} {t.text} @{t.offset}"

end Token

end SmallCpp
