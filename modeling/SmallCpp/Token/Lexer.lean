import SmallCpp.Token.Rule

/-!
# Splitting a source into tokens

The lexer tiles the source with pieces, each found by the first matching rule at its offset, until
the source ends or no rule matches. The pieces that are neither blank nor comment are the tokens.
-/

namespace SmallCpp.Lexical

/-- A piece of the source: the class of its token, if it is one, and its characters. -/
structure Piece where
  /-- The class of the token, `none` if the piece is dropped. -/
  kind : Option TokenKind
  chars : List Char
deriving DecidableEq, Repr, Inhabited

def tileWith : Nat → List Char → List Piece × List Char
  | 0, cs => ([], cs)
  | fuel + 1, cs =>
    match firstMatch? cs with
    | none => ([], cs)
    | some (kind, n) =>
      let (pieces, rest) := tileWith fuel (cs.drop n)
      (⟨kind, cs.take n⟩ :: pieces, rest)

/-- The pieces of a text, and what is left of it where no rule matches. A piece has at least one
character, so there are no more pieces than characters. -/
def tile (cs : List Char) : List Piece × List Char :=
  tileWith cs.length cs

/-- The tokens among pieces that start at the given offset of a text, and the offset of their end.
The lines of the text begin at `starts`. -/
def tokensFrom (starts : Array Nat) (offset : Nat) : List Piece → List Token × Nat
  | [] => ([], offset)
  | piece :: pieces =>
    let (tokens, last) := tokensFrom starts (offset + piece.chars.length) pieces
    match piece.kind with
    | none => (tokens, last)
    | some kind =>
      (⟨kind, String.ofList piece.chars, offset, Source.placeOf starts offset⟩ :: tokens, last)

end SmallCpp.Lexical

namespace SmallCpp

/-- A named source, normalized. -/
structure Source where
  file : String
  chars : List Char
deriving DecidableEq, Repr, Inhabited

namespace Source

def unnamed : String := "<input>"

def ofText (text : String) (file : String) : Source :=
  ⟨file, normalize text⟩

def texts (source : Source) : Array String :=
  lineTexts source.chars

def strayError (source : Source) (offset : Nat) (position : Position) (c : Char) : Error where
  cause := .strayCharacter offset (String.singleton c)
  location := some (position.inFile source.file)
  sourceLine := lineAt? source.texts position.line

/-- The tokens of a source, ended by one of class `endOfInput`, or the error at the first offset
where no rule matches. -/
def tokenize (source : Source) : Except Error (List Token) :=
  let starts := lineStarts source.chars
  let (pieces, rest) := Lexical.tile source.chars
  let (tokens, offset) := Lexical.tokensFrom starts 0 pieces
  let position := placeOf starts offset
  match rest with
  | [] => .ok (tokens ++ [⟨.endOfInput, "", offset, position⟩])
  | c :: _ => .error (source.strayError offset position c)

end Source

end SmallCpp
