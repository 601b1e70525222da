/-!
# Code points

A character of a running program is any code point. Unlike the characters of a source these include
the surrogates, each of which is half of a character in a code of two units, so the texts of a
running program are lists of code points and not all of them can be encoded.
-/

namespace SmallCpp

/-- A code point: a number below `0x110000`. -/
abbrev CodePoint := Fin 0x110000

instance neZeroCodePoints : @NeZero Nat .ofOfNat0 0x110000 := ⟨by decide⟩

namespace CodePoint

def ofChar (c : Char) : CodePoint :=
  ⟨c.toNat, by
    have h := c.valid
    simp only [UInt32.isValidChar, Nat.isValidChar] at h
    simp only [Char.toNat]
    omega⟩

def ofInt? (n : Int) : Option CodePoint :=
  if h : n.toNat < 0x110000 then if 0 ≤ n then some ⟨n.toNat, h⟩ else none else none

def isHighSurrogate (p : CodePoint) : Bool :=
  0xD800 ≤ p.val && p.val < 0xDC00

def isLowSurrogate (p : CodePoint) : Bool :=
  0xDC00 ≤ p.val && p.val < 0xE000

def isSurrogate (p : CodePoint) : Bool :=
  p.isHighSurrogate || p.isLowSurrogate

def char? (p : CodePoint) : Option Char :=
  if p.isSurrogate then none else some (Char.ofNat p.val)

def joined (high low : CodePoint) : Char :=
  Char.ofNat (0x10000 + (high.val - 0xD800) * 0x400 + (low.val - 0xDC00))

end CodePoint

/-- A text of a running program. -/
abbrev CodeText := List CodePoint

namespace CodeText

def ofString (s : String) : CodeText :=
  s.toList.map CodePoint.ofChar

def chars? (t : CodeText) : Option (List Char) :=
  t.mapM CodePoint.char?

/-- The text as characters: two surrogates in a row that make up a character are that character, and
any other surrogate is the replacement character. -/
def chars : CodeText → List Char
  | [] => []
  | [p] => [p.char?.getD '\uFFFD']
  | p :: q :: t =>
    if p.isHighSurrogate && q.isLowSurrogate then CodePoint.joined p q :: chars t
    else p.char?.getD '\uFFFD' :: chars (q :: t)

def toString (t : CodeText) : String :=
  String.ofList t.chars

/-- Where a text first holds surrogates: the offset, and the surrogates that stand there in a
row. -/
def firstSurrogates? (t : CodeText) : Option (Nat × CodeText) :=
  let before := t.takeWhile fun p => !p.isSurrogate
  match (t.drop before.length).takeWhile CodePoint.isSurrogate with
  | [] => none
  | run => some (before.length, run)

end CodeText

end SmallCpp
