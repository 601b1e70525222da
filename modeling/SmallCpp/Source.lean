/-!
# Source text

A source is normalized before anything else reads it: line endings become line feeds and zero-width
characters are dropped. Offsets, lines and columns all refer to the normalized text.
-/

namespace SmallCpp

namespace Source

/-- The characters of no width that editors and web pages leave in a text. -/
def isZeroWidth (c : Char) : Bool :=
  c == '\u200b' || c == '\u200c' || c == '\u200d' || c == '\ufeff'

/-- Turns each pair of carriage return and line feed into a line feed. -/
def joinPairs : List Char → List Char
  | [] => []
  | '\r' :: '\n' :: cs => '\n' :: joinPairs cs
  | c :: cs => c :: joinPairs cs

/-- Turns each carriage return into a line feed. -/
def replaceReturns (cs : List Char) : List Char :=
  cs.map fun c => if c == '\r' then '\n' else c

def normalize (s : String) : List Char :=
  (replaceReturns (joinPairs s.toList)).filter fun c => !isZeroWidth c

/-- The lines of a text, without their line feeds; there is always at least one. -/
def lines (cs : List Char) : List (List Char) :=
  match cs with
  | [] => [[]]
  | c :: rest =>
    if c == '\n' then [] :: lines rest
    else
      match lines rest with
      | [] => [[c]]
      | line :: more => (c :: line) :: more

def lineTexts (cs : List Char) : Array String :=
  ((lines cs).map String.ofList).toArray

def lineAt? (texts : Array String) (line : Int) : Option String :=
  if 0 < line then texts[(line - 1).toNat]? else none

end Source

/-- A place in a text. -/
structure Position where
  line : Nat := 1
  column : Nat := 1
deriving DecidableEq, Repr, Inhabited

/-! ### Offsets -/

namespace Source

/-- The offsets at which the lines of a text begin: zero, and right behind every line feed. -/
def lineStarts (cs : List Char) : Array Nat :=
  (0 :: cs.zipIdx.filterMap fun (c, i) => if c == '\n' then some (i + 1) else none).toArray

/-- Where a number belongs among the entries of a sorted table between two indices, behind those
that equal it. The range is halved until it is empty, so it never takes more rounds than it has
entries. -/
def bisectFrom (table : Array Nat) (x : Nat) : Nat → Nat → Nat → Nat
  | 0, low, _ => low
  | rounds + 1, low, high =>
    if low < high then
      let middle := (low + high) / 2
      if x < table.getD middle 0 then bisectFrom table x rounds low middle
      else bisectFrom table x rounds (middle + 1) high
    else low

/-- The number of entries of a sorted table that are at most `x`. -/
def bisect (table : Array Nat) (x : Nat) : Nat :=
  bisectFrom table x table.size 0 table.size

/-- The place of an offset, given the offsets at which the lines begin. -/
def placeOf (starts : Array Nat) (offset : Nat) : Position :=
  let index := bisect starts offset - 1
  ⟨index + 1, offset - starts.getD index 0 + 1⟩

def locate (cs : List Char) (offset : Nat) : Position :=
  placeOf (lineStarts cs) offset

end Source

end SmallCpp
