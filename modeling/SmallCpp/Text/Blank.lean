/-!
# Blank characters

The white space of the language and of its input: the control characters that separate lines and
fields, the space, and the other space and line separators of Unicode.
-/

namespace SmallCpp.Text

/-- White-space characters: the separators among the controls, the space, the next-line and
no-break characters, and the space, line and paragraph separators of Unicode. -/
def isBlank (c : Char) : Bool :=
  let n := c.toNat
  (9 ≤ n && n ≤ 13) || (28 ≤ n && n ≤ 32) || n == 0x85 || n == 0xA0 || n == 0x1680
    || (0x2000 ≤ n && n ≤ 0x200A) || n == 0x2028 || n == 0x2029 || n == 0x202F || n == 0x205F
    || n == 0x3000

/-- The blanks that may surround a number: the separators of the C locale and every blank outside
ASCII. The information separators U+001C to U+001F are left out. -/
def isNumberBlank (c : Char) : Bool :=
  isBlank c && !(28 ≤ c.toNat && c.toNat ≤ 31)

/-- `cs` without the characters of the class `p` at its two ends. -/
def trimBoth (p : Char → Bool) (cs : List Char) : List Char :=
  ((cs.dropWhile p).reverse.dropWhile p).reverse

def strip (s : String) : String :=
  String.ofList (trimBoth isBlank s.toList)

/-- Adds a character to the words read so far, `word` being the one in progress, reversed. -/
def wordsFrom (word : List Char) : List Char → List String
  | [] => if word.isEmpty then [] else [String.ofList word.reverse]
  | c :: cs =>
    if isBlank c then
      if word.isEmpty then wordsFrom [] cs else String.ofList word.reverse :: wordsFrom [] cs
    else wordsFrom (c :: word) cs

/-- The maximal runs of non-blank characters of a text, in order. -/
def words (s : String) : List String :=
  wordsFrom [] s.toList

end SmallCpp.Text
