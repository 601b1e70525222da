import SmallCpp.Text.CodePoint

/-!
# Program output

Output is collected line by line. A line is completed by an explicit line end or by a line feed in
the written text; the fragments of a line that is not completed yet are kept apart.
-/

namespace SmallCpp

structure Output where
  lines : Array CodeText := #[]
  fragments : Array CodeText := #[]
deriving DecidableEq, Repr, Inhabited

namespace Output

def nothing : String := "Program executed successfully (no output)"

def lineFeed : CodePoint := .ofChar '\n'

def add (o : Output) (fragment : CodeText) : Output :=
  { o with fragments := o.fragments.push fragment }

/-- The text of the line that is not completed. -/
def pending (o : Output) : CodeText :=
  o.fragments.toList.flatten

def endLine (o : Output) : Output :=
  { lines := o.lines.push o.pending, fragments := #[] }

/-- Adds a text: each part of it that a line feed ends completes a line, and the rest is kept unless
it is empty. -/
def write (o : Output) (text : CodeText) : Output :=
  let parts := text.splitOn lineFeed
  let rest := parts.getLastD []
  let o := parts.dropLast.foldl (fun o part => (o.add part).endLine) o
  if rest.isEmpty then o else o.add rest

def render (o : Output) : CodeText :=
  let lines := if o.fragments.isEmpty then o.lines.toList else o.lines.toList ++ [o.pending]
  if lines.isEmpty then .ofString nothing else [lineFeed].intercalate lines

end Output

end SmallCpp
