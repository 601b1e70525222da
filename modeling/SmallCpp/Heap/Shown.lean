import SmallCpp.Heap.Copy
import SmallCpp.Number.Layout

/-!
# Shown forms of values

How a value appears inside a message, and the text that it converts to where any value is taken as a
text.
-/

namespace SmallCpp

def integerText (n : Int) : HeapM String :=
  match integerText? n with
  | some s => pure s
  | none => failFault .tooManyDigits

/-- The shown form of a value, where the stack has room for `room` frames: vectors and maps take
three of them, pairs and elements of maps two and lists one. The address that the form of a position
ends with is left out. -/
def shownWithin (room : Nat) (v : Value) : HeapM String :=
  match v with
  | .null => pure "None"
  | .bool b => pure (if b then "True" else "False")
  | .int n => integerText n
  | .real x => pure (shortestText x)
  | .nan _ => pure (shortestText notANumber)
  | .char s | .text s => pure (Text.quotedText s)
  | .list items =>
    match room with
    | room + 1 => do return "[" ++ ", ".intercalate (← items.mapM (shownWithin room)) ++ "]"
    | _ => throw .tooDeep
  | .vector loc =>
    match room with
    | room + 3 => do
      let (_, items) ← getVector loc
      return "Vector([" ++ ", ".intercalate (← items.toList.mapM (shownWithin room)) ++ "])"
    | _ => throw .tooDeep
  | .map loc =>
    match room with
    | room + 3 => do
      let (_, _, entries) ← getMap loc
      let shown ← entries.mapM fun (k, item) => do
        return (← shownWithin room k) ++ ": " ++ (← shownWithin room item)
      return "Map(\x7b" ++ ", ".intercalate shown ++ "\x7d)"
    | _ => throw .tooDeep
  | .pair loc =>
    match room with
    | room + 2 => do
      let (first, second, _) ← getPair loc
      return "Pair(" ++ (← shownWithin room first) ++ ", " ++ (← shownWithin room second) ++ ")"
    | _ => throw .tooDeep
  | .entry _ key _ =>
    match room with
    | room + 2 => do return "MapEntry(" ++ (← shownWithin room key) ++ ")"
    | _ => throw .tooDeep
  | .iterator _ _ => pure "<Iterator object>"
  | .mapEnd _ => pure "MapEnd()"

def shown (v : Value) : HeapM String :=
  inRoom (shownWithin · v)

/-- A text or character as it is, any other value in its shown form. -/
def plainText (v : Value) : HeapM CodeText :=
  match v.asText? with
  | some s => pure s
  | none => do return .ofString (← shown v)

end SmallCpp
