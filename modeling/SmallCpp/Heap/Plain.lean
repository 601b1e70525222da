import SmallCpp.Heap.Equality
import SmallCpp.Heap.Shown

/-!
# Plain operators

The sum, the difference and the order of two values as they stand, without the rules that the
operators of the language add: texts and lists are joined, positions are moved, and a character is a
text.
-/

namespace SmallCpp

/-- The number that a value is, which a character is not. -/
def plainNumber? : Value → Option Number
  | .char _ => none
  | v => v.number?

/-- Fails because there is no sum, or no difference, of values of these kinds. -/
def failUnsupported {α : Type} (symbol : String) (a b : Value) : HeapM α :=
  failOperands s!"unsupported operand type(s) for {symbol}: '{a.kindName}' and '{b.kindName}'"

/-- The number of places that a value moves a position by: a number, with its fraction cut off, or
the integer that a text denotes. -/
def offsetOf (v : Value) : HeapM Int :=
  match v.asText? with
  | some s =>
    match (s.chars?.map fun cs => readInteger (String.ofList cs)).getD (.error .malformed) with
    | .ok n => pure n
    | .error .malformed => failFault (.badInteger (Text.quotedText s))
    | .error (.tooLong count) => failFault (.literalTooLong count)
  | none =>
    match v.number? with
    | some n => orFault n.truncate
    | none =>
      failOperands
        ("int() argument must be a string, a bytes-like object or a real number, not "
          ++ s!"'{v.kindName}'")

def plainSum (a b : Value) : HeapM Value :=
  match a, b with
  | .iterator vector index, b => do return .iterator vector (index + (← offsetOf b))
  | .list as, .list bs => pure (.list (as ++ bs))
  | .list _, b => failOperands s!"can only concatenate list (not \"{b.kindName}\") to list"
  | a, b =>
    match a.asText?, b.asText? with
    | some s, some t => pure (.text (s ++ t))
    | some _, none => failOperands s!"can only concatenate str (not \"{b.kindName}\") to str"
    | none, _ =>
      match plainNumber? a, plainNumber? b with
      | some m, some n => do newNumber (← orFault (m.add n))
      | _, _ => failUnsupported "+" a b

def plainDifference (a b : Value) : HeapM Value :=
  match a, b with
  | .iterator v i, .iterator w j =>
    if v == w then pure (.int (i - j)) else fail .differentContainers
  | .iterator vector index, b => do return .iterator vector (index - (← offsetOf b))
  | a, b =>
    match plainNumber? a, plainNumber? b with
    | some m, some n => do newNumber (← orFault (m.sub n))
    | _, _ => failUnsupported "-" a b

/-- The first of two lists comes before the second: by their first elements that differ, or else by
their lengths. -/
def lessItems (same less : Value → Value → HeapM Bool) : List Value → List Value → HeapM Bool
  | [], [] => pure false
  | [], _ :: _ => pure true
  | _ :: _, [] => pure false
  | a :: as, b :: bs => do
    if identical a b || (← same a b) then lessItems same less as bs else less a b

/-- The first value comes before the second, where the stack has room for `room` frames: lists take
one of them. -/
def lessWithin (room : Nat) (a b : Value) : HeapM Bool :=
  match a, b with
  | .list as, .list bs =>
    match room with
    | room + 1 => lessItems (sameWithin room) (lessWithin room) as bs
    | _ => throw .tooDeep
  | .iterator v i, .iterator w j =>
    if v == w then pure (i < j) else fail .differentContainers
  | .iterator _ _, _ => fail .differentContainers
  | a, b =>
    match a.asText?, b.asText? with
    | some s, some t => pure (s < t)
    | _, _ =>
      match plainNumber? a, plainNumber? b with
      | some m, some n => pure (m.compare? n == some .lt)
      | _, _ =>
        failOperands
          s!"'<' not supported between instances of '{a.kindName}' and '{b.kindName}'"

def plainLess (a b : Value) : HeapM Bool :=
  inRoom (lessWithin · a b)

end SmallCpp
