import SmallCpp.Heap.Convert

/-!
# Vectors

Access to the elements of a vector is checked; every failed access leaves the vector as it was.
-/

namespace SmallCpp

/-- An index as an integer: a number, with its fraction cut off. -/
def asIndex (v : Value) : HeapM Int := do
  let n ← orFail v.number
  orFault n.truncate

/-- The checked index of an element of a vector, for the given operation. -/
def checkIndex (operation : String) (loc : Nat) (index : Value) : HeapM Nat := do
  let i ← asIndex index
  let size := (← getVector loc).2.size
  if 0 ≤ i && i < size then return i.toNat
  else fail (.indexOutOfRange operation i "vector" size)

def itemAt (loc index : Nat) : HeapM Value := do
  return (← getVector loc).2.getD index .null

def vectorGet (loc : Nat) (index : Value) : HeapM Value := do
  itemAt loc (← checkIndex "vector[]" loc index)

def vectorSet (loc : Nat) (index value : Value) : HeapM Unit := do
  let i ← checkIndex "vector[]" loc index
  updateVector loc fun items => items.set! i value

inductive VectorMethod where
  | pushBack
  | popBack
  | at
  | size
  | empty
  | clear
  | front
  | back
  | resize
  | assign
  | start
  | finish
deriving DecidableEq, Repr, Inhabited

def VectorMethod.ofName? (name : String) : Option VectorMethod :=
  match name with
  | "push_back" => some .pushBack
  | "pop_back" => some .popBack
  | "at" => some .at
  | "size" => some .size
  | "empty" => some .empty
  | "clear" => some .clear
  | "front" => some .front
  | "back" => some .back
  | "resize" => some .resize
  | "assign" => some .assign
  | "begin" => some .start
  | "end" => some .finish
  | _ => none

/-- Adds copies of a value to a vector, each converted to the element type. -/
def appendCopies (loc : Nat) (element : Option TypeExpr) (fill : Value) : Nat → HeapM Unit
  | 0 => pure ()
  | n + 1 => do
    let v ← coerceTo element fill
    updateVector loc fun items => items.push v
    appendCopies loc element fill n

/-- Changes the number of elements; new ones are copies of `value`, or of the default of the
element type if that is nothing. -/
def resizeVector (loc : Nat) (count value : Value) : HeapM Value := do
  let n ← asIndex count
  if n < 0 then fail (.negativeResize n)
  let (element, items) ← getVector loc
  let size := items.size
  let fill ←
    match value with
    | .null => defaultValue element
    | v => pure v
  updateVector loc fun items => items.take n.toNat
  appendCopies loc element fill (n.toNat - size)
  return .null

/-- The first or last element of a vector that is not empty. -/
def outerItem (operation : String) (loc : Nat) (index : Nat → Nat) : HeapM Value := do
  let size := (← getVector loc).2.size
  if size == 0 then fail (.emptyContainer operation "vector")
  else itemAt loc (index size)

/-- A call of a member function of the vector at a place. -/
def callVector (method : VectorMethod) (loc : Nat) (args : List Value) : HeapM Value :=
  match method, args with
  | .pushBack, [v] => do
    let element := (← getVector loc).1
    let v ← coerceTo element v
    updateVector loc fun items => items.push v
    return .null
  | .popBack, [] => do
    let size := (← getVector loc).2.size
    if size == 0 then fail (.emptyContainer "vector::pop_back" "vector")
    updateVector loc fun items => items.pop
    return .null
  | .at, [index] => do itemAt loc (← checkIndex "vector::at" loc index)
  | .size, [] => do return .int (← getVector loc).2.size
  | .empty, [] => do return .bool (← getVector loc).2.isEmpty
  | .clear, [] => do
    updateVector loc fun _ => #[]
    return .null
  | .front, [] => outerItem "vector::front" loc fun _ => 0
  | .back, [] => outerItem "vector::back" loc fun size => size - 1
  | .resize, [count] => resizeVector loc count .null
  | .resize, [count, value] => resizeVector loc count value
  | .assign, [count, value] => do
    updateVector loc fun _ => #[]
    resizeVector loc count value
  | .start, [] => pure (.iterator loc 0)
  | .finish, [] => do return .iterator loc (← getVector loc).2.size
  | _, _ => failOperands "wrong number of arguments"

end SmallCpp
