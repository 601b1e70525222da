import SmallCpp.Heap.Convert

/-!
# Maps

A map holds each key once, in the order of first insertion. Keys are converted to the recorded key
type before they are looked up.
-/

namespace SmallCpp

/-- The key under which a map holds a value: converted to the key type, and able to be a key. -/
def mapKey (loc : Nat) (key : Value) : HeapM Value := do
  let keyType := (← getMap loc).1
  let key ← coerceTo keyType key
  checkKey key
  return key

def mapFind? (loc : Nat) (key : Value) : HeapM (Option Value) := do
  let (_, _, entries) ← getMap loc
  return lookupKey key entries

def mapStore (loc : Nat) (key value : Value) : HeapM Unit :=
  updateMap loc (storeEntry key value)

/-- Reads by subscript; a missing key gets the default of the value type. -/
def mapGet (loc : Nat) (key : Value) : HeapM Value := do
  let key ← mapKey loc key
  match ← mapFind? loc key with
  | some v => return v
  | none =>
    let valueType := (← getMap loc).2.1
    let v ← defaultValue valueType
    mapStore loc key v
    return v

def mapSet (loc : Nat) (key value : Value) : HeapM Unit := do
  let key ← mapKey loc key
  mapStore loc key value

inductive MapMethod where
  | insert
  | find
  | count
  | size
  | empty
  | finish
  | erase
  | clear
deriving DecidableEq, Repr, Inhabited

def MapMethod.ofName? (name : String) : Option MapMethod :=
  match name with
  | "insert" => some .insert
  | "find" => some .find
  | "count" => some .count
  | "size" => some .size
  | "empty" => some .empty
  | "end" => some .finish
  | "erase" => some .erase
  | "clear" => some .clear
  | _ => none

/-- The key and the value that an insertion is given: those of a pair, or copies of the two values
of a brace list. -/
def insertedEntry (entry : Value) : HeapM (Value × Value) :=
  match entry with
  | .pair loc => do
    let (first, second, _) ← getPair loc
    return (first, second)
  | .list _ => do
    let (first, second) ← twoValues entry
    let first ← copyValue first
    let second ← copyValue second
    return (first, second)
  | _ => fail .insertNeedsPair

/-- Adds an entry unless its key is there; tells whether it was added. -/
def mapInsert (loc : Nat) (entry : Value) : HeapM Value := do
  let (first, second) ← insertedEntry entry
  let key ← mapKey loc first
  match ← mapFind? loc key with
  | some _ => return .bool false
  | none =>
    let valueType := (← getMap loc).2.1
    let value ← coerceTo valueType second
    mapStore loc key value
    return .bool true

/-- Removes the entry of a key; tells how many entries were removed. -/
def mapErase (loc : Nat) (key : Value) : HeapM Value := do
  let key ← mapKey loc key
  match ← mapFind? loc key with
  | some _ =>
    updateMap loc fun entries => entries.filter fun e => !sameKey e.1 key
    return .int 1
  | none => return .int 0

def callMap (method : MapMethod) (loc : Nat) (args : List Value) : HeapM Value :=
  match method, args with
  | .insert, [entry] => mapInsert loc entry
  | .find, [key] => do
    let key ← mapKey loc key
    match ← mapFind? loc key with
    | some _ => return .entry loc key (← newMark)
    | none => return .mapEnd loc
  | .count, [key] => do
    let key ← mapKey loc key
    return .int (if (← mapFind? loc key).isSome then 1 else 0)
  | .erase, [key] => mapErase loc key
  | .size, [] => do return .int (← getMap loc).2.2.length
  | .empty, [] => do return .bool (← getMap loc).2.2.isEmpty
  | .clear, [] => do
    updateMap loc fun _ => []
    return .null
  | .finish, [] => pure (.mapEnd loc)
  | _, _ => failOperands "wrong number of arguments"

end SmallCpp
