import SmallCpp.Machine.State

/-!
# Reading and writing locations

Elements, entries and fields are read and stored in their containers. A character is stored by
storing the text around it anew, at the location of the text. -/

namespace SmallCpp

/-- The number of elements of a value that has elements one after the other. -/
def lengthOf (v : Value) : HeapM Nat :=
  match v with
  | .list items => pure items.length
  | .vector loc => do return (← getVector loc).2.size
  | v =>
    match v.asText? with
    | some s => pure s.length
    | none => failOperands s!"object of type '{v.kindName}' has no len()"

/-- The checked index of a character in the value that is held where a text was. -/
def checkCharacter (v : Value) (index : Int) : HeapM Nat := do
  let size ← lengthOf v
  if 0 ≤ index && index < size then return index.toNat
  else fail (.indexOutOfRange "string[]" index "string" size)

/-- The character at an index of the value that is held where a text was; an element of a list is
taken for one, however long its text is. -/
def characterAt (v : Value) (index : Int) : HeapM Value := do
  let i ← checkCharacter v index
  match v with
  | .list items => return .char (← plainText (items.getD i .null))
  | v =>
    match v.asText? with
    | some s => return .char [s.getD i 0]
    | none => failOperands s!"'{v.kindName}' object is not subscriptable"

/-- The value that is held where a text was, with another character at an index. -/
def withCharacter (v : Value) (index : Int) (new : Value) : HeapM Value := do
  let i ← checkCharacter v index
  match v with
  | .list items => plainSum (.list (items.take i)) new
  | v =>
    match v.asText? with
    | some s => plainSum (← plainSum (.text (s.take i)) new) (.text (s.drop (i + 1)))
    | none => failOperands s!"'{v.kindName}' object is not subscriptable"

def pairFieldValue (loc : Nat) (field : PairField) : HeapM Value := do
  let (first, second, _) ← getPair loc
  return match field with
    | .first => first
    | .second => second

def entryFieldValue (map : Nat) (key : Value) (field : PairField) : HeapM Value :=
  match field with
  | .first => pure key
  | .second => entryValue map key

def readPlace : Place → Run Value
  | .variable cell => do return ((← get).cells[cell]?.map Cell.value).getD .null
  | .vectorSlot vector index => onHeap (vectorGet vector index)
  | .mapSlot map key => onHeap (mapGet map key)
  | .pairField pair field => onHeap (pairFieldValue pair field)
  | .entryField map key field => onHeap (entryFieldValue map key field)
  | .character text index => do
    let v ← readPlace text
    onHeap (characterAt v index)

def writePlace : Place → Value → Run Unit
  | .variable cell, v =>
    modify fun s => { s with cells := s.cells.modify cell fun c => { c with value := v } }
  | .vectorSlot vector index, v => onHeap (vectorSet vector index v)
  | .mapSlot map key, v => onHeap (mapSet map key v)
  | .pairField pair .first, v => onHeap (updatePair pair fun _ second => (v, second))
  | .pairField pair .second, v => onHeap (updatePair pair fun first _ => (first, v))
  | .entryField _ _ .first, _ => raise .keyAssignment
  | .entryField map key .second, v => onHeap (mapStore map key v)
  | .character text index, v => do
    let old ← readPlace text
    let new ← onHeap (withCharacter old index v)
    writePlace text new

namespace Reference

def read (r : Reference) : Run Value :=
  readPlace r.place

def write (r : Reference) (v : Value) : Run Unit :=
  writePlace r.place v

def assign (r : Reference) (v : Value) : Run Unit := do
  r.write (← onHeap (coerceTo r.type v))

end Reference

/-- The field of a pair or of a map's element as a location. -/
def fieldOf? (owner : Value) (name : String) : Run (Option Reference) := do
  match owner, PairField.ofName? name with
  | .pair loc, some field =>
    let (_, _, firstType, secondType) := (← get).heap.pairAt loc
    return some ⟨.pairField loc field, if field == .first then firstType else secondType⟩
  | .entry map key _, some field =>
    let (keyType, valueType, _) := (← get).heap.mapAt map
    return some ⟨.entryField map key field, if field == .first then keyType else valueType⟩
  | _, _ => return none

def slotOf? (container index : Value) : Run (Option Reference) := do
  match container with
  | .vector loc => return some ⟨.vectorSlot loc index, ((← get).heap.vectorAt loc).1⟩
  | .map loc => return some ⟨.mapSlot loc index, ((← get).heap.mapAt loc).2.1⟩
  | _ => return none

/-- The character of a text at a location, as a location. -/
def characterOf (text : Reference) (index : Int) : Reference :=
  ⟨.character text.place index, some { base := .char }⟩

end SmallCpp
