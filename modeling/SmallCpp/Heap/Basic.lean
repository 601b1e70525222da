import SmallCpp.Stack
import SmallCpp.TypeExpr
import SmallCpp.Value.Basic

/-!
# The heap

The containers of a running program. A container never moves and never changes its kind or its
recorded types; only its elements change.
-/

namespace SmallCpp

/-- A container with the recorded types of its elements. -/
inductive Object where
  | vector (element : Option TypeExpr) (items : Array Value)
  /-- Keys with their values, in the order of their insertion. -/
  | map (key value : Option TypeExpr) (entries : List (Value × Value))
  | pair (first second : Value) (firstType secondType : Option TypeExpr)
deriving Repr, Inhabited

/-- The containers of a running program, known by their place, and the marks in use. -/
structure Heap where
  objects : Array Object := #[]
  /-- The number of marks in use; the next mark is this number. -/
  marks : Nat := 0
  /-- The frames of the stack that an operation on nested values may take; it never changes. -/
  room : Nat := Stack.room
deriving Repr, Inhabited

/-- An operation on values that may change the heap. -/
abbrev HeapM := EStateM Failure Heap

/-! ### Computations in order

The first part of a computation on a state gives a value or an error, and the second part goes on
from there. -/

theorem bind_of_ok {ε σ α β : Type} {c : EStateM ε σ α} {f : α → EStateM ε σ β} {s t : σ} {a : α}
    (h : c s = .ok a t) : (c >>= f) s = f a t := by
  show EStateM.bind c f s = f a t
  rw [EStateM.bind, h]

theorem bind_of_error {ε σ α β : Type} {c : EStateM ε σ α} {f : α → EStateM ε σ β} {s t : σ} {e : ε}
    (h : c s = .error e t) : (c >>= f) s = .error e t := by
  show EStateM.bind c f s = .error e t
  rw [EStateM.bind, h]

/-- A computation in two parts that succeeds, succeeds in both. -/
theorem bind_eq_ok {ε σ α β : Type} {c : EStateM ε σ α} {f : α → EStateM ε σ β} {s u : σ} {b : β}
    (h : (c >>= f) s = .ok b u) : ∃ a t, c s = .ok a t ∧ f a t = .ok b u := by
  cases hc : c s with
  | ok a t => exact ⟨a, t, rfl, (bind_of_ok hc).symm.trans h⟩
  | error e t => rw [bind_of_error hc] at h; exact nomatch h

/-- Fails with an error, or with the fault of writing its message. -/
def fail {α : Type} (e : RuntimeError) : HeapM α :=
  throw (if e.isWritable then .error e else .fault .tooManyDigits)

def failFault {α : Type} (fault : Fault) : HeapM α :=
  throw (.fault fault)

/-- Fails because operands or arguments are of the wrong kind or number. -/
def failOperands {α : Type} (text : String) : HeapM α :=
  failFault (.operands text)

/-- The result of an operation that does not use the heap. -/
def orFail {α : Type} : Except Failure α → HeapM α
  | .ok a => pure a
  | .error failure => throw failure

def orFault {α : Type} : Except Fault α → HeapM α
  | .ok a => pure a
  | .error fault => failFault fault

/-! ### Access to the containers -/

namespace Heap

/-- The recorded element type and the items of the vector at a place. -/
def vectorAt (h : Heap) (loc : Nat) : Option TypeExpr × Array Value :=
  match h.objects[loc]? with
  | some (.vector element items) => (element, items)
  | _ => (none, #[])

/-- The recorded types and the entries of the map at a place. -/
def mapAt (h : Heap) (loc : Nat) : Option TypeExpr × Option TypeExpr × List (Value × Value) :=
  match h.objects[loc]? with
  | some (.map key value entries) => (key, value, entries)
  | _ => (none, none, [])

/-- The values and their recorded types of the pair at a place. -/
def pairAt (h : Heap) (loc : Nat) : Value × Value × Option TypeExpr × Option TypeExpr :=
  match h.objects[loc]? with
  | some (.pair first second firstType secondType) => (first, second, firstType, secondType)
  | _ => (.null, .null, none, none)

/-- The heap with another container at a new place, which is the number of places before. -/
def push (h : Heap) (o : Object) : Heap :=
  { h with objects := h.objects.push o }

def updateVector (h : Heap) (loc : Nat) (f : Array Value → Array Value) : Heap :=
  { h with objects := h.objects.modify loc fun
      | .vector element items => .vector element (f items)
      | o => o }

def updateMap (h : Heap) (loc : Nat) (f : List (Value × Value) → List (Value × Value)) : Heap :=
  { h with objects := h.objects.modify loc fun
      | .map key value entries => .map key value (f entries)
      | o => o }

def updatePair (h : Heap) (loc : Nat) (f : Value → Value → Value × Value) : Heap :=
  { h with objects := h.objects.modify loc fun
      | .pair first second firstType secondType =>
        let (first, second) := f first second
        .pair first second firstType secondType
      | o => o }

end Heap

/-- Adds a container and gives its place. -/
def alloc (o : Object) : HeapM Nat :=
  fun h => .ok h.objects.size (h.push o)

def newMark : HeapM Nat :=
  fun h => .ok h.marks { h with marks := h.marks + 1 }

/-- The double that an operation produces; a non-number is a new one. -/
def newReal (x : Float) : HeapM Value := do
  if x.isNaN then return .nan (← newMark) else return .real x

/-- The number that an operation produces; a non-number is a new one. -/
def newNumber : Number → HeapM Value
  | .int n => pure (.int n)
  | .real x => newReal x

def getVector (loc : Nat) : HeapM (Option TypeExpr × Array Value) := do
  return (← get).vectorAt loc

def getMap (loc : Nat) : HeapM (Option TypeExpr × Option TypeExpr × List (Value × Value)) := do
  return (← get).mapAt loc

def getPair (loc : Nat) : HeapM (Value × Value × Option TypeExpr × Option TypeExpr) := do
  return (← get).pairAt loc

def updateVector (loc : Nat) (f : Array Value → Array Value) : HeapM Unit :=
  modify fun h => h.updateVector loc f

def updateMap (loc : Nat) (f : List (Value × Value) → List (Value × Value)) : HeapM Unit :=
  modify fun h => h.updateMap loc f

def updatePair (loc : Nat) (f : Value → Value → Value × Value) : HeapM Unit :=
  modify fun h => h.updatePair loc f

def newVector (element : Option TypeExpr) (items : Array Value) : HeapM Value := do
  return .vector (← alloc (.vector element items))

def newMap (key value : Option TypeExpr) (entries : List (Value × Value)) : HeapM Value := do
  return .map (← alloc (.map key value entries))

def newPair (first second : Value) (firstType secondType : Option TypeExpr) : HeapM Value := do
  return .pair (← alloc (.pair first second firstType secondType))

end SmallCpp
