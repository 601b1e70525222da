import SmallCpp.Heap.Map
import SmallCpp.Heap.Operator
import SmallCpp.Heap.Plain
import SmallCpp.Heap.Vector
import SmallCpp.Link
import SmallCpp.Output

/-!
# The state of a running program

A running program has variables, containers, frames that bind names, unread input and output, and
two counters: the steps done and the calls in progress. A computation on that state ends with a
value, or stops: at an error, at a jump, or because a limit is reached.
-/

namespace SmallCpp

/-! ### Locations -/

/-- The two fields of a pair and of a map's element. -/
inductive PairField where
  | first
  | second
deriving DecidableEq, Repr, Inhabited

def PairField.ofName? (name : String) : Option PairField :=
  if name == "first" then some .first else if name == "second" then some .second else none

/-- A location that can be read and assigned. -/
inductive Place where
  | variable (cell : Nat)
  | vectorSlot (vector : Nat) (index : Value)
  | mapSlot (map : Nat) (key : Value)
  | pairField (pair : Nat) (field : PairField)
  | entryField (map : Nat) (key : Value) (field : PairField)
  | character (text : Place) (index : Int)
deriving BEq, Repr, Inhabited

/-- A location with the type that is recorded for it. -/
structure Reference where
  place : Place
  type : Option TypeExpr
deriving Repr, Inhabited

/-- The bindings of one scope, in the order of first declaration. -/
abbrev Frame := List (String × Reference)

/-- A frame with a name bound; a name that is bound already keeps its place. -/
def Frame.bind (name : String) (ref : Reference) : Frame → Frame
  | [] => [(name, ref)]
  | (n, r) :: frame => if n == name then (n, ref) :: frame else (n, r) :: Frame.bind name ref frame

def Frame.find? (frame : Frame) (name : String) : Option Reference :=
  (List.find? (fun b => b.1 == name) frame).map Prod.snd

/-! ### States and stops -/

/-- A variable: its value and its recorded type. -/
structure Cell where
  value : Value
  type : TypeExpr
deriving Repr, Inhabited

/-- A state of a run. -/
structure State where
  heap : Heap := {}
  cells : Array Cell := #[]
  globals : Frame := []
  /-- The bindings of the scopes inside it, innermost first. -/
  frames : List Frame := []
  depth : Nat := 0
  steps : Int := 0
  input : List String := []
  output : Output := {}
deriving Repr, Inhabited

/-- Why a computation ended without a value. -/
inductive Stop where
  /-- An error, with the position of the innermost statement in progress. -/
  | failed (error : RuntimeError) (position : Option Position)
  | fault (fault : Fault)
  | tooDeep
  | broke
  | continued
  | returned (value : Value)
  /-- The bound on the recursion is used up; the budget of steps is always used up first. -/
  | exhausted
deriving Repr, Inhabited

/-- A computation of a running program. -/
abbrev Run := EStateM Stop State

/-- Stops with an error, or with the fault of writing its message. -/
def raise {α : Type} (e : RuntimeError) : Run α :=
  throw (if e.isWritable then .failed e none else .fault .tooManyDigits)

/-- The stop that a failure of an operation on values amounts to. -/
def Failure.stop : Failure → Stop
  | .error e => .failed e none
  | .fault f => .fault f
  | .tooDeep => .tooDeep

/-- An operation on values as a computation of a running program. -/
def onHeap {α : Type} (m : HeapM α) : Run α := fun s =>
  let heap := s.heap
  let s := { s with heap := {} }
  match m heap with
  | .ok a heap => .ok a { s with heap }
  | .error failure heap => .error failure.stop { s with heap }

/-! ### Budgets -/

/-- What a run may use up. -/
structure Limits where
  maxSteps : Int
  maxCallDepth : Int
deriving DecidableEq, Repr, Inhabited

/-- The frames of nested evaluations that a run may have in progress: the stack is enlarged by forty
for each call that may be. -/
def Limits.maxNesting (l : Limits) : Nat :=
  (max (Stack.limit : Int) (l.maxCallDepth * 40 + Stack.limit)).toNat

/-- The largest number of frames that a stack can be enlarged to. -/
def largestNesting : Nat := 0x7FFFFFFF

def Limits.fault? (l : Limits) : Option Fault :=
  if l.maxNesting ≤ largestNesting then none else some .nestingLimitTooLarge

/-- Counts steps against the budget; a count that is not positive is free. -/
def charge (limits : Limits) (count : Int) : Run Unit := do
  if 0 < count then
    modify fun s => { s with steps := s.steps + count }
    if limits.maxSteps < (← get).steps then raise (.stepBudget limits.maxSteps)

def tick (limits : Limits) : Run Unit :=
  charge limits 1

/-- Stops if more evaluations are in progress than the limit allows. -/
def checkNesting (limits : Limits) (nesting : Nat) : Run Unit :=
  if nesting ≤ limits.maxNesting then pure () else throw .tooDeep

/-! ### Scopes -/

/-- Runs a computation in a new scope, which ends with it however it ends. -/
def inScope {α : Type} (m : Run α) : Run α := fun s =>
  let frames := s.frames
  match m { s with frames := [] :: frames } with
  | .ok a s => .ok a { s with frames }
  | .error e s => .error e { s with frames }

/-- Runs a computation as the body of a called function: only its own frame and the outermost scope
are visible. Frames and the number of calls are restored however it ends. -/
def calling {α : Type} (frame : Frame) (m : Run α) : Run α := fun s =>
  let frames := s.frames
  let depth := s.depth
  match m { s with frames := [frame], depth := depth + 1 } with
  | .ok a s => .ok a { s with frames, depth }
  | .error e s => .error e { s with frames, depth }

def callsInProgress : Run Nat := do
  return (← get).depth

/-- Records the position of a statement in an error that has none. -/
def locating {α : Type} (position : Position) (m : Run α) : Run α := fun s =>
  match m s with
  | .error (.failed e none) s => .error (.failed e (some position)) s
  | r => r

def declareName (name : String) (ref : Reference) : Run Unit :=
  modify fun s =>
    match s.frames with
    | [] => { s with globals := Frame.bind name ref s.globals }
    | frame :: frames => { s with frames := Frame.bind name ref frame :: frames }

/-- What a name is bound to in the nearest scope that binds it. -/
def State.lookup? (s : State) (name : String) : Option Reference :=
  match s.frames.findSome? fun frame => frame.find? name with
  | some ref => some ref
  | none => s.globals.find? name

def resolve (name : String) : Run Reference := do
  match (← get).lookup? name with
  | some ref => return ref
  | none => raise (.unboundName name)

def newVariable (value : Value) (type : TypeExpr) : Run Reference := fun s =>
  .ok ⟨.variable s.cells.size, some type⟩ { s with cells := s.cells.push ⟨value, type⟩ }

/-! ### Input and output -/

/-- Takes a word of the input. -/
def pull : Run String := do
  match (← get).input with
  | [] => raise .inputExhausted
  | token :: rest =>
    modify fun s => { s with input := rest }
    return token

def emit (text : CodeText) : Run Unit :=
  modify fun s => { s with output := s.output.write text }

def emitLineEnd : Run Unit :=
  modify fun s => { s with output := s.output.endLine }

end SmallCpp
