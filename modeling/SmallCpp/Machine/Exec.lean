import SmallCpp.Machine.Eval

/-!
# Executing statements

Every executed statement counts one step and every iteration of a loop one more, so the budget of
steps bounds the recursion. `exec m level` executes a statement with `level` steps to go at most:
each statement and function body inside it runs at a lower level, and each loop for at most that
number of rounds. The level is chosen so that the budget is always used up before it.
-/

namespace SmallCpp

/-- A way to run a statement, given the number of evaluations in progress. -/
abbrev RunStmt := Nat → Stmt → Run Unit

def runAll (run : RunStmt) (nesting : Nat) : List Stmt → Run Unit
  | [] => pure ()
  | s :: ss => do
    run nesting s
    runAll run nesting ss

/-- Runs the body of a loop once; tells whether the loop goes on. -/
def iterate (body : Run Unit) : Run Bool := fun s =>
  match body s with
  | .ok _ s => .ok true s
  | .error .continued s => .ok true s
  | .error .broke s => .ok false s
  | .error e s => .error e s

/-- Runs the body of a function; the value is that of its return, nothing without one. -/
def returning (body : Run Unit) : Run Value := fun s =>
  match body s with
  | .ok _ s => .ok .null s
  | .error (.returned v) s => .ok v s
  | .error .broke s | .error .continued s => raise .loopExitOutsideLoop s
  | .error e s => .error e s

/-- The result of a call: nothing for a function without result, else the returned value or the
default, converted. -/
def resultOf (type : TypeExpr) (v : Value) : HeapM Value :=
  if type.base == .void then pure .null
  else
    match v with
    | .null => defaultOf type
    | v => coerce type v

/-- Runs the body of a function in its frame, within the budget of nested calls. -/
def invoke (m : Machine) (run : RunStmt) (nesting : Nat) (f : Function) (frame : Frame) :
    Run Value := do
  if m.limits.maxCallDepth ≤ (← callsInProgress) then raise (.callBudget m.limits.maxCallDepth)
  let v ← returning (calling frame (runAll run (nesting + 2) (f.body.getD [])))
  onHeap (resultOf f.signature.returns v)

/-! ### Loops

A loop is given by one round of it, as a function of what follows the round: the rest of the
loop. -/

/-- A way to run a loop, given one round of it. -/
abbrev RunLoop := (Run Unit → Run Unit) → Run Unit

def atMost : Nat → RunLoop
  | 0, _ => throw .exhausted
  | bound + 1, round => fun s => round (atMost bound round) s

/-- One round of a loop that tests its condition first. -/
def whileRound (limits : Limits) (condition : Run Bool) (body : Run Unit) (again : Run Unit) :
    Run Unit := do
  if ← condition then
    tick limits
    if ← iterate body then again

def doRound (limits : Limits) (condition : Run Bool) (body : Run Unit) (again : Run Unit) :
    Run Unit := do
  tick limits
  if ← iterate body then
    if ← condition then again

/-- One round of a loop that tests its condition first and updates last. -/
def forRound (limits : Limits) (condition : Run Bool) (update body : Run Unit) (again : Run Unit) :
    Run Unit := do
  if ← condition then
    tick limits
    if ← iterate body then
      update
      again

/-! ### Declarations -/

/-- The values that initialize an array: those of a list, or the characters of a text and the
character zero. -/
def arrayInitializers (name : String) (v : Value) : Run (List Value) :=
  match v with
  | .list items => pure items
  | v =>
    match v.asText? with
    | some s => pure (s.map (.char [·]) ++ [.char [0]])
    | none => raise (.arrayNeedsBraces name)

/-- The items of an array of `size` elements: the initializers, converted, and then defaults. -/
def arrayItems (type : TypeExpr) (size : Nat) (elements : List Value) : HeapM (Array Value) := do
  let items ← elements.mapM (coerce type)
  defaultItems type (size - items.length) items.toArray

/-- The values that initialize the array of a declaration. -/
def declaredElements (value : Expr → Run Value) (d : Declarator) : Run (List Value) :=
  match d.initializer with
  | none => pure []
  | some e => do arrayInitializers d.name (← value e)

/-- The size of the array of a declaration with the given number of initializers. -/
def declaredSize (value : Expr → Run Value) (d : Declarator) (count : Nat) : Run Int :=
  match d.extent with
  | .sized e => do onHeap (asIndex (← value e))
  | _ => pure count

def buildArray (limits : Limits) (value : Expr → Run Value) (d : Declarator) : Run Value := do
  let elements ← declaredElements value d
  let size ← declaredSize value d elements.length
  if size < 0 then raise (.arrayNegativeSize d.name size)
  if size < elements.length then raise (.arrayTooManyInitializers d.name)
  charge limits size
  onHeap do newVector (some d.type) (← arrayItems d.type size.toNat elements)

def declaredLocation (m : Machine) (enter : Enter) (nesting : Nat) (d : Declarator) :
    Run Reference :=
  match d.extent with
  | .single =>
    match d.initializer with
    | none => do newVariable (← onHeap (defaultOf d.type)) d.type
    | some e =>
      if d.type.isReference then bindReference m enter (nesting + 1) d.type e
      else copyInto d.type (eval m enter nesting e)
  | _ => do
    let v ← buildArray m.limits (eval m enter (nesting + 1)) d
    newVariable v (.of .vector [d.type])

def declareVariable (m : Machine) (enter : Enter) (nesting : Nat) (d : Declarator) :
    Run Unit := do
  declareName d.name (← declaredLocation m enter nesting d)

/-! ### Statements -/

def readInto (r : Reference) : Run Unit := do
  let token ← pull
  r.assign (← onHeap (readToken token (r.type.map TypeExpr.base)))

def printPart (value : Expr → Run Value) (part : Expr) : Run Unit :=
  match part with
  | .endl _ => emitLineEnd
  | e => do
    let v ← value e
    emit (← onHeap (printed v))

def holds (value : Expr → Run Value) (e : Expr) : Run Bool := do
  truth (← value e)

/-- The truth of a condition that may be absent, which is then true. -/
def goesOn (value : Expr → Run Value) : Option Expr → Run Bool
  | none => pure true
  | some e => holds value e

def ifPresent {α : Type} (run : α → Run Unit) : Option α → Run Unit
  | none => pure ()
  | some a => run a

/-- A statement, given ways to run the statements and the loops inside it. -/
def perform (m : Machine) (run : RunStmt) (loop : RunLoop) (nesting : Nat) (s : Stmt) :
    Run Unit :=
  let enter : Enter := invoke m run
  let value : Expr → Run Value := eval m enter (nesting + 1)
  let inside (s : Stmt) : Run Unit := inScope (run (nesting + 2) s)
  match s with
  | .directive _ _ _ | .usingNamespace _ _ | .prototype _ => pure ()
  | .define signature _ _ => raise (.nestedFunction signature.name)
  | .declare d => declareVariable m enter (nesting + 1) d
  | .declareAll _ ds => ds.forM (declareVariable m enter (nesting + 3))
  | .block _ body => inScope (runAll run (nesting + 2) body)
  | .branch _ condition positive negative => do
    if ← holds value condition then inside positive else ifPresent inside negative
  | .whileLoop _ condition body => loop (whileRound m.limits (holds value condition) (inside body))
  | .doLoop _ body condition => loop (doRound m.limits (holds value condition) (inside body))
  | .forLoop _ start condition update body =>
    inScope do
      ifPresent (run (nesting + 1)) start
      loop (forRound m.limits (goesOn value condition)
        (ifPresent (fun e => discard (value e)) update) (inside body))
  | .leave _ none => throw (.returned .null)
  | .leave _ (some e) => do throw (.returned (← value e))
  | .breakLoop _ => throw .broke
  | .continueLoop _ => throw .continued
  | .read _ targets => targets.forM fun e => do readInto (← refer m enter (nesting + 1) e)
  | .print _ parts => parts.forM (printPart value)
  | .evaluate _ e => discard (value e)

/-- A statement with at most `level` steps to go: it counts its step, and an error inside it that
has no position yet gets that of the statement. -/
def exec (m : Machine) : Nat → Nat → Stmt → Run Unit
  | 0, _, _ => throw .exhausted
  | level + 1, nesting, s => do
    tick m.limits
    locating s.position (perform m (exec m level) (atMost level) (nesting + 2) s)

end SmallCpp
