import SmallCpp.Machine.Exec

/-!
# Running a program

A run executes the initialization in the outermost scope and then calls the main function, if there
is one; without one the initialization is the program, and a return ends it. However a run ends, it
ends with the rendered output or with one failure.
-/

namespace SmallCpp

/-- Runs the statements of the outermost scope; tells whether they were not ended by a return,
which they may be only if no main function follows. -/
def untilReturn (hasMain : Bool) (body : Run Unit) : Run Bool := fun s =>
  match body s with
  | .ok _ s => .ok true s
  | .error (.returned _) s => if hasMain then raise .returnOutsideFunction s else .ok false s
  | .error e s => .error e s

/-- The frames that are in use when the first statement of a program is executed. -/
def startNesting : Nat := Stack.inUse

/-- The state in which a run starts: operations on values may take the frames that are left. -/
def State.start (limits : Limits) (input : List String) : State :=
  { heap := { room := limits.maxNesting - startNesting }, input }

/-- The initialization of a program, as far as it goes; tells whether it was not ended by a
return. -/
def runInit (m : Machine) (run : RunStmt) : Run Bool :=
  untilReturn m.linked.main?.isSome (runAll run startNesting m.linked.init)

/-- The initialization and the main function, given a way to run statements. -/
def runMain (m : Machine) (run : RunStmt) : Run Unit := do
  if ← runInit m run then
    match m.linked.main? with
    | none => return ()
    | some f => discard (invoke m run startNesting f [])

/-- Why a run has no output. -/
inductive RunFailure where
  | error (error : Error)
  /-- A fault that is not reported as an error: limits that cannot be set, a key that is not there
  and cannot be shown, or memory that is used up. -/
  | fault (fault : Fault)
deriving Repr, Inhabited

def Stop.failure (file : String) (lines : Array String) : Stop → RunFailure
  | failed e position =>
    .error
      { cause := .runtime e
        location := position.map fun p => p.inFile file
        sourceLine := position.bind fun p => Source.lineAt? lines p.line }
  -- the text of a missing key is only written here, where nothing handles a fault any more
  | fault (.unshownKey reason) => .fault reason.fault
  | fault .outOfMemory => .fault .outOfMemory
  | fault f => .error { cause := .runtime (.stray f) }
  | tooDeep | exhausted => .error { cause := .runtime .nestingBudget }
  | broke | continued => .error { cause := .runtime .loopExitOutsideLoop }
  | returned _ => .error { cause := .runtime .returnOutsideFunction }

/-- How a run ended, and the state it left. -/
structure RunReport where
  result : Except RunFailure CodeText
  state : State

def reportOf (file : String) (lines : Array String) : EStateM.Result Stop State Unit → RunReport
  | .ok _ s => ⟨.ok s.output.render, s⟩
  | .error e s => ⟨.error (e.failure file lines), s⟩

def Limits.level (l : Limits) : Nat :=
  l.maxSteps.toNat + 1

/-- The run of a program on input tokens, given a way to run statements. -/
def Program.runWith (run : RunStmt) (p : Program) (input : List String) (limits : Limits)
    (lines : Array String) : RunReport :=
  let start := State.start limits input
  match limits.fault? with
  | some fault => ⟨.error (.fault fault), start⟩
  | none =>
    reportOf p.file lines (runMain ⟨p.link, limits⟩ run start)

def Program.run (p : Program) (input : List String) (limits : Limits) (lines : Array String) :
    RunReport :=
  p.runWith (exec ⟨p.link, limits⟩ limits.level) input limits lines

/-- How a run may end: as it is computed, or at any moment because the memory is used up, which no
part of a run handles. -/
inductive Program.Ends (p : Program) (input : List String) (limits : Limits)
    (lines : Array String) :
    Except RunFailure CodeText → Prop where
  | computed : p.Ends input limits lines (p.run input limits lines).result
  | memory : p.Ends input limits lines (.error (.fault .outOfMemory))

/-- A variable of the outermost scope: its name, its recorded type and its value, or why it cannot
be read. -/
structure GlobalValue where
  name : String
  type : Option TypeExpr
  value : Except Stop Value

def readBindings : Frame → State → List GlobalValue × State
  | [], s => ([], s)
  | (name, r) :: frame, s =>
    match r.read s with
    | .ok v s =>
      let (values, s) := readBindings frame s
      (⟨name, r.type, .ok v⟩ :: values, s)
    | .error e s =>
      let (values, s) := readBindings frame s
      (⟨name, r.type, .error e⟩ :: values, s)

/-- The variables of the outermost scope, in the order of first declaration. -/
def State.globalValues (s : State) : List GlobalValue × State :=
  readBindings s.globals s

end SmallCpp
