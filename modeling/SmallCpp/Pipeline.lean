import SmallCpp.Literal.Check
import SmallCpp.Options
import SmallCpp.Parse.Stmt

/-!
# From source to output

A source passes through four phases: tokens, program, literal check, run. The first phase that fails
ends the processing, and the output of a run that fails is dropped.
-/

namespace SmallCpp

/-- What became of a source. -/
structure Outcome where
  tokens : List Token := []
  program : Option Program := none
  result : Except Error CodeText

namespace Outcome

def success (o : Outcome) : Bool :=
  match o.result with
  | .ok _ => true
  | .error _ => false

def render (o : Outcome) : CodeText :=
  match o.result with
  | .ok output => output
  | .error e => .ofString e.summary

end Outcome

/-- The parts of an outcome side by side, with nothing in the place of those that it does not
have. -/
structure Report where
  success : Bool := false
  output : CodeText := []
  phase : Option String := none
  message : Option String := none
  diagnostic : Option String := none
  error : Option Error := none
  tokens : List Token := []
  program : Option Program := none

def Outcome.report (o : Outcome) : Report :=
  match o.result with
  | .ok output => { success := true, output, tokens := o.tokens, program := o.program }
  | .error e =>
    { phase := some e.phase.name, message := some e.message, diagnostic := some e.render,
      error := some e, tokens := o.tokens, program := o.program }

def rejectionError (file : String) (declared : String) (inferred : Option String) (name : String)
    (position : Position) : Error where
  cause := .badInitializer declared inferred name
  location := some (position.inFile file)

/-- The result of the literal check: an error, a fault, or nothing. -/
def checkPhase (p : Program) : Except Fault (Option Error) :=
  match p.check.stop with
  | none | some .tooDeep => .ok none
  | some (.rejected declared inferred name position) =>
    .ok (some (rejectionError p.file declared inferred name position))
  | some (.fault fault) => .error fault

/-- The outcome of a source on input tokens. A fault while reading a literal or checking one, or one
that ends a run without an error, has no place in an outcome. -/
def process (text : String) (input : List String) (options : Options) : Except Fault Outcome := do
  let source := Source.ofText text options.file
  match source.tokenize with
  | .error e => return { result := .error e }
  | .ok tokens =>
    let lines := source.texts
    match Program.ofTokens? tokens source.file lines with
    | .error (.fault fault) => throw fault
    | .error (.error e) => return { tokens, result := .error e }
    | .ok program =>
      let complaint ← if options.checkLiterals then checkPhase program else pure none
      match complaint with
      | some e => return { tokens, program := some program, result := .error e }
      | none =>
        match (program.run input options.limits lines).result with
        | .ok output => return { tokens, program := some program, result := .ok output }
        | .error (.error e) => return { tokens, program := some program, result := .error e }
        | .error (.fault fault) => throw fault

/-- How the work on a source may end: as it is computed, or at any moment because the memory is used
up, which no phase handles. -/
inductive ProcessEnds (text : String) (input : List String) (options : Options) :
    Except Fault Outcome → Prop where
  | computed : ProcessEnds text input options (process text input options)
  | memory : ProcessEnds text input options (.error .outOfMemory)

/-! ### Files -/

/-- Why a path gives no text. -/
inductive PathError where
  | missing
  | directory
  /-- A part of the path that should be a directory is none. -/
  | notDirectory
  | nameTooLong
deriving DecidableEq, Repr, Inhabited

namespace PathError

def number : PathError → Nat
  | missing => 2
  | notDirectory => 20
  | directory => 21
  | nameTooLong => 36

def text : PathError → String
  | missing => "No such file or directory"
  | notDirectory => "Not a directory"
  | directory => "Is a directory"
  | nameTooLong => "File name too long"

end PathError

/-- Why a file has no outcome. -/
inductive FileFailure where
  | unreadable (error : PathError) (path : String)
  /-- Reading or checking a literal failed, or the run cannot start. -/
  | fault (fault : Fault)
deriving DecidableEq, Repr, Inhabited

def FileFailure.message : FileFailure → String
  | unreadable error path => s!"[Errno {error.number}] {error.text}: " ++ Text.quoted path
  | fault f => f.message

def checkPath (path : String) : Except Fault Unit :=
  if path.contains '\x00' then .error .zeroInPath else .ok ()

def processFile (readFile : String → Except PathError String) (path : String)
    (input : List String) (options : Options) : Except FileFailure Outcome := do
  (checkPath path).mapError .fault
  match readFile path with
  | .error e => throw (.unreadable e path)
  | .ok text => (process text input { options with file := path }).mapError .fault

end SmallCpp
