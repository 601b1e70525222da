import SmallCpp.Pipeline
import SmallCpp.Stmt.Outline
import SmallCpp.Text.Terminal

/-!
# The command line

The command runs a source file on input tokens, or lists its tokens or its outline. It is a function
of its arguments, the files it names and the environment.
-/

namespace SmallCpp.CommandLine

/-! ### Arguments -/

/-- The options of the command. -/
inductive Flag where
  | input
  | inputFile
  | tokens
  | outline
  | maxSteps
  | verbose
  | version
deriving DecidableEq, Repr, Inhabited

def Flag.takesValue : Flag → Bool
  | input | inputFile | maxSteps => true
  | _ => false

def Flag.ofLong? (name : String) : Option Flag :=
  match name with
  | "--input" => some .input
  | "--input-file" => some .inputFile
  | "--tokens" => some .tokens
  | "--ast" => some .outline
  | "--max-steps" => some .maxSteps
  | "--verbose" => some .verbose
  | "--version" => some .version
  | _ => none

def Flag.ofLetter? (c : Char) : Option Flag :=
  match c with
  | 'i' => some .input
  | 'v' => some .verbose
  | _ => none

/-- What an argument stands for. -/
inductive Shape where
  | operand
  /-- Options with their values; those without a value have an empty one. -/
  | options (flags : List (Flag × String))
  /-- Options and a last one whose value is the next argument. -/
  | awaiting (flags : List (Flag × String)) (last : Flag)
  /-- An unknown option, or one with a value that it does not take. -/
  | unknown
deriving DecidableEq, Repr, Inhabited

def Shape.cons (flag : Flag) : Shape → Shape
  | options flags => options ((flag, "") :: flags)
  | awaiting flags last => awaiting ((flag, "") :: flags) last
  | shape => shape

/-- A group of letters; the first of them that takes a value has it from the rest of the group, or
else from the next argument. -/
def Shape.ofLetters : List Char → Shape
  | [] => options []
  | c :: cs =>
    match Flag.ofLetter? c with
    | none => unknown
    | some flag =>
      if !flag.takesValue then cons flag (ofLetters cs)
      else if cs.isEmpty then awaiting [] flag
      else options [(flag, String.ofList cs)]

/-- The name of a long option, and the value behind its equals sign. -/
def splitAtEquals (arg : String) : String × Option String :=
  let cs := arg.toList
  let name := cs.takeWhile (· != '=')
  match cs.drop name.length with
  | _ :: value => (String.ofList name, some (String.ofList value))
  | [] => (arg, none)

def Shape.ofArg (arg : String) : Shape :=
  if arg.length < 2 || !arg.startsWith "-" then operand
  else
    let (name, value?) := splitAtEquals arg
    match Flag.ofLong? name, value? with
    | some flag, some value => if flag.takesValue then options [(flag, value)] else unknown
    | some flag, none => if flag.takesValue then awaiting [] flag else options [(flag, "")]
    | none, _ => if arg.startsWith "--" then unknown else ofLetters (arg.toList.drop 1)

/-- The arguments, split into options with their values and operands. -/
structure Split where
  flags : List (Flag × String) := []
  operands : List String := []
deriving DecidableEq, Repr, Inhabited

/-- Splits the arguments; after a double dash all are operands. There is no result for an unknown
option or a missing value. -/
def splitArgs? : List String → Option Split
  | [] => some {}
  | arg :: args =>
    if arg == "--" then some { operands := args }
    else
      match Shape.ofArg arg, args with
      | .operand, args => (splitArgs? args).map fun s => { s with operands := arg :: s.operands }
      | .options flags, args => (splitArgs? args).map fun s => { s with flags := flags ++ s.flags }
      | .awaiting flags last, value :: args =>
        (splitArgs? args).map fun s => { s with flags := flags ++ (last, value) :: s.flags }
      | .awaiting _ _, [] => none
      | .unknown, _ => none

namespace Split

def values (s : Split) (flag : Flag) : List String :=
  (s.flags.filter fun f => f.1 == flag).map Prod.snd

def has (s : Split) (flag : Flag) : Bool :=
  !(s.values flag).isEmpty

end Split

/-! ### Invocations -/

/-- What the arguments ask for. -/
structure Invocation where
  sourceFile : String
  inputs : List String
  inputFile : Option String
  tokens : Bool
  outline : Bool
  maxSteps : Option Int
  verbose : Bool
deriving DecidableEq, Repr, Inhabited

/-- A path without its empty parts and those that stay where they are. -/
def tidyPath (path : String) : String :=
  let parts := (path.splitOn "/").filter fun part => part != "" && part != "."
  let tidy := "/".intercalate parts
  if path.startsWith "/" then "/" ++ tidy else if tidy.isEmpty then "." else tidy

/-- The budget of steps that the arguments give: a positive integer, and the last one counts. -/
def givenSteps? (values : List String) : Option (Option Int) :=
  match values.getLast? with
  | none => some none
  | some text =>
    match readInteger text with
    | .ok n => if 1 ≤ n then some (some n) else none
    | .error _ => none

/-- What the arguments ask for, `none` if they are not in order. -/
def Invocation.ofSplit? (s : Split) : Option Invocation := do
  match s.operands with
  | [sourceFile] =>
    let maxSteps ← givenSteps? (s.values .maxSteps)
    return {
      sourceFile
      inputs := s.values .input
      inputFile := (s.values .inputFile).getLast?
      tokens := s.has .tokens
      outline := s.has .outline
      maxSteps
      verbose := s.has .verbose }
  | _ => none

/-- The request that a list of arguments makes. -/
inductive Request where
  | usage
  | version
  | invoke (i : Invocation)
deriving DecidableEq, Repr, Inhabited

def Request.ofArgs (args : List String) : Request :=
  match splitArgs? args with
  | none => .usage
  | some s =>
    if s.has .version then .version
    else
      match Invocation.ofSplit? s with
      | none => .usage
      | some i => .invoke i

/-! ### Replies -/

/-- An exit code and what is written to the two streams. -/
structure Reply where
  exit : Nat
  stdout : String := ""
  stderr : String := ""
deriving DecidableEq, Repr, Inhabited

def buildErrorCode : Nat := 1

def usageCode : Nat := 2

def internalErrorCode : Nat := 3

/-- Lines as they are written: without control sequences, each with its line feed. -/
def linesText (lines : List String) : String :=
  String.join (lines.map fun line => (Text.withoutSequences (.ofString line)).toString ++ "\n")

/-- The output of a program as it is written, which needs a text that can be encoded. -/
def outputText (output : CodeText) : Except Fault String :=
  let written := Text.withoutSequences output
  match written.firstSurrogates? with
  | some (offset, surrogates) => .error (.unencodable offset surrogates)
  | none => .ok (written.toString ++ "\n")

/-- What else can go wrong. -/
inductive Trouble where
  | error (e : Error)
  /-- A parameter, a file or a permission that is not in order. -/
  | parameter (message : String)
  | internal (message : String)
deriving Repr, Inhabited

def Trouble.reply (verbose : Bool) : Trouble → Reply
  | error e =>
    { exit := buildErrorCode
      stderr := linesText (e.summary :: if verbose then [e.render] else []) }
  | parameter message => { exit := usageCode, stderr := linesText ["Error: " ++ message] }
  | internal message =>
    { exit := internalErrorCode, stderr := linesText ["Internal error: " ++ message] }

def versionText : String := "cppmini, version 1.0.0"

def tokensReply (verbose : Bool) (source : Source) : Reply :=
  match source.tokenize with
  | .error e => (Trouble.error e).reply verbose
  | .ok tokens =>
    { exit := 0
      stdout := linesText ((tokens.takeWhile fun t => t.kind != .endOfInput).map Token.listed) }

def outlineReply (verbose : Bool) (source : Source) : Except Fault Reply :=
  match source.parse with
  | .error (.error e) => .ok ((Trouble.error e).reply verbose)
  | .error (.fault fault) => .error fault
  | .ok program => .ok { exit := 0, stdout := linesText [program.outline] }

def outcomeReply (verbose : Bool) (o : Outcome) : Except Fault Reply := do
  match o.result with
  | .ok output => return { exit := 0, stdout := ← outputText output }
  | .error e => return (Trouble.error e).reply verbose

/-- The reply to an invocation, given the contents of its files and the environment; `none` if a
file is missing. -/
def Invocation.reply (i : Invocation) (readFile : String → Option String)
    (env : List (String × String)) : Except Fault (Option Reply) := do
  (i.sourceFile :: i.inputFile.toList).forM checkPath
  match readFile i.sourceFile, i.inputFile.map readFile with
  | none, _ | _, some none => return none
  | some text, inputText =>
    let file := tidyPath i.sourceFile
    let source := Source.ofText text file
    if i.tokens then return some (tokensReply i.verbose source)
    else if i.outline then return some (← outlineReply i.verbose source)
    else
      let standard := Options.fromEnv env
      let options : Options :=
        { standard with file, maxSteps := i.maxSteps.getD standard.maxSteps }
      let words := i.inputs.flatMap Text.words ++ Text.words ((inputText.bind id).getD "")
      let outcome ← process text words options
      return some (← outcomeReply i.verbose outcome)

def reply (args : List String) (readFile : String → Option String)
    (env : List (String × String)) : Except Fault Reply :=
  match Request.ofArgs args with
  | .usage => .ok { exit := usageCode }
  | .version => .ok { exit := 0, stdout := linesText [versionText] }
  | .invoke i => do
    match ← i.reply readFile env with
    | some r => return r
    | none => return { exit := usageCode }

end SmallCpp.CommandLine
