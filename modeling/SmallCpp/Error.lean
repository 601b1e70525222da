import SmallCpp.Number.Decimal
import SmallCpp.Source
import SmallCpp.Text.Quoted

/-!
# Errors

An error has a cause, which fixes its phase and its message, and may know where in the source it
arose. Causes are data; the wording of every message stands in one place.

Besides errors there are faults: conversions, look-ups and operands that a run can meet although
the language has no name for them. A run reports a fault under its text alone.
-/

namespace SmallCpp

/-! ### Locations -/

/-- A place in a named source. -/
structure Location where
  file : String
  line : Int
  column : Int
deriving DecidableEq, Repr, Inhabited

def Location.text (l : Location) : String :=
  s!"{l.file}:{l.line}:{l.column}"

def Position.inFile (p : Position) (file : String) : Location :=
  ⟨file, p.line, p.column⟩

/-! ### Faults -/

inductive FaultKind where
  | overflow
  | value
  | key
  | index
  | operand
  | encoding
  | memory
  | recursion
deriving DecidableEq, Repr, Inhabited

/-- Why the shown form of a value cannot be written. -/
inductive Unshown where
  | tooManyDigits
  | tooDeep
deriving DecidableEq, Repr, Inhabited

/-- Failures of single operations that no rule of the language names. -/
inductive Fault where
  /-- An integer beyond the doubles, in an operation on doubles. -/
  | integerTooLarge
  | infinityToInteger
  | nanToInteger
  | tooManyDigits
  | literalTooLong (count : Nat)
  /-- A text that is no integer, given by its shown form. -/
  | badInteger (shown : String)
  | badDouble (text : String)
  | shiftTooLarge
  | outOfMemory
  /-- A limit on nested evaluations that is itself too large. -/
  | nestingLimitTooLarge
  | zeroInPath
  /-- Surrogates in a text to be written, with their offset. -/
  | unencodable (offset : Nat) (surrogates : CodeText)
  /-- A look-up of a key that is not there, given by its shown form. -/
  | missingKey (shown : String)
  /-- A look-up of a key that is not there and that cannot be shown. -/
  | unshownKey (reason : Unshown)
  /-- A value that is nested too deeply to be shown. -/
  | shownTooDeep
  | missingArgument
  | emptyText
  /-- The code of a character that is not one character, given by its length. -/
  | notOneCharacter (length : Nat)
  | unhashable (kind : String)
  | operands (text : String)
deriving DecidableEq, Repr, Inhabited

namespace Fault

def kind : Fault → FaultKind
  | integerTooLarge | infinityToInteger | shiftTooLarge | nestingLimitTooLarge => .overflow
  | nanToInteger | tooManyDigits | literalTooLong _ | badInteger _ | badDouble _ | zeroInPath =>
    .value
  | missingKey _ | unshownKey _ => .key
  | shownTooDeep => .recursion
  | missingArgument | emptyText => .index
  | notOneCharacter _ | unhashable _ | operands _ => .operand
  | unencodable _ _ => .encoding
  | outOfMemory => .memory

/-- The largest number of characters that a fault shows of a text that is no integer. -/
def shownLimit : Nat := 200

def message : Fault → String
  | integerTooLarge => "int too large to convert to float"
  | infinityToInteger => "cannot convert float infinity to integer"
  | nanToInteger => "cannot convert float NaN to integer"
  | tooManyDigits =>
    "Exceeds the limit (4300 digits) for integer string conversion; "
      ++ "use sys.set_int_max_str_digits() to increase the limit"
  | literalTooLong count =>
    s!"Exceeds the limit (4300 digits) for integer string conversion: value has {count} digits; "
      ++ "use sys.set_int_max_str_digits() to increase the limit"
  | badInteger shown =>
    "invalid literal for int() with base 10: " ++ String.ofList (shown.toList.take shownLimit)
  | badDouble text => "could not convert string to float: " ++ Text.quoted text
  | shiftTooLarge => "too many digits in integer"
  | outOfMemory => ""
  | nestingLimitTooLarge => "Python int too large to convert to C int"
  | zeroInPath => "embedded null byte"
  | unencodable offset surrogates =>
    let place :=
      match surrogates with
      | [p] => s!"character '{Text.escaped p}' in position {offset}"
      | _ => s!"characters in position {offset}-{offset + surrogates.length - 1}"
    s!"'utf-8' codec can't encode {place}: surrogates not allowed"
  | missingKey shown => shown
  | unshownKey _ => ""
  | shownTooDeep => "maximum recursion depth exceeded while getting the repr of an object"
  | notOneCharacter length =>
    s!"ord() expected a character, but string of length {length} found"
  | missingArgument => "list index out of range"
  | emptyText => "string index out of range"
  | unhashable kind => s!"unhashable type: '{kind}'"
  | operands text => text

end Fault

/-- The fault of showing a value that cannot be shown. -/
def Unshown.fault : Unshown → Fault
  | tooManyDigits => .tooManyDigits
  | tooDeep => .shownTooDeep

/-! ### Errors of a run -/

/-- The kinds of errors that a run can end with. -/
inductive RuntimeKind where
  | general
  | inputExhausted
  | outOfRange
  | unboundName
  | zeroDivision
  /-- A run beyond its budget of steps or of nested calls. -/
  | budget
deriving DecidableEq, Repr, Inhabited

/-- What can go wrong while a program runs. -/
inductive RuntimeError where
  | indexOutOfRange (operation : String) (index : Int) (container : String) (size : Nat)
  | emptyContainer (operation container : String)
  | negativeResize (count : Int)
  | substringStart (start : Int)
  | inputExhausted
  | unboundName (name : String)
  | zeroDivision
  | stepBudget (limit : Int)
  | callBudget (limit : Int)
  | nestingBudget
  | differentContainers
  | insertNeedsPair
  | notANumber (type : String)
  | notACondition (type : String)
  | pairNeedsTwo
  | braceList (type : String)
  | conversion (source target : String)
  | characterCode (code : Int)
  | notPrintable (type : String)
  | invalidInput (token type : String)
  /-- A library function that works on a range, without one. -/
  | needsIterators (name : String)
  /-- A text that a library function cannot read, given by its shown form. -/
  | invalidArgument (name shown : String)
  | noMember (type name : String)
  | noMemberFunction (type name : String)
  | memberNotCalled (name : String)
  | invalidOperands (symbol left right : String)
  | complementOfDouble
  | negativeShift (count : Int)
  | keyAssignment
  | loopExitOutsideLoop
  | returnOutsideFunction
  | nestedFunction (name : String)
  | arrayNeedsBraces (name : String)
  | arrayNegativeSize (name : String) (size : Int)
  | arrayTooManyInitializers (name : String)
  | newNegativeSize (size : Int)
  | notIndexable (type : String)
  | scopedValue (name : String)
  | notCallable
  | libraryArguments (name : String)
  | memberArguments (type name : String)
  | noOverload (name : String) (count : Nat)
  | notImplemented (name : String)
  | notAssignable
  | temporaryReference
  | stray (fault : Fault)
  /-- An error of the given kind with a message of its own. -/
  | custom (kind : RuntimeKind) (text : String)
deriving DecidableEq, Repr, Inhabited

namespace RuntimeError

def kind : RuntimeError → RuntimeKind
  | indexOutOfRange .. | emptyContainer .. | negativeResize _ | substringStart _ => .outOfRange
  | inputExhausted => .inputExhausted
  | unboundName _ => .unboundName
  | zeroDivision => .zeroDivision
  | stepBudget _ | callBudget _ | nestingBudget => .budget
  | custom kind _ => kind
  | _ => .general

def message : RuntimeError → String
  | indexOutOfRange operation index container size =>
    s!"{operation}: index {index} out of range for {container} of size {size}"
  | emptyContainer operation container => s!"{operation}: {container} is empty"
  | negativeResize count => s!"vector::resize: negative size {count}"
  | substringStart start => s!"string::substr: position {start} out of range"
  | inputExhausted => "input exhausted"
  | unboundName name => s!"'{name}' was not declared in this scope"
  | zeroDivision => "division by zero"
  | stepBudget limit => s!"execution exceeded the budget of {limit} steps"
  | callBudget limit => s!"call depth exceeded the budget of {limit} nested calls"
  | nestingBudget => "expression or call nesting too deep"
  | differentContainers => "iterators refer to different containers"
  | insertNeedsPair => "map::insert expects a pair"
  | notANumber type => s!"expected a number, got {type}"
  | notACondition type => s!"could not convert {type} to bool"
  | pairNeedsTwo => "pair initializer needs exactly two values"
  | braceList type => s!"cannot initialize {type} from a brace list"
  | conversion source target => s!"cannot convert {source} to {target}"
  | characterCode code => s!"character code {code} out of range"
  | notPrintable type => s!"cannot print a value of type {type}"
  | invalidInput token type => "invalid input " ++ Text.quoted token ++ s!" for {type}"
  | needsIterators name => s!"{name} expects two iterators"
  | invalidArgument name shown => s!"{name}: invalid argument {shown}"
  | noMember type name => s!"{type} has no member named '{name}'"
  | noMemberFunction type name => s!"{type} has no member function '{name}'"
  | memberNotCalled name => s!"member function '{name}' must be called"
  | invalidOperands symbol left right =>
    s!"invalid operands to binary {symbol}: {left} and {right}"
  | complementOfDouble => "invalid operand to unary ~: double"
  | negativeShift count => s!"negative shift count {count}"
  | keyAssignment => "cannot assign to the key of a map element"
  | loopExitOutsideLoop => "break or continue outside of a loop"
  | returnOutsideFunction => "return statement outside of a function"
  | nestedFunction name => s!"function '{name}' must be defined at the top level"
  | arrayNeedsBraces name => s!"array '{name}' needs a brace initializer"
  | arrayNegativeSize name size => s!"array '{name}' has negative size {size}"
  | arrayTooManyInitializers name => s!"too many initializers for array '{name}'"
  | newNegativeSize size => s!"new[] with negative size {size}"
  | notIndexable type => s!"cannot index a value of type {type}"
  | scopedValue name => s!"cannot use '{name}' as a value"
  | notCallable => "expression is not callable"
  | libraryArguments name => s!"invalid arguments in call to '{name}'"
  | memberArguments type name => s!"invalid arguments in call to {type}::{name}"
  | noOverload name count => s!"no matching function for call to '{name}' with {count} arguments"
  | notImplemented name => s!"{name} not implemented"
  | notAssignable => "expression is not assignable"
  | temporaryReference => "cannot bind a non-const reference to a temporary value"
  | stray fault => fault.message
  | custom _ text => text

def integers : RuntimeError → List Int
  | indexOutOfRange _ index _ _ => [index]
  | negativeResize n | substringStart n | characterCode n | negativeShift n
  | arrayNegativeSize _ n | newNegativeSize n | stepBudget n | callBudget n => [n]
  | _ => []

/-- The message can be written: none of its integers has too many digits. -/
def isWritable (e : RuntimeError) : Bool :=
  e.integers.all fun n => (integerText? n).isSome

end RuntimeError

/-- Why an operation on values failed. -/
inductive Failure where
  | error (error : RuntimeError)
  | fault (fault : Fault)
  | tooDeep
deriving DecidableEq, Repr, Inhabited

/-! ### Errors of all phases -/

inductive Phase where
  | lexical
  | grammar
  | type
  | runtime
  | internal
deriving DecidableEq, Repr, Inhabited

def Phase.name : Phase → String
  | lexical => "lexical"
  | grammar => "syntax"
  | type => "type"
  | runtime => "runtime"
  | internal => "internal"

/-- The causes of errors in all phases. -/
inductive Cause where
  | strayCharacter (offset : Int) (character : String)
  /-- A token that the grammar does not allow; a message of its own replaces the usual one. -/
  | unexpected (expected found : String) (offset : Option Int) (text : Option String)
  | unbalancedGenerics (found : String) (offset : Option Int)
  | unsupported (keyword : String) (offset : Option Int)
  | nestingTooDeep (found : String) (offset : Int)
  | badInitializer (declared : String) (inferred : Option String) (name : String)
  | runtime (error : RuntimeError)
  | internal (text : String)
deriving DecidableEq, Repr, Inhabited

namespace Cause

def phase : Cause → Phase
  | strayCharacter .. => .lexical
  | unexpected .. | unbalancedGenerics .. | unsupported .. | nestingTooDeep .. => .grammar
  | badInitializer .. => .type
  | runtime _ => .runtime
  | internal _ => .internal

/-- An offset as the end of a message, nothing if there is none. -/
def atOffset : Option Int → String
  | none => ""
  | some offset => s!" at position {offset}"

def message : Cause → String
  | strayCharacter offset character =>
    "unexpected character " ++ Text.quoted character ++ atOffset (some offset)
  | unexpected expected found offset text =>
    text.getD (s!"expected {expected}, found " ++ Text.quoted found ++ atOffset offset)
  | unbalancedGenerics found offset =>
    "unbalanced generic arguments"
      ++ (if offset.isSome then " near " ++ Text.quoted found ++ atOffset offset else "")
  | unsupported keyword offset => s!"unsupported construct '{keyword}'" ++ atOffset offset
  | nestingTooDeep _ offset => "nesting too deep" ++ atOffset (some offset)
  | badInitializer declared none name =>
    s!"cannot initialize {declared} '{name}' with a non-literal expression"
  | badInitializer declared (some inferred) name =>
    s!"cannot initialize {declared} '{name}' with a value of type {inferred}"
  | runtime error => error.message
  | internal text => text

end Cause

/-- A cause and what is known of its place. -/
structure Error where
  cause : Cause
  location : Option Location := none
  hint : Option String := none
  sourceLine : Option String := none
deriving DecidableEq, Repr, Inhabited

namespace Error

def phase (e : Error) : Phase := e.cause.phase

def message (e : Error) : String := e.cause.message

/-- Records what is known of the place of an error that has none. -/
def attach (e : Error) (location : Option Location) (sourceLine : Option String) : Error :=
  if e.location.isSome then e
  else { e with location, sourceLine := e.sourceLine.or sourceLine }

/-- The source line of a place, and a caret under its column if there is one. -/
def excerpt (location : Location) (line : String) : List String :=
  ("    " ++ line) ::
    if 0 < location.column then
      ["".pushn ' ' (3 + location.column.toNat) ++ "^"]
    else []

/-- The full text of an error: place and message, source line and caret, hint. -/
def render (e : Error) : String :=
  let place :=
    match e.location with
    | none => ""
    | some location => location.text ++ ": "
  let context :=
    match e.location, e.sourceLine with
    | some location, some line => excerpt location line
    | _, _ => []
  let advice :=
    match e.hint with
    | none => []
    | some hint => if hint.isEmpty then [] else ["hint: " ++ hint]
  "\n".intercalate ((place ++ "error: " ++ e.message) :: context ++ advice)

/-- What a user is shown of an error: its phase and its message. -/
def summary (e : Error) : String :=
  e.phase.name ++ " error: " ++ e.message

end Error

end SmallCpp
