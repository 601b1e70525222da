import SmallCpp.Machine.Run
import SmallCpp.Token.Lexer

/-!
# Options of a run
-/

namespace SmallCpp

structure Options where
  file : String := Source.unnamed
  maxSteps : Int := 1000000
  maxCallDepth : Int := 200
  checkLiterals : Bool := true
deriving DecidableEq, Repr, Inhabited

/-- A budget that is not positive. -/
inductive OptionError where
  | steps (given : Int)
  | callDepth (given : Int)
deriving DecidableEq, Repr, Inhabited

def OptionError.message : OptionError → String
  | steps given => s!"max_steps must be positive, got {given}"
  | callDepth given => s!"max_call_depth must be positive, got {given}"

namespace Options

def validate (o : Options) : Except OptionError Options :=
  if o.maxSteps ≤ 0 then .error (.steps o.maxSteps)
  else if o.maxCallDepth ≤ 0 then .error (.callDepth o.maxCallDepth)
  else .ok o

def limits (o : Options) : Limits :=
  ⟨o.maxSteps, o.maxCallDepth⟩

/-- The positive integer that a variable of the environment holds. -/
def positiveSetting (env : List (String × String)) (name : String) : Option Int := do
  let text ← env.lookup name
  let n ← (readInteger text).toOption
  if 0 < n then some n else none

/-- The variable of the environment for the budget of steps. -/
def stepsSetting : String := "CPPMINI_MAX_STEPS"

/-- The variable of the environment for the budget of nested calls. -/
def callDepthSetting : String := "CPPMINI_MAX_DEPTH"

/-- The options that the environment asks for; settings that are no positive integers are
ignored. -/
def fromEnv (env : List (String × String)) : Options :=
  let standard : Options := {}
  { standard with
    maxSteps := (positiveSetting env stepsSetting).getD standard.maxSteps
    maxCallDepth := (positiveSetting env callDepthSetting).getD standard.maxCallDepth }

end Options

end SmallCpp
