import SmallCpp.CommandLine

/-!
# The command

Reads the files that the arguments name and the variables of the environment, and writes the reply.
-/

namespace SmallCpp.CommandLine

def contentsOf? (path : String) : IO (Option String) := do
  try return some (← IO.FS.readFile path) catch _ => return none

def Request.files (request : Request) : IO (List (String × String)) := do
  match request with
  | .invoke i =>
    (i.sourceFile :: i.inputFile.toList).filterMapM fun path => do
      return (← contentsOf? path).map fun text => (path, text)
  | _ => return []

def environment : IO (List (String × String)) :=
  [Options.stepsSetting, Options.callDepthSetting].filterMapM fun name => do
    return (← IO.getEnv name).map fun value => (name, value)

def run (args : List String) : IO UInt32 := do
  let files ← (Request.ofArgs args).files
  match reply args (fun path => files.lookup path) (← environment) with
  | .ok r =>
    (← IO.getStdout).putStr r.stdout
    (← IO.getStderr).putStr r.stderr
    return UInt32.ofNat r.exit
  | .error fault =>
    (← IO.getStderr).putStr (linesText [fault.message])
    return UInt32.ofNat buildErrorCode

end SmallCpp.CommandLine

def main (args : List String) : IO UInt32 :=
  SmallCpp.CommandLine.run args
