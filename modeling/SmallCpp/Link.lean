import SmallCpp.Heap.Library
import SmallCpp.Stmt.Node

/-!
# Linking a program

Before a program runs, its top level is sorted: functions into a table of overloads told apart by
their number of parameters, include directives into the library functions that they make visible,
and every other statement, in order, into the initialization.
-/

namespace SmallCpp

/-- A function, with its body if it is defined. -/
structure Function where
  signature : Signature
  /-- The statements of the body, `none` for a prototype. -/
  body : Option (List Stmt)
deriving Repr, Inhabited

namespace Function

def arity (f : Function) : Nat :=
  f.signature.params.length

def isDefined (f : Function) : Bool :=
  f.body.isSome

def node (f : Function) : Node :=
  ⟨if f.isDefined then "FunctionDef" else "FunctionDecl", f.signature.position⟩

end Function

/-- The functions of a program by name, each with its overloads. -/
abbrev FunctionTable := List (String × List Function)

/-- Overloads with another function: a definition replaces what has the same number of parameters,
a prototype is added only if nothing has. -/
def addOverload (f : Function) : List Function → List Function
  | [] => [f]
  | g :: gs =>
    if g.arity == f.arity then (if f.isDefined then f else g) :: gs
    else g :: addOverload f gs

def addFunction (f : Function) : FunctionTable → FunctionTable
  | [] => [(f.signature.name, [f])]
  | (name, overloads) :: table =>
    if name == f.signature.name then (name, addOverload f overloads) :: table
    else (name, overloads) :: addFunction f table

/-- A program prepared for running. -/
structure Linked where
  functions : FunctionTable := []
  headers : List String := []
  /-- The statements of the initialization, in source order. -/
  init : List Stmt := []
deriving Repr, Inhabited

namespace Linked

/-- A linked program with another statement of the top level. -/
def addStmt (l : Linked) (s : Stmt) : Linked :=
  match s with
  | .directive _ header _ => { l with headers := l.headers ++ [header] }
  | .define signature _ body =>
    { l with functions := addFunction ⟨signature, some body⟩ l.functions }
  | .prototype signature => { l with functions := addFunction ⟨signature, none⟩ l.functions }
  | s => { l with init := l.init ++ [s] }

/-- The overloads of a name, `none` if no function has it. -/
def overloads? (l : Linked) (name : String) : Option (List Function) :=
  (l.functions.find? fun e => e.1 == name).map Prod.snd

/-- The main function: the first definition of that name. -/
def main? (l : Linked) : Option Function :=
  ((l.overloads? "main").getD []).find? Function.isDefined

/-- A library function that the included headers make visible. -/
def library? (l : Linked) (name : String) : Option LibraryFunction :=
  (LibraryFunction.ofName? name).filter fun f =>
    l.headers.any fun header => (headerFunctions header).contains f

/-- The library functions that the included headers make visible. -/
def library (l : Linked) : List LibraryFunction :=
  LibraryFunction.all.filter fun f => (l.library? f.name).isSome

end Linked

def Program.link (p : Program) : Linked :=
  p.body.foldl Linked.addStmt {}

end SmallCpp
