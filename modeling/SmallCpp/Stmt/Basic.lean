import SmallCpp.Expr.Basic

/-!
# Statements and programs

The statements of the language. Declarations and functions are statements too; a program is a list
of statements.
-/

namespace SmallCpp

/-- The array brackets of a declared variable. -/
inductive Extent where
  | single
  /-- Empty brackets: as many elements as the initializer has. -/
  | inferred
  | sized (size : Expr)
deriving BEq, Repr, Inhabited

structure Declarator where
  position : Position
  type : TypeExpr
  name : String
  initializer : Option Expr
  extent : Extent
deriving BEq, Repr, Inhabited

structure Param where
  position : Position
  type : TypeExpr
  name : String
deriving BEq, Repr, Inhabited

/-- What the head of a function says. -/
structure Signature where
  position : Position
  returns : TypeExpr
  name : String
  params : List Param
  templateParams : List String
deriving BEq, Repr, Inhabited

inductive Stmt where
  /-- An include directive; the flag says that the header stands between angle brackets. -/
  | directive (position : Position) (header : String) (system : Bool)
  | usingNamespace (position : Position) (name : String)
  | declare (declarator : Declarator)
  | declareAll (position : Position) (declarators : List Declarator)
  | prototype (signature : Signature)
  | define (signature : Signature) (bodyPosition : Position) (body : List Stmt)
  | block (position : Position) (body : List Stmt)
  | branch (position : Position) (condition : Expr) (positive : Stmt) (negative : Option Stmt)
  | whileLoop (position : Position) (condition : Expr) (body : Stmt)
  | doLoop (position : Position) (body : Stmt) (condition : Expr)
  | forLoop (position : Position) (start : Option Stmt) (condition update : Option Expr)
      (body : Stmt)
  | leave (position : Position) (value : Option Expr)
  | breakLoop (position : Position)
  | continueLoop (position : Position)
  | read (position : Position) (targets : List Expr)
  | print (position : Position) (parts : List Expr)
  | evaluate (position : Position) (expression : Expr)
deriving BEq, Repr, Inhabited

def Stmt.position : Stmt → Position
  | directive p _ _ | usingNamespace p _ | declareAll p _ | block p _ | branch p _ _ _
  | whileLoop p _ _ | doLoop p _ _ | forLoop p _ _ _ _ | leave p _ | breakLoop p | continueLoop p
  | read p _ | print p _ | evaluate p _ => p
  | declare d => d.position
  | prototype s | define s _ _ => s.position

/-- A program: the name of its source and its statements. -/
structure Program where
  file : String
  body : List Stmt
deriving BEq, Repr, Inhabited

end SmallCpp
