import SmallCpp.Source
import SmallCpp.TypeExpr

/-!
# Expressions

The expressions of the language. Every node knows the position at which its text starts.
-/

namespace SmallCpp

/-- A constant, with its text in the source. -/
inductive Literal where
  | int (value : Int) (text : String)
  | real (value : Float) (text : String)
  | string (value text : String)
  | char (value : Char) (text : String)
  | bool (value : Bool)
deriving BEq, Repr, Inhabited

def boolName (b : Bool) : String :=
  if b then "true" else "false"

def Literal.text : Literal → String
  | int _ text | real _ text | string _ text | char _ text => text
  | bool value => boolName value

/-- The operators before an operand. -/
inductive UnaryOp where
  | negate
  | plus
  | not
  | complement
  | increment
  | decrement
deriving DecidableEq, Repr, Inhabited

def UnaryOp.symbol : UnaryOp → String
  | negate => "-"
  | plus => "+"
  | not => "!"
  | complement => "~"
  | increment => "++"
  | decrement => "--"

/-- The operators after an operand. -/
inductive StepOp where
  | increment
  | decrement
deriving DecidableEq, Repr, Inhabited

def StepOp.symbol : StepOp → String
  | increment => "++"
  | decrement => "--"

/-- The operators between two operands. -/
inductive BinaryOp where
  /-- Logical or, which skips its right operand if it can. -/
  | logicalOr
  /-- Logical and, which skips its right operand if it can. -/
  | logicalAnd
  | bitOr
  | bitXor
  | bitAnd
  | eq
  | ne
  | lt
  | gt
  | le
  | ge
  | shiftLeft
  | shiftRight
  | add
  | sub
  | mul
  | div
  | mod
deriving DecidableEq, Repr, Inhabited

namespace BinaryOp

def symbol : BinaryOp → String
  | logicalOr => "||"
  | logicalAnd => "&&"
  | bitOr => "|"
  | bitXor => "^"
  | bitAnd => "&"
  | eq => "=="
  | ne => "!="
  | lt => "<"
  | gt => ">"
  | le => "<="
  | ge => ">="
  | shiftLeft => "<<"
  | shiftRight => ">>"
  | add => "+"
  | sub => "-"
  | mul => "*"
  | div => "/"
  | mod => "%"

def all : List BinaryOp :=
  [logicalOr, logicalAnd, bitOr, bitXor, bitAnd, eq, ne, lt, gt, le, ge, shiftLeft, shiftRight,
   add, sub, mul, div, mod]

def ofSymbol? (s : String) : Option BinaryOp :=
  all.find? fun op => op.symbol == s

/-- The binding power of an operator: the higher, the tighter. -/
def power : BinaryOp → Nat
  | logicalOr => 1
  | logicalAnd => 2
  | bitOr => 3
  | bitXor => 4
  | bitAnd => 5
  | eq | ne => 6
  | lt | gt | le | ge => 7
  | shiftLeft | shiftRight => 8
  | add | sub => 9
  | mul | div | mod => 10

end BinaryOp

inductive AssignOp where
  | assign
  | add
  | sub
  | mul
  | div
  | mod
deriving DecidableEq, Repr, Inhabited

namespace AssignOp

def arithmetic? : AssignOp → Option BinaryOp
  | assign => none
  | add => some .add
  | sub => some .sub
  | mul => some .mul
  | div => some .div
  | mod => some .mod

def symbol (op : AssignOp) : String :=
  match op.arithmetic? with
  | none => "="
  | some arithmetic => arithmetic.symbol ++ "="

def all : List AssignOp :=
  [assign, add, sub, mul, div, mod]

def ofSymbol? (s : String) : Option AssignOp :=
  all.find? fun op => op.symbol == s

end AssignOp

/-- The signs between an object and a member. -/
inductive Access where
  | dot
  | arrow
  | scope
deriving DecidableEq, Repr, Inhabited

def Access.symbol : Access → String
  | dot => "."
  | arrow => "->"
  | scope => "::"

inductive Expr where
  | literal (position : Position) (value : Literal)
  | name (position : Position) (id : String)
  | unary (position : Position) (op : UnaryOp) (operand : Expr)
  | step (position : Position) (op : StepOp) (operand : Expr)
  | binary (position : Position) (op : BinaryOp) (left right : Expr)
  | assign (position : Position) (op : AssignOp) (target value : Expr)
  | call (position : Position) (callee : Expr) (args : List Expr)
  | member (position : Position) (object : Expr) (access : Access) (field : String)
  | index (position : Position) (object subscript : Expr)
  | new (position : Position) (type : TypeExpr)
  | newArray (position : Position) (type : TypeExpr) (size : Expr)
  | braces (position : Position) (elements : List Expr)
  | endl (position : Position)
deriving BEq, Repr, Inhabited

def Expr.position : Expr → Position
  | literal p _ | name p _ | unary p _ _ | step p _ _ | binary p _ _ _ | assign p _ _ _ | call p _ _
  | member p _ _ _ | index p _ _ | new p _ | newArray p _ _ | braces p _ | endl p => p

end SmallCpp
