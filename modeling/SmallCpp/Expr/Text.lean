import SmallCpp.Expr.Basic
import SmallCpp.Number.Layout

/-!
# Texts of expressions

An expression is written with parentheses around every operator and its operands, so its text shows
how it was read.
-/

namespace SmallCpp

/-- The text of a constant: numbers by their value, texts and characters as in the source. -/
def Literal.shown : Literal → String
  | int value _ => toString value
  | real value _ => shortestText value
  | string _ text | char _ text => text
  | bool value => boolName value

namespace Expr

mutual

@[simp]
def text : Expr → String
  | literal _ value => value.shown
  | name _ id => id
  | unary _ op operand => "(" ++ op.symbol ++ operand.text ++ ")"
  | step _ op operand => "(" ++ operand.text ++ op.symbol ++ ")"
  | binary _ op left right => "(" ++ left.text ++ " " ++ op.symbol ++ " " ++ right.text ++ ")"
  | assign _ op target value =>
    "(" ++ target.text ++ " " ++ op.symbol ++ " " ++ value.text ++ ")"
  | call _ callee args => callee.text ++ "(" ++ ", ".intercalate (texts args) ++ ")"
  | member _ object access field => object.text ++ access.symbol ++ field
  | index _ object subscript => object.text ++ "[" ++ subscript.text ++ "]"
  | new _ type => "new " ++ type.text
  | newArray _ type size => "new " ++ type.text ++ "[" ++ size.text ++ "]"
  | braces _ elements => "\x7b" ++ ", ".intercalate (texts elements) ++ "\x7d"
  | endl _ => "endl"

def texts : List Expr → List String
  | [] => []
  | e :: es => e.text :: texts es

end

end Expr

def Expr.optionalText (e : Option Expr) : String :=
  (e.map Expr.text).getD ""

end SmallCpp
