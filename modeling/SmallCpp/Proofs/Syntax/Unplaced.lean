import SmallCpp.Stmt.Basic

/-!
# Syntax without places

Expressions and statements carry the positions at which they stand in their source.  Two sources may
hold the same statements at different places; then their syntax is the same once the positions are
taken away. The spelling of literals and all names stay. -/

namespace SmallCpp

namespace Expr

mutual

/-- The expression without positions. -/
@[simp]
def unplaced : Expr → Expr
  | literal _ value => literal {} value
  | name _ id => name {} id
  | unary _ op operand => unary {} op (unplaced operand)
  | step _ op operand => step {} op (unplaced operand)
  | binary _ op left right => binary {} op (unplaced left) (unplaced right)
  | assign _ op target value => assign {} op (unplaced target) (unplaced value)
  | call _ callee args => call {} (unplaced callee) (unplacedList args)
  | member _ object access field => member {} (unplaced object) access field
  | index _ object subscript => index {} (unplaced object) (unplaced subscript)
  | new _ type => new {} type
  | newArray _ type size => newArray {} type (unplaced size)
  | braces _ elements => braces {} (unplacedList elements)
  | endl _ => endl {}

def unplacedList : List Expr → List Expr
  | [] => []
  | e :: es => unplaced e :: unplacedList es

end

@[simp]
theorem unplacedList_eq_map (es : List Expr) : unplacedList es = es.map unplaced := by
  induction es with
  | nil => rfl
  | cons e es ih => rw [unplacedList, ih, List.map_cons]

end Expr

/-- The brackets of a declared variable without positions. -/
def Extent.unplaced : Extent → Extent
  | single => single
  | inferred => inferred
  | sized size => sized size.unplaced

/-- A declared variable without positions. -/
def Declarator.unplaced (d : Declarator) : Declarator :=
  { d with position := {}, initializer := d.initializer.map Expr.unplaced, extent :=
    d.extent.unplaced }

/-- A parameter without its position. -/
def Param.unplaced (p : Param) : Param :=
  { p with position := {} }

/-- The head of a function without positions. -/
def Signature.unplaced (s : Signature) : Signature :=
  { s with position := {}, params := s.params.map Param.unplaced }

namespace Stmt

mutual

@[simp]
def unplaced : Stmt → Stmt
  | directive _ header system => directive {} header system
  | usingNamespace _ name => usingNamespace {} name
  | declare d => declare d.unplaced
  | declareAll _ ds => declareAll {} (ds.map Declarator.unplaced)
  | prototype signature => prototype signature.unplaced
  | define signature _ body => define signature.unplaced {} (unplacedList body)
  | block _ body => block {} (unplacedList body)
  | branch _ condition positive negative =>
    branch {} condition.unplaced (unplaced positive) (unplacedOption negative)
  | whileLoop _ condition body => whileLoop {} condition.unplaced (unplaced body)
  | doLoop _ body condition => doLoop {} (unplaced body) condition.unplaced
  | forLoop _ start condition update body =>
    forLoop {} (unplacedOption start) (condition.map Expr.unplaced) (update.map Expr.unplaced)
    (unplaced body)
  | leave _ value => leave {} (value.map Expr.unplaced)
  | breakLoop _ => breakLoop {}
  | continueLoop _ => continueLoop {}
  | read _ targets => read {} (targets.map Expr.unplaced)
  | print _ parts => print {} (parts.map Expr.unplaced)
  | evaluate _ e => evaluate {} e.unplaced

def unplacedList : List Stmt → List Stmt
  | [] => []
  | s :: ss => unplaced s :: unplacedList ss

/-- A statement that may be absent, without positions. -/
def unplacedOption : Option Stmt → Option Stmt
  | none => none
  | some s => some (unplaced s)

end

@[simp]
theorem unplacedList_eq_map (ss : List Stmt) : unplacedList ss = ss.map unplaced := by
  induction ss with
  | nil => rfl
  | cons s ss ih => rw [unplacedList, ih, List.map_cons]

@[simp]
theorem unplacedOption_eq_map (s : Option Stmt) : unplacedOption s = s.map unplaced := by
  cases s with
  | none => rfl
  | some s => rfl

end Stmt

end SmallCpp
