import SmallCpp.Parse.Literal
import SmallCpp.Parse.Type

/-!
# Reading expressions

Expressions are read by precedence climbing: an operand, then every operator of at least a given
binding power with the operand on its right. Assignment has the lowest power and associates to the
right, all other operators to the left. Calls, members, subscripts and the operators after an
operand bind tightest.
-/

namespace SmallCpp.Parse

def assignPower : Nat := 0

/-- The power at which the parts of a stream statement are read, so that the arrows between them
are no shifts. -/
def additivePower : Nat := 9

/-- An operator between two operands. -/
inductive Joint where
  | assign (op : AssignOp)
  | binary (op : BinaryOp)
deriving DecidableEq, Repr, Inhabited

namespace Joint

def power : Joint → Nat
  | assign _ => assignPower
  | binary op => op.power

/-- The power of the operators that the right operand may have. -/
def rightPower : Joint → Nat
  | assign _ => assignPower
  | binary op => op.power + 1

def build : Joint → Expr → Expr → Expr
  | assign op, left, right => .assign left.position op left right
  | binary op, left, right => .binary left.position op left right

def ofToken? (t : Token) : Except Fault (Option Joint) :=
  if t.kind == .stream then
    match BinaryOp.ofSymbol? t.text with
    | some op => .ok (some (binary op))
    | none => .error (.missingKey (Text.quoted t.text))
  else if t.kind == .operator then
    match AssignOp.ofSymbol? t.text with
    | some op => .ok (some (assign op))
    | none => .ok ((BinaryOp.ofSymbol? t.text).map binary)
  else .ok none

end Joint

def unaryOp? (t : Token) : Option UnaryOp :=
  if t.kind == .operator then
    [UnaryOp.negate, .plus, .not, .complement, .increment, .decrement].find? fun op =>
      op.symbol == t.text
  else none

def access? (t : Token) : Option Access :=
  if t.kind == .scope then some .scope
  else if t.isOperator ["."] then some .dot
  else if t.isOperator ["->"] then some .arrow
  else none

def stepOp? (t : Token) : Option StepOp :=
  if t.isOperator ["++"] then some .increment
  else if t.isOperator ["--"] then some .decrement
  else none

def orFault {α : Type} : Except Fault α → Parser α
  | .ok a => pure a
  | .error fault => throw (.fault fault)

/-- A round of the operators behind an expression: an operator of at least the power `least` and its
right operand. -/
def operatorStep (operand : Nat → Parser Expr) (least : Nat) (left : Expr) :
    Parser (ForInStep Expr) := do
  match ← orFault (Joint.ofToken? (← peek)) with
  | none => return .done left
  | some joint =>
    if joint.power < least then return .done left
    else
      discard advance
      let right ← operand joint.rightPower
      return .yield (joint.build left right)

/-- Continues an expression as far as its operators have at least the power `least`. -/
def climb (operand : Nat → Parser Expr) (least : Nat) (left : Expr) : Parser Expr := do
  stepUpTo (operatorStep operand least) ((← get).size + 1) left

/-- The member's name after an access sign; after a scope sign it may be a keyword. -/
def memberName (access : Access) : Parser String := do
  let t ← peek
  if t.kind == .identifier || (access == .scope && t.kind == .keyword) then
    discard advance
    return t.text
  else failHere "member name"

/-- A round of the suffixes behind an operand: a call, a subscript, a member or a step. -/
def suffixStep (arguments : Parser (List Expr)) (subscript : Parser Expr) (e : Expr) :
    Parser (ForInStep Expr) := do
  let t ← peek
  if t.isDelimiter "(" then
    let args ← arguments
    return .yield (.call e.position e args)
  else if t.isDelimiter "[" then
    discard advance
    let i ← subscript
    discard (expectDelimiter "]")
    return .yield (.index e.position e i)
  else if let some access := access? t then
    discard advance
    let field ← memberName access
    return .yield (.member e.position e access field)
  else if let some op := stepOp? t then
    discard advance
    return .yield (.step e.position op e)
  else return .done e

mutual

/-- Reads an expression of operators of at least the power `least`; `depth` bounds the number of
rules in progress. -/
def expression : Nat → Nat → Parser Expr
  | 0, _ => throw .tooDeep
  | depth + 1, least => do
    let left ← unary depth
    climb (expression depth) least left

/-- Reads an operand with the operators before and after it. -/
def unary : Nat → Parser Expr
  | 0 => throw .tooDeep
  | depth + 1 => do
    let t ← peek
    match unaryOp? t with
    | some op =>
      discard advance
      let operand ← unary depth
      return .unary t.position op operand
    | none =>
      let e ← primary depth
      suffixes depth e

/-- Reads the calls, subscripts, members and steps after an operand. -/
def suffixes : Nat → Expr → Parser Expr
  | 0, _ => throw .tooDeep
  | depth + 1, e => do
    let step := suffixStep (arguments depth) (expression depth assignPower)
    stepUpTo step ((← get).size + 1) e

/-- Reads the arguments of a call, with the parentheses. -/
def arguments : Nat → Parser (List Expr)
  | 0 => throw .tooDeep
  | depth + 1 => do
    discard (expectDelimiter "(")
    let args ←
      if ← peekDelimiter ")" then pure []
      else commaSeparated (expression depth assignPower)
    discard (expectDelimiter ")")
    return args

/-- Reads a literal, a name, an expression in parentheses, a list or an allocation. -/
def primary : Nat → Parser Expr
  | 0 => throw .tooDeep
  | depth + 1 => do
    let t ← peek
    match ← orFault (literal? t) with
    | some value =>
      discard advance
      return .literal t.position value
    | none =>
      if t.kind == .identifier then
        discard advance
        return .name t.position t.text
      else if t.isKeyword ["endl"] then
        discard advance
        return .endl t.position
      else if t.isKeyword ["new"] then allocation depth
      else if t.isDelimiter "(" then
        discard advance
        let e ← expression depth assignPower
        discard (expectDelimiter ")")
        return e
      else if t.isDelimiter "[" then listBetween depth "]"
      else if t.isDelimiter "\x7b" then listBetween depth "\x7d"
      else failHere "expression"

def allocation : Nat → Parser Expr
  | 0 => throw .tooDeep
  | depth + 1 => do
    let position := (← advance).position
    let type ← typeExpr depth
    if ← matchDelimiter "[" then
      let size ← expression depth assignPower
      discard (expectDelimiter "]")
      return .newArray position type size
    else if (← peekDelimiter "(") && (← peekAhead 1).isDelimiter ")" then
      discard advance
      discard advance
      return .new position type
    else return .new position type

/-- Reads a list up to its closing bracket; a comma may follow the last element. -/
def listBetween : Nat → String → Parser Expr
  | 0, _ => throw .tooDeep
  | depth + 1, close => do
    let position := (← advance).position
    let elements ← commaTerminated close (expression depth assignPower)
    discard (expectDelimiter close)
    return .braces position elements

end

end SmallCpp.Parse
