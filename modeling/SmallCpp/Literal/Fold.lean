import SmallCpp.Expr.Basic
import SmallCpp.Number.Basic
import SmallCpp.Stack

/-!
# Folding literals

An initializer made of literals, signs and the four operations of arithmetic has a constant value,
which is found without running anything. A text folds only if it stands alone.
-/

namespace SmallCpp

/-- The value of a folded expression. -/
inductive Constant where
  | number (n : Number)
  | text (s : String)
deriving BEq, Repr, Inhabited

namespace Constant

def kindName : Constant → String
  | number (.int _) => "int"
  | number (.real _) => "float"
  | text _ => "string"

def number? : Constant → Option Number
  | number n => some n
  | text _ => none

end Constant

/-- Why folding was given up. -/
inductive FoldStop where
  | fault (fault : Fault)
  | tooDeep
deriving DecidableEq, Repr, Inhabited

/-- The quotient of two constants, `none` for a zero divisor. Integers divide toward zero. -/
def divideConstants? : Number → Number → Except Fault (Option Number)
  | .int m, .int n => .ok (if n == 0 then none else some (.int (Number.quotient m n)))
  | a, b => do
    if b.isZero then return none
    let x ← a.toDouble
    let y ← b.toDouble
    return some (.real (x / y))

/-- The result of an operator on two constants, `none` if the operator does not fold. -/
def foldOperator? (op : BinaryOp) (a b : Number) : Except Fault (Option Number) :=
  match op with
  | .add => (a.add b).map some
  | .sub => (a.sub b).map some
  | .mul => (a.mul b).map some
  | .div => divideConstants? a b
  | _ => .ok none

def BinaryOp.folds : BinaryOp → Bool
  | add | sub | mul | div => true
  | _ => false

namespace Expr

/-- The constant value of an expression of at most `depth` nested operators, `none` if it has no
such value. -/
def foldWithin (depth : Nat) (e : Expr) : Except FoldStop (Option Constant) :=
  match depth with
  | 0 => .error .tooDeep
  | depth + 1 =>
    match e with
    | literal _ (.int n _) => .ok (some (.number (.int n)))
    | literal _ (.real x _) => .ok (some (.number (.real x)))
    | literal _ (.string s _) => .ok (some (.text s))
    | unary _ .negate operand => do
      let c ← foldWithin depth operand
      return (c.bind Constant.number?).map fun n => .number n.neg
    | unary _ .plus operand => do
      let c ← foldWithin depth operand
      return (c.bind Constant.number?).map .number
    | binary _ op left right =>
      if op.folds then do
        let a ← foldWithin depth left
        let b ← foldWithin depth right
        match a.bind Constant.number?, b.bind Constant.number? with
        | some m, some n =>
          match foldOperator? op m n with
          | .ok result => return result.map .number
          | .error fault => throw (.fault fault)
        | _, _ => return none
      else return none
    | _ => .ok none

/-- The constant value of an expression where the stack has room for `room` frames, one for each
nested operator; `none` if it has no such value or is nested too deeply. -/
def foldIn (room : Nat) (e : Expr) : Except Fault (Option Constant) :=
  match foldWithin room e with
  | .ok c => .ok c
  | .error (.fault fault) => .error fault
  | .error .tooDeep => .ok none

/-- The constant value of an expression that is folded on its own. -/
def fold (e : Expr) : Except Fault (Option Constant) :=
  foldIn Stack.room e

end Expr

end SmallCpp
