import SmallCpp.Expr.Basic
import SmallCpp.Heap.Equality
import SmallCpp.Number.Bits

/-!
# Operators on values

The operators that evaluate both their operands. Integers divide toward zero, the remainder has the
sign of the dividend, and an integer division by zero is an error; a double divided by zero is an
infinity or a non-number.
-/

namespace SmallCpp

/-- Fails because an operator does not take operands of these types. -/
def failInvalidOperands {α : Type} (op : BinaryOp) (a b : Value) : HeapM α :=
  fail (.invalidOperands op.symbol a.typeName b.typeName)

/-! ### Comparisons -/

def BinaryOp.isComparison : BinaryOp → Bool
  | eq | ne | lt | gt | le | ge => true
  | _ => false

/-- What a comparison says of two operands in the given order; of operands without an order it
says that they differ. -/
def BinaryOp.holds (op : BinaryOp) (order : Option Ordering) : Bool :=
  match op, order with
  | eq, some .eq => true
  | ne, o => o != some .eq
  | lt, some .lt => true
  | gt, some .gt => true
  | le, some .lt | le, some .eq => true
  | ge, some .gt | ge, some .eq => true
  | _, _ => false

/-- The order of two texts, by the code points of their characters. -/
def compareTexts (s t : CodeText) : Ordering :=
  if s < t then .lt else if s == t then .eq else .gt

/-- A comparison of two values: texts with texts, numbers with numbers, positions of one vector,
and any two values for equality. -/
def compareValues (op : BinaryOp) (a b : Value) : HeapM Bool :=
  match a.asText?, b.asText? with
  | some s, some t => pure (op.holds (some (compareTexts s t)))
  | _, _ =>
    if a.isScalar && b.isScalar then do
      let m ← orFail a.number
      let n ← orFail b.number
      return op.holds (m.compare? n)
    else
      match a, b with
      | .iterator v i, .iterator w j =>
        if v == w then pure (op.holds (some (compare i j))) else fail .differentContainers
      | a, b =>
        match op with
        | .eq => sameValue a b
        | .ne => do return !(← sameValue a b)
        | _ => failInvalidOperands op a b

/-! ### Arithmetic -/

def divideNumbers (a b : Number) : HeapM Value :=
  match a, b with
  | .int m, .int n =>
    if n == 0 then fail .zeroDivision else pure (.int (Number.quotient m n))
  | a, b => do
    if b.isZero then
      if a.isZero then return .real notANumber
      let x ← orFault a.toDouble
      let y ← orFault b.toDouble
      return .real (if x.isNaN then notANumber else infinity (signBit x != signBit y))
    else
      let x ← orFault a.toDouble
      let y ← orFault b.toDouble
      newReal (x / y)

/-- The number of binary places in one digit of a stored integer. -/
def placesPerDigit : Nat := 30

/-- The largest number of digits that a stored integer can be given. -/
def largestSize : Nat := 2305843009213693945

/-- The number of digits that an integer is given when it is shifted left. -/
def shiftedSize (m : Int) (n : Nat) : Nat :=
  let digits := (m.natAbs.log2 + placesPerDigit) / placesPerDigit
  digits + n / placesPerDigit + if n % placesPerDigit == 0 then 0 else 1

def shiftLeft (m : Int) (n : Nat) : HeapM Value :=
  if m == 0 then pure (.int 0)
  else if largestSize < shiftedSize m n then failFault .shiftTooLarge
  else pure (.int (Bits.shiftLeft m n))

/-- An integer shifted right; more places than it has leave only its sign. -/
def shiftRight (m : Int) (n : Nat) : Value :=
  if m.natAbs.log2 < n then .int (if m < 0 then -1 else 0) else .int (Bits.shiftRight m n)

def shiftInteger (op : BinaryOp) (m n : Int) : HeapM Value :=
  if n < 0 then fail (.negativeShift n)
  else if op == .shiftLeft then shiftLeft m n.toNat
  else pure (shiftRight m n.toNat)

def BinaryOp.isIntegral : BinaryOp → Bool
  | mod | bitAnd | bitOr | bitXor | shiftLeft | shiftRight => true
  | _ => false

def integerOperator (op : BinaryOp) (m n : Int) : HeapM Value :=
  match op with
  | .mod => if n == 0 then fail .zeroDivision else pure (.int (Number.remainder m n))
  | .bitAnd => pure (.int (Bits.bitAnd m n))
  | .bitOr => pure (.int (Bits.bitOr m n))
  | .bitXor => pure (.int (Bits.bitXor m n))
  | op => shiftInteger op m n

/-- An operator on two numbers that stand for the values `a` and `b`. -/
def numericOperator (op : BinaryOp) (a b : Value) (m n : Number) : HeapM Value :=
  if op.isIntegral then
    match m, n with
    | .int x, .int y => integerOperator op x y
    | _, _ => failInvalidOperands op a b
  else
    match op with
    | .add => do newNumber (← orFault (m.add n))
    | .sub => do newNumber (← orFault (m.sub n))
    | .mul => do newNumber (← orFault (m.mul n))
    | .div => divideNumbers m n
    | _ => failInvalidOperands op a b

/-- A position moved by a number of places, or the distance of two positions. -/
def moveIterator (op : BinaryOp) (vector : Nat) (index : Int) (b : Value) : HeapM Value :=
  match b with
  | .iterator w j =>
    if vector == w then pure (.int (index - j)) else fail .differentContainers
  | b => do
    let n ← orFail b.number
    let k ← orFault n.truncate
    return .iterator vector (if op == .add then index + k else index - k)

def applyBinary (op : BinaryOp) (a b : Value) : HeapM Value :=
  if op.isComparison then do return .bool (← compareValues op a b)
  else if op == .add && (a.isText || b.isText) then
    match a.asText?, b.asText? with
    | some s, some t => pure (.text (s ++ t))
    | _, _ => failInvalidOperands op a b
  else
    match a with
    | .iterator vector index =>
      if op == .add || op == .sub then moveIterator op vector index b
      else failInvalidOperands op a b
    | a =>
      if a.isScalar && b.isScalar then do
        let m ← orFail a.number
        let n ← orFail b.number
        numericOperator op a b m n
      else failInvalidOperands op a b

def applyUnary (op : UnaryOp) (v : Value) : HeapM Value :=
  match op with
  | .not => do return .bool !(← orFail v.condition)
  | op => do
    let n ← orFail v.number
    match op, n with
    | .negate, n => newNumber n.neg
    | .complement, .int k => return .int (Bits.complement k)
    | .complement, .real _ => fail .complementOfDouble
    | _, _ => orFail v.asNumber

end SmallCpp
