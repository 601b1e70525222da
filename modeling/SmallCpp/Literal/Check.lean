import SmallCpp.Literal.Fold
import SmallCpp.Stmt.Basic

/-!
# Checking literal initializers

Before a program runs, the initializers that fold are compared with the declared types. Integers
take no other numbers, doubles no texts, and texts nothing but a text; an initializer of a text that
does not fold is refused too. Pointers, references, arrays and containers are not checked.

The check visits the nodes of a program, and every node in progress takes two frames of the stack.
An initializer is folded with the frames that are left at its declaration. -/

namespace SmallCpp

inductive CheckStop where
  | rejected (declared : String) (inferred : Option String) (name : String) (position : Position)
  | fault (fault : Fault)
  | tooDeep
deriving DecidableEq, Repr, Inhabited

/-- A check that counts the initializers it sees. -/
abbrev Checker := EStateM CheckStop Nat

/-- A folded initializer of the kind fits the base of the declared type. -/
def BaseType.takes (base : BaseType) (c : Constant) : Bool :=
  match base, c with
  | .int, .number (.int _) => true
  | .int, _ => false
  | .float, .text _ | .double, .text _ => false
  | .string, .text _ => true
  | .string, _ => false
  | _, _ => true

def Declarator.isChecked (d : Declarator) : Bool :=
  !d.type.isPointer && !d.type.isReference && !d.type.isContainer &&
    match d.extent with
    | .single => true
    | _ => false

/-- What is wrong with an initializer that folds to `c`, or does not fold. -/
def Declarator.verdict (d : Declarator) (c : Option Constant) : Option CheckStop :=
  match c with
  | none =>
    if d.type.base == .string then some (.rejected d.type.base.name none d.name d.position)
    else none
  | some c =>
    if d.type.base.takes c then none
    else some (.rejected d.type.base.name (some c.kindName) d.name d.position)

/-- The check of one declared variable where `room` frames are left to it, without the count. The
check itself takes one of them. -/
def Declarator.checkIn (room : Nat) (d : Declarator) : Option CheckStop :=
  if room == 0 then some .tooDeep
  else
    match d.initializer with
    | none => none
    | some e =>
      if d.isChecked then
        match e.foldIn (room - 1) with
        | .error fault => some (.fault fault)
        | .ok c => d.verdict c
      else none

/-- The check of a declared variable on its own. -/
def Declarator.check (d : Declarator) : Option CheckStop :=
  d.checkIn Stack.room

/-- Ends the check where no node can be visited any more. -/
def visit (room : Nat) : Checker Unit :=
  if room < 2 then throw .tooDeep else pure ()

/-- The visit of one declared variable, counted if it has an initializer. -/
def Declarator.checkCounted (room : Nat) (d : Declarator) : Checker Unit := do
  visit room
  if d.initializer.isSome then modify (· + 1)
  match d.checkIn (room - 2) with
  | none => return ()
  | some stop => throw stop

namespace Expr

mutual

def height : Expr → Nat
  | literal _ _ | name _ _ | new _ _ | endl _ => 1
  | unary _ _ e | step _ _ e | member _ e _ _ | newArray _ _ e => e.height + 1
  | binary _ _ a b | assign _ _ a b | index _ a b => max a.height b.height + 1
  | call _ callee args => max callee.height (heights args) + 1
  | braces _ elements => heights elements + 1

/-- The largest number of nested nodes of several expressions. -/
def heights : List Expr → Nat
  | [] => 0
  | e :: es => max e.height (heights es)

end

end Expr

/-- Passes over expressions, which hold no declarations; only their nesting matters. -/
def passOver (room : Nat) (es : List Expr) : Checker Unit :=
  if es.all fun e => 2 * e.height ≤ room then pure () else throw .tooDeep

/-- Passes over the parameters of a function. -/
def Signature.passOver (room : Nat) (s : Signature) : Checker Unit :=
  if s.params.isEmpty then pure () else visit room

namespace Stmt

mutual

/-- The check of all declarations in a statement, in source order, where `room` frames are left. -/
def check (room : Nat) : Stmt → Checker Unit
  | declare d => d.checkCounted room
  | declareAll _ ds => do
    visit room
    ds.forM (Declarator.checkCounted (room - 2))
  | prototype signature => do
    visit room
    signature.passOver (room - 2)
  | define signature _ body => do
    visit room
    signature.passOver (room - 2)
    visit (room - 2)
    checkAll (room - 4) body
  | block _ body => do
    visit room
    checkAll (room - 2) body
  | branch _ condition positive negative => do
    visit room
    passOver (room - 2) [condition]
    check (room - 2) positive
    checkOption (room - 2) negative
  | whileLoop _ condition body => do
    visit room
    passOver (room - 2) [condition]
    check (room - 2) body
  | doLoop _ body condition => do
    visit room
    check (room - 2) body
    passOver (room - 2) [condition]
  | forLoop _ start condition update body => do
    visit room
    checkOption (room - 2) start
    passOver (room - 2) condition.toList
    passOver (room - 2) update.toList
    check (room - 2) body
  | leave _ value => do
    visit room
    passOver (room - 2) value.toList
  | read _ es | print _ es => do
    visit room
    passOver (room - 2) es
  | evaluate _ e => do
    visit room
    passOver (room - 2) [e]
  | directive _ _ _ | usingNamespace _ _ | breakLoop _ | continueLoop _ => visit room

def checkAll (room : Nat) : List Stmt → Checker Unit
  | [] => pure ()
  | s :: ss => do
    check room s
    checkAll room ss

def checkOption (room : Nat) : Option Stmt → Checker Unit
  | none => pure ()
  | some s => check room s

end

end Stmt

structure CheckResult where
  /-- The number of initializers seen, up to and with the rejected one. -/
  checked : Nat
  stop : Option CheckStop
deriving DecidableEq, Repr, Inhabited

/-- The check of all declarations in a program, which is a node too. -/
def Program.checkAll (p : Program) : Checker Unit :=
  Stmt.checkAll (Stack.room - 2) p.body

/-- The check of a program. Nesting beyond the limit ends the check without a complaint. -/
def Program.check (p : Program) : CheckResult :=
  match p.checkAll 0 with
  | .ok _ n => ⟨n, none⟩
  | .error .tooDeep n => ⟨n, none⟩
  | .error stop n => ⟨n, some stop⟩

end SmallCpp
