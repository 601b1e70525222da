import SmallCpp.Machine.Place

/-!
# Evaluating expressions

Expressions are evaluated by recursion on their structure. A call of a function of the program
leaves that structure, so evaluation takes the way to enter a function as a parameter; the next
module ties the two together.

The argument `nesting` counts the evaluations in progress, which the limits of the run bound.
-/

namespace SmallCpp

/-- A program prepared for running, and the limits of the run. -/
structure Machine where
  linked : Linked
  limits : Limits
deriving Repr, Inhabited

/-- A way to enter a function: with the number of evaluations in progress and the frame of its
parameters. -/
abbrev Enter := Nat → Function → Frame → Run Value

/-! ### Steps of evaluation -/

def Literal.value : Literal → Value
  | int n _ => .int n
  | real x _ => .real x
  | string s _ => .ofString s
  | char c _ => .char [.ofChar c]
  | bool b => .bool b

def truth (v : Value) : Run Bool :=
  onHeap (orFail v.condition)

def elementOf (container index : Value) : HeapM Value :=
  match container with
  | .vector loc => vectorGet loc index
  | .map loc => mapGet loc index
  | container =>
    match container.asText? with
    | some s => do
      let i ← asIndex index
      return .char [← charAt "string[]" s i]
    | none => fail (.notIndexable container.typeName)

def memberOf (owner : Value) (name : String) : HeapM Value :=
  match owner, PairField.ofName? name with
  | .pair loc, some field => pairFieldValue loc field
  | .entry map key _, some field => entryFieldValue map key field
  | .vector _, _ | .map _, _ | .text _, _ | .char _, _ => fail (.memberNotCalled name)
  | owner, _ => fail (.noMember owner.typeName name)

/-- The name of something in a scope, as messages give it. -/
def scopedName (object : Expr) (field : String) : String :=
  match object with
  | .name _ id => id ++ "::" ++ field
  | _ => field

/-- Turns the fault of wrong operands or arguments into an error. -/
def orArgumentError {α : Type} (e : RuntimeError) (m : HeapM α) : HeapM α := fun h =>
  match m h with
  | .error (.fault fault) h' =>
    if fault.kind == .operand then fail e h' else .error (.fault fault) h'
  | r => r

def defaultItems (type : TypeExpr) : Nat → Array Value → HeapM (Array Value)
  | 0, items => pure items
  | n + 1, items => do
    let v ← defaultOf type
    defaultItems type n (items.push v)

/-- Adds one to the value at a location, or takes one away; returns the value before. -/
def stepReference (r : Reference) (delta : Int) : Run Value := do
  let old ← r.read
  let new ← onHeap (applyBinary .add old (.int delta))
  r.assign new
  return old

/-- Stores a value, combined with the old one if the operator says so, and reads it back. -/
def storeWith (op : AssignOp) (r : Reference) (v : Value) : Run Value := do
  let v ←
    match op.arithmetic? with
    | none => pure v
    | some arithmetic => do
      let old ← r.read
      onHeap (applyBinary arithmetic old v)
  r.assign v
  r.read

/-! ### Calls that stay inside the machine -/

def callVisible (f : LibraryFunction) (args : List Value) : Run Value :=
  onHeap (orArgumentError (.libraryArguments f.name) (callLibrary f args))

/-- Counts the elements that a call of a vector's member function fills in. -/
def chargeFill (limits : Limits) (loc : Nat) (method : VectorMethod) (args : List Value) :
    Run Unit := do
  match method, args with
  | .resize, count :: _ =>
    let kept := ((← get).heap.vectorAt loc).2.size
    charge limits ((← onHeap (asIndex count)) - kept)
  | .assign, count :: _ => charge limits (← onHeap (asIndex count))
  | _, _ => return ()

/-- The member functions that change a text. -/
inductive TextChange where
  | append
  | popBack
  | clear
deriving DecidableEq, Repr, Inhabited

def TextChange.ofName? (name : String) : Option TextChange :=
  if name == "push_back" || name == "append" then some .append
  else if name == "pop_back" then some .popBack
  else if name == "clear" then some .clear
  else none

/-- There is nothing in a value to take away from: it is nothing, zero or empty. -/
def isVacant (v : Value) : HeapM Bool :=
  match v with
  | .null => pure true
  | .list items => pure items.isEmpty
  | .vector loc => do return (← getVector loc).2.isEmpty
  | .text s | .char s => pure s.isEmpty
  | .bool _ | .int _ | .real _ | .nan _ => pure ((v.number?.map Number.isZero).getD false)
  | _ => pure false

/-- The value that is held where a text was, without its last character. -/
def withoutLast (v : Value) : HeapM Value := do
  if ← isVacant v then fail (.emptyContainer "string::pop_back" "string")
  match v with
  | .list items => return .list items.dropLast
  | v =>
    match v.asText? with
    | some s => return .text s.dropLast
    | none => failOperands s!"'{v.kindName}' object is not subscriptable"

def changeText (change : TextChange) (name : String) (args : List Value) (r : Reference) :
    Run Unit := do
  let old ← r.read
  match change with
  | .clear => r.write (.text [])
  | .popBack => r.write (← onHeap (withoutLast old))
  | .append =>
    match args with
    | [arg] =>
      if arg.asText?.isSome then r.write (← onHeap (plainSum old arg))
      else raise (.memberArguments "string" name)
    | _ => raise (.memberArguments "string" name)

/-! ### Calls that enter a function -/

/-- The library function that a name stands for, which must be visible. -/
def selectLibrary (linked : Linked) (name : String) : Run LibraryFunction :=
  match linked.library? name with
  | some f => pure f
  | none => raise (.unboundName name)

/-- The function that a call with a number of arguments enters, which must have a body. -/
def selectOverload (name : String) (overloads : List Function) (count : Nat) : Run Function :=
  match overloads.find? fun f => f.arity == count with
  | none => raise (.noOverload name count)
  | some f => if f.isDefined then pure f else raise (.notImplemented name)

/-- A new variable of a type that holds a value, converted. -/
def copyInto (type : TypeExpr) (value : Run Value) : Run Reference := do
  let v ← value
  newVariable (← onHeap (coerce type v)) type

/-- The expression is of a form that may denote a location. -/
def Expr.mayDenote : Expr → Bool
  | name _ _ | index _ _ _ | member _ _ _ _ => true
  | _ => false

/-- The location that a reference to an expression is bound to: the one it denotes, or, for a
constant reference to a temporary value, a new variable. -/
def bindWith (type : TypeExpr) (e : Expr) (location : Run Reference) (value : Run Value) :
    Run Reference :=
  if e.mayDenote then location
  else if type.isConst then copyInto type value
  else raise .temporaryReference

/-! ### Evaluation -/

variable (m : Machine) (enter : Enter)

mutual

def eval (nesting : Nat) (e : Expr) : Run Value := do
  checkNesting m.limits nesting
  match e with
  | .literal _ value => return value.value
  | .name _ id => do (← resolve id).read
  | .endl _ => return .ofString "\n"
  | .braces _ elements => return .list (← evalAll (nesting + 2) elements)
  | .new _ type => onHeap (defaultOf type)
  | .newArray _ type size => do
    let n ← onHeap (asIndex (← eval (nesting + 2) size))
    if n < 0 then raise (.newNegativeSize n)
    charge m.limits n
    onHeap do newVector (some type) (← defaultItems type n.toNat #[])
  | .unary _ .increment operand => do
    let r ← refer (nesting + 2) operand
    discard (stepReference r 1)
    r.read
  | .unary _ .decrement operand => do
    let r ← refer (nesting + 2) operand
    discard (stepReference r (-1))
    r.read
  | .unary _ op operand => do
    let v ← eval (nesting + 2) operand
    onHeap (applyUnary op v)
  | .step _ op operand => do
    let r ← refer (nesting + 2) operand
    stepReference r (if op == .increment then 1 else -1)
  | .binary _ .logicalAnd left right => do
    if ← truth (← eval (nesting + 2) left) then
      return .bool (← truth (← eval (nesting + 2) right))
    else return .bool false
  | .binary _ .logicalOr left right => do
    if ← truth (← eval (nesting + 2) left) then return .bool true
    else return .bool (← truth (← eval (nesting + 2) right))
  | .binary _ op left right => do
    let a ← eval (nesting + 2) left
    let b ← eval (nesting + 2) right
    onHeap (applyBinary op a b)
  | .assign _ op target value => do
    let r ← refer (nesting + 2) target
    let v ← eval (nesting + 2) value
    storeWith op r v
  | .index _ object subscript => do
    let container ← eval (nesting + 2) object
    let i ← eval (nesting + 2) subscript
    onHeap (elementOf container i)
  | .member _ object .scope field => raise (.scopedValue (scopedName object field))
  | .member _ object _ field => do
    let owner ← eval (nesting + 2) object
    onHeap (memberOf owner field)
  | .call _ (.name _ id) args =>
    match m.linked.overloads? id with
    | some overloads => do
      let f ← selectOverload id overloads args.length
      let frame ← bindArgs (nesting + 4) f.signature.params args []
      enter (nesting + 4) f frame
    | none => do
      let f ← selectLibrary m.linked id
      callVisible f (← evalAll (nesting + 4) args)
  | .call _ (.member _ (.name _ space) .scope field) args =>
    if space == "std" then do
      let f ← selectLibrary m.linked field
      callVisible f (← evalAll (nesting + 3) args)
    else raise (.unboundName (space ++ "::" ++ field))
  | .call _ (.member _ _ .scope field) _ => raise (.unboundName field)
  | .call _ (.member _ object _ field) args => do
    let owner ← eval (nesting + 3) object
    let values ← evalAll (nesting + 3) args
    match owner with
    | .vector loc =>
      match VectorMethod.ofName? field with
      | some method =>
        chargeFill m.limits loc method values
        onHeap (orArgumentError (.memberArguments "vector" field) (callVector method loc values))
      | none => raise (.noMemberFunction "vector" field)
    | .map loc =>
      match MapMethod.ofName? field with
      | some method =>
        onHeap (orArgumentError (.memberArguments "map" field) (callMap method loc values))
      | none => raise (.noMemberFunction "map" field)
    | .text s =>
      match TextChange.ofName? field with
      | some change =>
        let r ← refer (nesting + 3) object
        changeText change field values r
        return .null
      | none =>
        if textMethods.contains field then onHeap (callText s field values)
        else raise (.noMemberFunction "string" field)
    | owner => raise (.noMemberFunction owner.typeName field)
  | .call _ _ _ => raise .notCallable

def evalAll (nesting : Nat) : List Expr → Run (List Value)
  | [] => pure []
  | e :: es => do
    let v ← eval nesting e
    let vs ← evalAll nesting es
    return v :: vs

def refer (nesting : Nat) (e : Expr) : Run Reference := do
  checkNesting m.limits nesting
  match e with
  | .name _ id => resolve id
  | .index _ object subscript => do
    let container ← eval (nesting + 1) object
    let i ← eval (nesting + 1) subscript
    match ← slotOf? container i with
    | some r => return r
    | none =>
      match container.asText? with
      | some _ => do
        let text ← refer (nesting + 1) object
        return characterOf text (← onHeap (asIndex i))
      | none => raise (.notIndexable container.typeName)
  | .member _ object access field =>
    if access == .scope then raise .notAssignable
    else do
      let owner ← eval (nesting + 1) object
      match ← fieldOf? owner field with
      | some r => return r
      | none => raise (.noMember owner.typeName field)
  | _ => raise .notAssignable

/-- The frame of a call: each parameter bound to its argument, in order. -/
def bindArgs (nesting : Nat) (params : List Param) (args : List Expr) (frame : Frame) :
    Run Frame :=
  match args with
  | [] => pure frame
  | arg :: args =>
    match params with
    | [] => pure frame
    | param :: params => do
      let r ←
        if param.type.isReference then
          bindWith param.type arg (refer (nesting + 1) arg) (eval (nesting + 1) arg)
        else copyInto param.type (eval nesting arg)
      bindArgs nesting params args
        (if param.name.isEmpty then frame else Frame.bind param.name r frame)

end

/-- One step of evaluating an expression. -/
theorem eval_step : type_of% eval.eq_def := eval.eq_def

/-- One step of finding the location of an expression. -/
theorem refer_step : type_of% refer.eq_def := refer.eq_def

/-- The location that a reference to an expression is bound to. -/
def bindReference (nesting : Nat) (type : TypeExpr) (e : Expr) : Run Reference :=
  bindWith type e (refer m enter nesting e) (eval m enter nesting e)

end SmallCpp
