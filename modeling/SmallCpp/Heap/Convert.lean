import SmallCpp.Heap.Equality
import SmallCpp.Heap.Shown
import SmallCpp.Number.Reading

/-!
# Defaults and conversions

A variable that is declared without an initializer holds the default of its type. A value that is
stored in a variable, an element or a parameter is first converted to the recorded type; containers
are copied on the way, and a brace list becomes the container that the type names.
-/

namespace SmallCpp

/-! ### Defaults -/

/-- The default of a type: nothing for a pointer, an empty container, zero. -/
def defaultOf (t : TypeExpr) : HeapM Value :=
  match t with
  | ⟨base, _, _, args, pointers, _⟩ =>
    if 0 < pointers then pure .null
    else
      match base with
      | .vector => newVector args[0]? #[]
      | .map => newMap args[0]? args[1]? []
      | .pair =>
        match args with
        | [] => newPair (.int 0) (.int 0) none none
        | [a] => do newPair (← defaultOf a) (.int 0) (some a) none
        | a :: b :: _ => do
          let first ← defaultOf a
          let second ← defaultOf b
          newPair first second (some a) (some b)
      | .string => pure (.text [])
      | .float | .double => pure (.real 0.0)
      | .char => pure (.char [0])
      | .bool => pure (.bool false)
      | .int | .void | .auto | .named _ => pure (.int 0)

/-- What a location of the type holds at first. -/
def defaultValue : Option TypeExpr → HeapM Value
  | none => pure (.int 0)
  | some t => defaultOf t

/-! ### Conversions to scalars -/

/-- The value inside nested lists of one element, `none` if a list has another number of them. -/
def unwrap? : Value → Option Value
  | .list [v] => unwrap? v
  | .list _ => none
  | v => some v

def toInteger (v : Value) : HeapM Value :=
  match v with
  | .text _ => fail (.conversion "string" "int")
  | .nan _ => fail (.conversion (shortestText notANumber) "int")
  | .real x =>
    match truncateDouble x with
    | .ok n => pure (.int n)
    | .error _ => fail (.conversion (shortestText x) "int")
  | v => do
    let n ← orFail v.number
    return .int (← orFault n.truncate)

/-- A value converted to a double, which the type calls `name`. -/
def toReal (name : String) (v : Value) : HeapM Value :=
  match v with
  | .text _ => fail (.conversion "string" name)
  | .real _ | .nan _ => pure v
  | v => do
    let n ← orFail v.number
    return .real (← orFault n.toDouble)

def toCharacter (v : Value) : HeapM Value :=
  match v with
  | .char s => pure (.char s)
  | .text [c] => pure (.char [c])
  | .text _ => fail (.conversion "string" "char")
  | v => do
    let n ← orFail v.number
    let code ← orFault n.truncate
    match CodePoint.ofInt? code with
    | some c => return .char [c]
    | none => fail (.characterCode code)

def toText (v : Value) : HeapM Value :=
  match v.asText? with
  | some s => pure (.text s)
  | none => fail (.conversion v.typeName "string")

/-- A value that is not a list, converted to a base that is not a container; a base without values
of its own takes a copy. -/
def toScalar (copy : Value → HeapM Value) (base : BaseType) (v : Value) : HeapM Value :=
  match base with
  | .int => toInteger v
  | .float | .double => toReal base.name v
  | .char => toCharacter v
  | .bool => do return .bool (← orFail v.condition)
  | .string => toText v
  | _ => copy v

/-! ### Conversions to containers -/

/-- Fails because a key is not there, with its shown form if that can be written. -/
def missingKey {α : Type} (key : Value) : HeapM α := fun h =>
  match shown key h with
  | .ok text h => .error (.fault (.missingKey text)) h
  | .error .tooDeep h => .error (.fault (.unshownKey .tooDeep)) h
  | .error _ h => .error (.fault (.unshownKey .tooManyDigits)) h

def entryValue (map : Nat) (key : Value) : HeapM Value := do
  let (_, _, entries) ← getMap map
  match lookupKey key entries with
  | some v => return v
  | none => missingKey key

/-- The two values of a brace list or of a pair, for the initializer of a pair. -/
def twoValues (v : Value) : HeapM (Value × Value) :=
  match v with
  | .list [a, b] => pure (a, b)
  | .pair loc => do
    let (first, second, _) ← getPair loc
    return (first, second)
  | _ => fail .pairNeedsTwo

/-- The two values from which a value is converted to a pair: those of a brace list, of a pair or of
an element of a map. -/
def pairParts (v : Value) : HeapM (Value × Value) :=
  match v with
  | .entry map key _ => do return (key, ← entryValue map key)
  | .list _ | .pair _ => twoValues v
  | _ => fail (.conversion v.typeName "pair")

/-- Entries with a value stored under a key; a key that is there keeps its place. -/
def storeEntry (key value : Value) : List (Value × Value) → List (Value × Value)
  | [] => [(key, value)]
  | (k, v) :: entries =>
    if sameKey k key then (k, value) :: entries else (k, v) :: storeEntry key value entries

/-- The items of a brace list as the entries of a map, each copied and converted by the three
operations. -/
def entriesOf (copy toKey toValue : Value → HeapM Value) :
    List Value → List (Value × Value) → HeapM (List (Value × Value))
  | [], entries => pure entries
  | item :: items, entries => do
    let (first, second) ← twoValues item
    let first ← copy first
    let second ← copy second
    let value ← toValue second
    let key ← toKey first
    checkKey key
    entriesOf copy toKey toValue items (storeEntry key value entries)

/-- A value converted to a type, where the stack has room for `room` frames. The items of a list
take four of them for a vector; for a map, a value takes one and a key, copied with its value
before, takes three. The parts of a pair take two. -/
def coerceWithin (room : Nat) (t : TypeExpr) (v : Value) : HeapM Value :=
  match t with
  | ⟨base, qualified, modifiers, args, pointers, isReference⟩ =>
    if 0 < pointers then copyWithin room v
    else
      match base, v with
      | .vector, .list items => descend 4 room fun room =>
        match args with
        | [] => do newVector none (← items.mapM (copyWithin room)).toArray
        | e :: _ => do newVector (some e) (← items.mapM (coerceWithin room e)).toArray
      | .vector, .vector _ => copyWithin room v
      | .vector, _ => fail (.conversion v.typeName "vector")
      | .map, .list items => descend 3 room fun inner =>
        match args with
        | [] => do
          newMap none none (← entriesOf (copyWithin inner) (copyWithin inner)
          (copyWithin (inner + 2)) items [])
        | [k] => do
          newMap (some k) none
            (← entriesOf (copyWithin inner) (coerceWithin inner k) (copyWithin (inner + 2))
            items [])
        | k :: e :: _ => do
          newMap (some k) (some e)
            (← entriesOf (copyWithin inner) (coerceWithin inner k) (coerceWithin (inner + 2) e)
            items [])
      | .map, .map _ => copyWithin room v
      | .map, _ => fail (.conversion v.typeName "map")
      | .pair, v => descend 2 room fun room => do
        let (first, second) ← pairParts v
        match args with
        | [] => do
          let first ← copyWithin room first
          let second ← copyWithin room second
          newPair first second none none
        | [a] => do
          let first ← coerceWithin room a first
          let second ← copyWithin room second
          newPair first second (some a) none
        | a :: b :: _ => do
          let first ← coerceWithin room a first
          let second ← coerceWithin room b second
          newPair first second (some a) (some b)
      | base, v =>
        match unwrap? v with
        | some inner => toScalar (copyWithin room) base inner
        | none =>
          fail (.braceList
            (TypeExpr.text ⟨base, qualified, modifiers, args, pointers, isReference⟩))

/-- A value converted to a type that may be unknown; then it is only copied. -/
def coerceToWithin (room : Nat) : Option TypeExpr → Value → HeapM Value
  | none, v => copyWithin room v
  | some t, v => coerceWithin room t v

/-- A new value of the type, made of a value. -/
def coerceTo (t : Option TypeExpr) (v : Value) : HeapM Value :=
  inRoom (coerceToWithin · t v)

def coerce (t : TypeExpr) (v : Value) : HeapM Value :=
  coerceTo (some t) v

/-! ### Input and output -/

/-- The value of an input token for a target of no particular type: an integer, a double or the
token itself. -/
def guessToken (token : String) : HeapM Value :=
  match readInteger token with
  | .ok n => pure (.int n)
  | .error _ =>
    match readDouble? token with
    | some x => newReal x
    | none => pure (.ofString token)

/-- The value of an input token for a target whose type has the given base. -/
def readToken (token : String) (base : Option BaseType) : HeapM Value :=
  match base with
  | some .int =>
    match readInteger token with
    | .ok n => pure (.int n)
    | .error _ => fail (.invalidInput token "int")
  | some .bool =>
    match readInteger token with
    | .ok n => pure (.bool (n != 0))
    | .error _ => fail (.invalidInput token "bool")
  | some .float | some .double =>
    match readDouble? token with
    | some x => newReal x
    | none => fail (.invalidInput token ((base.map BaseType.name).getD ""))
  | some .char =>
    match token.toList with
    | c :: _ => pure (.char [.ofChar c])
    | [] => failFault .emptyText
  | some .string => pure (.ofString token)
  | _ => guessToken token

/-- What a value is in the output. -/
def printed (v : Value) : HeapM CodeText :=
  match v with
  | .bool b => pure (.ofString (if b then "1" else "0"))
  | .real x => pure (.ofString (generalText x))
  | .nan _ => pure (.ofString (generalText notANumber))
  | .int n => do return .ofString (← integerText n)
  | .char s | .text s => pure s
  | v => fail (.notPrintable v.typeName)

end SmallCpp
