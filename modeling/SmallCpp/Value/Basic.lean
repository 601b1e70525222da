import SmallCpp.Number.Basic

/-!
# Values

The values of a running program. Scalars and brace lists are values in themselves; a container is a
place in the heap, so two values can be the same container.

A non-number is equal to nothing, and yet a container finds it again where it was put. So two
non-numbers can be the same or not: one is common to all programs, and every other one has a mark of
its own. An element that was found in a map has a mark for the same reason, since its key may be a
non-number.

A character has a text, which is mostly but not always of one character: where a list is held in
place of a text, its elements are taken for characters. Only a character of one character has a
code. -/

namespace SmallCpp

inductive Value where
  | null
  | bool (b : Bool)
  | int (n : Int)
  /-- A double; all non-numbers of this form are the common one. -/
  | real (x : Float)
  | nan (mark : Nat)
  | char (s : CodeText)
  | text (s : CodeText)
  | list (items : List Value)
  | vector (loc : Nat)
  | map (loc : Nat)
  | pair (loc : Nat)
  | iterator (vector : Nat) (index : Int)
  /-- An element of a map, known by its key, with the mark of the search that found it. -/
  | entry (map : Nat) (key : Value) (mark : Nat)
  | mapEnd (map : Nat)
deriving BEq, Repr, Inhabited

namespace Value

def typeName : Value → String
  | null => "void"
  | bool _ => "bool"
  | int _ => "int"
  | real _ | nan _ => "double"
  | char _ => "char"
  | text _ => "string"
  | vector _ => "vector"
  | map _ => "map"
  | pair _ | entry _ _ _ => "pair"
  | list _ | iterator _ _ | mapEnd _ => "iterator"

def kindName : Value → String
  | null => "NoneType"
  | bool _ => "bool"
  | int _ => "int"
  | real _ | nan _ => "float"
  | char _ => "Char"
  | text _ => "str"
  | list _ => "list"
  | vector _ => "Vector"
  | map _ => "Map"
  | pair _ => "Pair"
  | iterator _ _ => "Iterator"
  | entry _ _ _ => "MapEntry"
  | mapEnd _ => "MapEnd"

def ofNumber : Number → Value
  | .int n => int n
  | .real x => real x

def ofString (s : String) : Value :=
  text (.ofString s)

/-- The number that a scalar stands for: truth values are zero and one, characters their code. -/
def number? : Value → Option Number
  | bool b => some (.int (if b then 1 else 0))
  | int n => some (.int n)
  | real x => some (.real x)
  | nan _ => some (.real notANumber)
  | char [c] => some (.int c.val)
  | _ => none

def isScalar : Value → Bool
  | bool _ | int _ | real _ | nan _ | char _ => true
  | _ => false

def asText? : Value → Option CodeText
  | text s | char s => some s
  | _ => none

def isText : Value → Bool
  | text _ => true
  | _ => false

def number (v : Value) : Except Failure Number :=
  match v.number? with
  | some n => .ok n
  | none =>
    match v with
    | char s => .error (.fault (.notOneCharacter s.length))
    | v => .error (.error (.notANumber v.typeName))

theorem number_of_number? {v : Value} {n : Number} (h : v.number? = some n) : v.number = .ok n := by
  rw [number.eq_def, h]

theorem isScalar_of_number? {v : Value} {n : Number} (h : v.number? = some n) :
    v.isScalar = true := by
  cases v <;> first | rfl | cases h

/-- A scalar as a number: truth values and characters become integers, numbers stay as they are. -/
def asNumber (v : Value) : Except Failure Value :=
  match v with
  | real _ | nan _ => .ok v
  | v => v.number.map ofNumber

/-- The truth of a value: a number is true if it is not zero, positions and containers are always
true, and texts have no truth. -/
def condition (v : Value) : Except Failure Bool :=
  match v with
  | null => .ok false
  | text _ | list _ => .error (.error (.notACondition v.typeName))
  | vector _ | map _ | pair _ | iterator _ _ | entry _ _ _ | mapEnd _ => .ok true
  | v => v.number.map fun n => !n.isZero

end Value

end SmallCpp
