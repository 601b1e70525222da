/-!
# Types as written

A type is a base with generic arguments, modifiers before it and pointer and reference signs after
it. Types are structural: nothing is instantiated, and the arguments of a container say how its
elements are converted and which default they have.
-/

namespace SmallCpp

inductive BaseType where
  | int
  | float
  | double
  | char
  | bool
  | void
  | auto
  | string
  | vector
  | map
  | pair
  /-- Any other name, such as that of a template parameter. -/
  | named (name : String)
deriving DecidableEq, Repr, Inhabited

namespace BaseType

def ofName (name : String) : BaseType :=
  if name == "int" then int
  else if name == "float" then float
  else if name == "double" then double
  else if name == "char" then char
  else if name == "bool" then bool
  else if name == "void" then void
  else if name == "auto" then auto
  else if name == "string" then string
  else if name == "vector" then vector
  else if name == "map" then map
  else if name == "pair" then pair
  else named name

def name : BaseType → String
  | int => "int"
  | float => "float"
  | double => "double"
  | char => "char"
  | bool => "bool"
  | void => "void"
  | auto => "auto"
  | string => "string"
  | vector => "vector"
  | map => "map"
  | pair => "pair"
  | named name => name

def isContainer : BaseType → Bool
  | vector | map | pair => true
  | _ => false

end BaseType

/-- The modifiers that may stand before a base. -/
inductive Modifier where
  | const
  /-- The value is kept between calls; without effect here. -/
  | static
deriving DecidableEq, Repr, Inhabited

def Modifier.keyword : Modifier → String
  | const => "const"
  | static => "static"

/-- A type as written. -/
structure TypeExpr where
  base : BaseType
  qualified : Bool := false
  modifiers : List Modifier := []
  args : List TypeExpr := []
  pointers : Nat := 0
  isReference : Bool := false
deriving BEq, Repr, Inhabited

namespace TypeExpr

def of (base : BaseType) (args : List TypeExpr) : TypeExpr :=
  { base, args }

def name (t : TypeExpr) : String :=
  if t.qualified then "std::" ++ t.base.name else t.base.name

def isPointer (t : TypeExpr) : Bool :=
  0 < t.pointers

def isConst (t : TypeExpr) : Bool :=
  t.modifiers.contains .const

/-- The type is a vector, a map or a pair, and not a pointer. -/
def isContainer (t : TypeExpr) : Bool :=
  t.base.isContainer && !t.isPointer

/-- Induction on types: what holds of a type if it holds of its arguments, holds of every type. -/
theorem induct {P : TypeExpr → Prop}
    (h : ∀ base qualified modifiers args pointers isReference, (∀ a ∈ args, P a) →
      P ⟨base, qualified, modifiers, args, pointers, isReference⟩) (t : TypeExpr) : P t :=
  TypeExpr.rec (motive_2 := fun ts => ∀ t ∈ ts, P t) h nofun
    (fun _ _ hhead htail t ht => (List.mem_cons.mp ht).elim (fun heq => heq ▸ hhead) (htail t)) t

mutual

def text : TypeExpr → String
  | ⟨base, qualified, modifiers, args, pointers, isReference⟩ =>
    String.join (modifiers.map fun m => m.keyword ++ " ")
      ++ (if qualified then "std::" ++ base.name else base.name)
      ++ (if args.isEmpty then "" else "<" ++ ", ".intercalate (texts args) ++ ">")
      ++ "".pushn '*' pointers
      ++ (if isReference then "&" else "")

def texts : List TypeExpr → List String
  | [] => []
  | t :: ts => text t :: texts ts

end

end TypeExpr

end SmallCpp
