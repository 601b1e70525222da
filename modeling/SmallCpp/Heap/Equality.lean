import SmallCpp.Heap.Copy

/-!
# Equality of values

Numbers are equal by their exact value, whatever their kind, and a character equals the text of that
character. Containers are equal if their elements are: vectors, pairs and lists in order, maps as
sets of entries. An element of a vector, a list or a map that is one and the same in both is equal
without a further look, so a vector is equal to its copy even if it holds a non-number, and a map
finds a key that is the same non-number.
-/

namespace SmallCpp

/-- The two values are one and the same: one container, one non-number, or an element found by one
search. Elements of a container that agree in this way are equal without a further look. -/
def identical (a b : Value) : Bool :=
  match a, b with
  | .vector l, .vector m | .map l, .map m | .pair l, .pair m => l == m
  | .real x, .real y => x.isNaN && y.isNaN
  | .nan m, .nan n => m == n
  | .entry _ _ m, .entry _ _ n => m == n
  | _, _ => false

def samePlain (a b : Value) : Bool :=
  match a, b with
  | .int m, .int n => m == n
  | .text s, .text t => s == t
  | .entry m k _, .entry n l _ => m == n && samePlain k l
  | .iterator v i, .iterator w j => v == w && i == j
  | .mapEnd m, .mapEnd n => m == n
  | .null, .null => true
  | a, b =>
    match a.asText?, b.asText? with
    | some s, some t => s == t
    | none, none =>
      match a.number?, b.number? with
      | some m, some n => m.compare? n == some .eq
      | _, _ => false
    | _, _ => false

/-- The equality of two keys. Keys hold no containers, so the heap is not needed. -/
def sameKey (a b : Value) : Bool :=
  identical a b || samePlain a b

/-- The kind of a value that cannot be a key, as messages name it. -/
def unhashable? : Value → Option String
  | .vector _ => some "Vector"
  | .map _ => some "Map"
  | .pair _ => some "Pair"
  | .list _ => some "list"
  | _ => none

def checkKey (v : Value) : HeapM Unit :=
  match unhashable? v with
  | none => pure ()
  | some kind => failFault (.unhashable kind)

def lookupKey (key : Value) (entries : List (Value × Value)) : Option Value :=
  (entries.find? fun e => sameKey e.1 key).map Prod.snd

def sameItems (same : Value → Value → HeapM Bool) : List Value → List Value → HeapM Bool
  | [], [] => pure true
  | a :: as, b :: bs => do
    if identical a b || (← same a b) then sameItems same as bs else return false
  | _, _ => pure false

def sameEntries (same : Value → Value → HeapM Bool) (others : List (Value × Value)) :
    List (Value × Value) → HeapM Bool
  | [] => pure true
  | (k, a) :: entries =>
    match lookupKey k others with
    | none => pure false
    | some b => do
      if identical a b || (← same a b) then sameEntries same others entries else return false

/-- The equality of two values, where the stack has room for `room` frames: vectors and maps take
three of them, pairs two and lists one. -/
def sameWithin (room : Nat) (a b : Value) : HeapM Bool :=
  match a, b with
  | .list as, .list bs =>
    match room with
    | room + 1 => sameItems (sameWithin room) as bs
    | _ => throw .tooDeep
  | .vector l, .vector m =>
    match room with
    | room + 3 => do
      if l == m then return true
      let (_, as) ← getVector l
      let (_, bs) ← getVector m
      if as.size == bs.size then sameItems (sameWithin room) as.toList bs.toList else return false
    | _ => throw .tooDeep
  | .map l, .map m =>
    match room with
    | room + 3 => do
      if l == m then return true
      let (_, _, as) ← getMap l
      let (_, _, bs) ← getMap m
      if as.length == bs.length then sameEntries (sameWithin room) bs as else return false
    | _ => throw .tooDeep
  | .pair l, .pair m =>
    match room with
    | room + 2 => do
      let (a, b, _) ← getPair l
      let (c, d, _) ← getPair m
      if ← sameWithin room a c then sameWithin room b d else return false
    | _ => throw .tooDeep
  | a, b => pure (samePlain a b)

def sameValue (a b : Value) : HeapM Bool :=
  inRoom (sameWithin · a b)

end SmallCpp
