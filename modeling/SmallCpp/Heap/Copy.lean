import SmallCpp.Heap.Basic

/-!
# Copies of values

Storing a container copies it with all containers inside it, so two variables never share one.
Scalars, brace lists and positions are copied as they are. Each level of nesting takes frames of the
stack: four for a vector, two for a map and one for a pair.
-/

namespace SmallCpp

/-- A copy of a value, where the stack has room for `room` frames. -/
def copyWithin (room : Nat) (v : Value) : HeapM Value :=
  match v with
  | .vector loc =>
    match room with
    | room + 4 => do
      let (element, items) ← getVector loc
      newVector element (← items.mapM (copyWithin room))
    | _ => throw .tooDeep
  | .map loc =>
    match room with
    | room + 2 => do
      let (key, value, entries) ← getMap loc
      let copied ← entries.mapM fun (k, item) => do return (k, ← copyWithin room item)
      newMap key value copied
    | _ => throw .tooDeep
  | .pair loc =>
    match room with
    | room + 1 => do
      let (first, second, firstType, secondType) ← getPair loc
      let first ← copyWithin room first
      let second ← copyWithin room second
      newPair first second firstType secondType
    | _ => throw .tooDeep
  | v => pure v

/-- Goes on with the room that is left when a level of nesting takes its frames. -/
def descend {α : Type} (frames room : Nat) (inner : Nat → HeapM α) : HeapM α :=
  if room < frames then throw .tooDeep else inner (room - frames)

theorem descend_eq_ok {α : Type} {frames room : Nat} {inner : Nat → HeapM α} {h k : Heap} {a : α}
    (hrun : descend frames room inner h = .ok a k) :
    frames ≤ room ∧ inner (room - frames) h = .ok a k := by
  unfold descend at hrun
  split at hrun
  · cases hrun
  · next hroom => exact ⟨Nat.le_of_not_lt hroom, hrun⟩

/-- A copy, level by level. -/
theorem copyWithin_eq (room : Nat) (v : Value) : copyWithin room v = match v with
    | .vector loc => descend 4 room fun room => do
      let (element, items) ← getVector loc
      newVector element (← items.mapM (copyWithin room))
    | .map loc => descend 2 room fun room => do
      let (key, value, entries) ← getMap loc
      let copied ← entries.mapM fun (k, item) => do return (k, ← copyWithin room item)
      newMap key value copied
    | .pair loc => descend 1 room fun room => do
      let (first, second, firstType, secondType) ← getPair loc
      let first ← copyWithin room first
      let second ← copyWithin room second
      newPair first second firstType secondType
    | v => pure v := by
  cases v with
  | vector | map | pair =>
    rw [copyWithin.eq_def]
    dsimp only
    unfold descend
    split
    · rw [if_neg (by omega)]
      rfl
    · next hroom =>
      refine (if_pos (Nat.lt_of_not_le fun hle => ?_)).symm
      exact hroom _ (Nat.sub_add_cancel hle).symm
  | _ => rw [copyWithin.eq_def]

/-- An operation that takes the room that the stack has left. -/
def inRoom {α : Type} (operation : Nat → HeapM α) : HeapM α :=
  fun h => operation h.room h

def copyValue (v : Value) : HeapM Value :=
  inRoom (copyWithin · v)

end SmallCpp
