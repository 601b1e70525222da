/-!
# Searches in runs

The searches that an adaptive merge sort makes in a run. A search starts at a hint, gallops away
from it in growing strides until it has stepped over the place it looks for, and then halves the
stretch in between. The relation `lt` need not be an order: then the result is still a place in the
run, and which one depends on the pairs that the search compares.
-/

namespace SmallCpp.Sort

/-- Halves the stretch from `low` to `high`, going right of a middle for which `right` holds. -/
def bisect (right : Nat → Bool) (low high : Nat) : Nat :=
  if low < high then
    let middle := low + (high - low) / 2
    if right middle then bisect right (middle + 1) high else bisect right low middle
  else low
termination_by high - low

/-- Doubles an offset, from `offset` on, while `further` holds of it and it is below `limit`. The
result is the last offset of which it held, and the one after it, at most `limit`. -/
def stride (further : Nat → Bool) (limit : Nat) : Nat → Nat → Nat → Nat × Nat
  | 0, last, offset => (last, min offset limit)
  | bound + 1, last, offset =>
    if offset < limit && further offset then stride further limit bound offset (2 * offset + 1)
    else (last, min offset limit)

variable {α : Type} [Inhabited α] (lt : α → α → Bool)

/-- The place that galloping to the right of `hint` and halving lead to. -/
def searchRight (right : α → Bool) (run : Array α) (hint : Nat) : Nat :=
  let limit := run.size - hint
  let (last, offset) := stride (fun o => right (run.getD (hint + o) default)) limit limit 0 1
  bisect (fun i => right (run.getD i default)) (hint + last + 1) (hint + offset)

/-- The place that galloping to the left of `hint` and halving lead to. -/
def searchLeft (right : α → Bool) (run : Array α) (hint : Nat) : Nat :=
  let limit := hint + 1
  let (last, offset) := stride (fun o => !right (run.getD (hint - o) default)) limit limit 0 1
  bisect (fun i => right (run.getD i default)) (hint + 1 - offset) (hint - last)

/-- The place for an element that lies to the right of the elements for which `right` holds. -/
def gallop (right : α → Bool) (run : Array α) (hint : Nat) : Nat :=
  if right (run.getD hint default) then searchRight right run hint else searchLeft right run hint

def gallopLeft (key : α) (run : Array α) (hint : Nat) : Nat :=
  gallop (fun a => lt a key) run hint

def gallopRight (key : α) (run : Array α) (hint : Nat) : Nat :=
  gallop (fun a => !lt key a) run hint

end SmallCpp.Sort
