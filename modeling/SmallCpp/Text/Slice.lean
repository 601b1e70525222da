/-!
# Slices with signed bounds

A slice of a sequence is given by two positions. A negative position counts from the end, and a
position outside the sequence is moved to its nearer end, so every slice exists.
-/

namespace SmallCpp

/-- The position that a signed index denotes in a sequence of `size` elements. -/
def clampIndex (size : Nat) (i : Int) : Nat :=
  if i < 0 then (i + size).toNat else min i.toNat size

/-- The elements of `xs` from `start` up to `stop`, none if `stop` comes first. -/
def slice {α : Type} (start stop : Int) (xs : List α) : List α :=
  let i := clampIndex xs.length start
  let j := clampIndex xs.length stop
  (xs.drop i).take (j - i)

/-- `xs` with its slice from `start` up to `stop` replaced by `ys`. A slice that ends before it
starts is empty and stands at `start`. -/
def replaceSlice {α : Type} (start stop : Int) (ys xs : List α) : List α :=
  let i := clampIndex xs.length start
  let j := clampIndex xs.length stop
  xs.take i ++ ys ++ xs.drop (max i j)

end SmallCpp
