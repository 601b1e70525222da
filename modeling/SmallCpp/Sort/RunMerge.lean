import SmallCpp.Sort.Search

/-!
# An adaptive merge sort

The list is cut into runs that are in order already, short runs are filled up by insertion, and
neighbouring runs are merged. A merge takes elements one at a time until one of the runs has been
ahead for a while, and then gallops through it.

If the relation is an order, the result is the stable sort of the list, however it is computed. If
it is not, as among numbers with non-numbers, the result depends on the pairs that are compared, and
this sort says which those are.
-/

namespace SmallCpp.Sort

variable {α : Type} [Inhabited α] (lt : α → α → Bool)

/-! ### Runs -/

/-- The length of the longest beginning of a list in which every element is related to the one
before it by `next`. -/
def chainLength (next : α → α → Bool) : α → List α → Nat
  | _, [] => 1
  | a, b :: bs => if next b a then chainLength next b bs + 1 else 1

/-- The first run of a list and what follows it. A run never descends, or descends strictly and is
then reversed. -/
def firstRun : List α → List α × List α
  | a :: b :: bs =>
    let xs := a :: b :: bs
    if lt b a then
      let n := chainLength lt a (b :: bs)
      ((xs.take n).reverse, xs.drop n)
    else xs.splitAt (chainLength (fun b a => !lt b a) a (b :: bs))
  | xs => (xs, [])

/-- A run with an element inserted behind the elements that are not greater. -/
def insertOne (run : Array α) (a : α) : Array α :=
  let place := bisect (fun i => !lt a (run.getD i default)) 0 run.size
  run.extract 0 place ++ #[a] ++ run.extract place run.size

/-- A run with further elements inserted, one after the other. -/
def insertAll (run : Array α) (xs : List α) : Array α :=
  xs.foldl (insertOne lt) run

/-! ### The merge of two runs -/

/-- The number of wins in a row that makes galloping worth its cost. -/
def gallopWins : Nat := 7

inductive Pace where
  /-- One element at a time, with the wins in a row of each run. -/
  | single (held other : Nat)
  /-- By galloping, either for the first time in a row or again. -/
  | gallop (again : Bool)
deriving DecidableEq, Repr, Inhabited

/-- A merge in progress. Elements are taken from the fronts of two runs. The merge ends when one
element of the run that is held aside is left, or none of the other run; what is left then follows
in the end, the other run first. -/
structure Merger (α : Type) where
  taken : Array α
  held : Array α
  other : Array α
  /-- The number of wins in a row at which galloping starts. -/
  threshold : Nat
  pace : Pace

/-- What differs between a merge from the front and one from the back. -/
structure Direction (α : Type) where
  /-- The front of the other run goes before that of the run held aside. -/
  otherFirst : α → α → Bool
  /-- How many elements of the run held aside go before a front of the other run. -/
  heldBefore : α → Array α → Nat
  /-- How many elements of the other run go before a front of the run held aside. -/
  otherBefore : α → Array α → Nat
  heldGallops : Bool

namespace Merger

def isDone (m : Merger α) : Bool :=
  m.held.size ≤ 1 || m.other.isEmpty

def result (m : Merger α) : Array α :=
  m.taken ++ m.other ++ m.held

def takeHeld (n : Nat) (m : Merger α) : Merger α :=
  { m with taken := m.taken ++ m.held.extract 0 n, held := m.held.extract n m.held.size }

def takeOther (n : Nat) (m : Merger α) : Merger α :=
  { m with taken := m.taken ++ m.other.extract 0 n, other := m.other.extract n m.other.size }

/-- Gallops through the run held aside, and takes the element of the other run that it looked for.
Returns the number of elements passed. -/
def gallopHeld (d : Direction α) (m : Merger α) : Nat × Merger α :=
  let n := d.heldBefore (m.other.getD 0 default) m.held
  let m := m.takeHeld n
  (n, if m.isDone then m else m.takeOther 1)

/-- Gallops through the other run, and takes the element of the run held aside that it looked for.
Returns the number of elements passed. -/
def gallopOther (d : Direction α) (m : Merger α) : Nat × Merger α :=
  let n := d.otherBefore (m.held.getD 0 default) m.other
  let m := m.takeOther n
  (n, if m.isDone then m else m.takeHeld 1)

def step (d : Direction α) (m : Merger α) : Merger α :=
  match m.pace with
  | .single held other =>
    if d.otherFirst (m.other.getD 0 default) (m.held.getD 0 default) then
      let wins := other + 1
      { m.takeOther 1 with pace := if wins < m.threshold then .single 0 wins else .gallop false }
    else
      let wins := held + 1
      { m.takeHeld 1 with pace := if wins < m.threshold then .single wins 0 else .gallop false }
  | .gallop again =>
    let m := { m with
      threshold := if again && 1 < m.threshold then m.threshold - 1 else m.threshold
      pace := .gallop true }
    let (first, second) : (Merger α → Nat × Merger α) × (Merger α → Nat × Merger α) :=
      if d.heldGallops then (gallopHeld d, gallopOther d) else (gallopOther d, gallopHeld d)
    let (n, m) := first m
    if m.isDone then m
    else
      let (k, m) := second m
      if m.isDone || gallopWins ≤ n || gallopWins ≤ k then m
      else { m with threshold := m.threshold + 1, pace := .single 0 0 }

/-- Steps until the merge cannot go on, at most `bound` of them. Every step takes an element. -/
def finish (d : Direction α) : Nat → Merger α → Merger α
  | 0, m => m
  | bound + 1, m => if m.isDone then m else finish d bound (m.step d)

end Merger

/-- The merge of two runs, and the threshold after it. The first element of the other run is known
to come first. -/
def Direction.merge (d : Direction α) (threshold : Nat) (held other : Array α) : Array α × Nat :=
  let start : Merger α := ⟨#[], held, other, threshold, .single 0 0⟩
  let m := Merger.finish d (held.size + other.size) (start.takeOther 1)
  (m.result, m.threshold)

/-- A merge from the front; the left run is held aside. -/
def forwards : Direction α where
  otherFirst b a := lt b a
  heldBefore b run := gallopRight lt b run 0
  otherBefore a run := gallopLeft lt a run 0
  heldGallops := true

/-- A merge from the back, of reversed runs; the right run is held aside. -/
def backwards : Direction α where
  otherFirst a b := lt b a
  heldBefore a run := run.size - gallopLeft lt a run.reverse (run.size - 1)
  otherBefore b run := run.size - gallopRight lt b run.reverse (run.size - 1)
  heldGallops := false

/-- The merge of two neighbouring runs, and the threshold after it. The elements of the left run
that come before the right one stay where they are, and so do those of the right run that come after
the left one; the shorter of the rests is held aside. -/
def mergeRuns (threshold : Nat) (left right : Array α) : Array α × Nat :=
  let i := gallopRight lt (right.getD 0 default) left 0
  let a := left.extract i left.size
  if a.isEmpty then (left ++ right, threshold)
  else
    let j := gallopLeft lt (a.getD (a.size - 1) default) right (right.size - 1)
    let b := right.extract 0 j
    if b.isEmpty then (left ++ right, threshold)
    else
      let (merged, threshold) :=
        if a.size ≤ b.size then (forwards lt).merge threshold a b
        else
          let (reversed, threshold) := (backwards lt).merge threshold b.reverse a.reverse
          (reversed.reverse, threshold)
      (left.extract 0 i ++ merged ++ right.extract j right.size, threshold)

/-! ### The order of the merges -/

/-- The first binary place at which the fractions `a / n` and `b / n` differ. -/
def differingPlace (n : Nat) : Nat → Nat → Nat → Nat
  | 0, _, _ => 0
  | bound + 1, a, b =>
    if n ≤ a then differingPlace n bound (2 * (a - n)) (2 * (b - n)) + 1
    else if n ≤ b then 1
    else differingPlace n bound (2 * a) (2 * b) + 1

/-- How early the border between two neighbouring runs is merged away: the higher, the earlier. It
is the first binary place at which the midpoints of the runs differ, as fractions of the list. -/
def power (start left right size : Nat) : Nat :=
  let a := 2 * start + left
  differingPlace size (size + 2) a (a + left + right)

/-- A run that waits for a merge. -/
structure Waiting (α : Type) where
  items : Array α
  power : Nat

/-- The runs that wait for a merge, last one first, and the threshold of the merges. -/
structure Pending (α : Type) where
  runs : List (Waiting α) := []
  /-- The number of wins in a row at which galloping starts. -/
  threshold : Nat := gallopWins

namespace Pending

/-- Merges the last two runs while the power of the border between them is greater than `power`. -/
def mergeAbove (power : Nat) : Nat → Pending α → Pending α
  | 0, p => p
  | bound + 1, p =>
    match p.runs with
    | b :: a :: runs =>
      if power < b.power then
        let (items, threshold) := mergeRuns lt p.threshold a.items b.items
        mergeAbove power bound ⟨⟨items, a.power⟩ :: runs, threshold⟩
      else p
    | _ => p

/-- Adds a run that starts at the given offset of a list of `size` elements. -/
def push (size start : Nat) (items : Array α) (p : Pending α) : Pending α :=
  match p.runs with
  | [] => { p with runs := [⟨items, 0⟩] }
  | last :: _ =>
    let border := power (start - last.items.size) last.items.size items.size size
    let p := mergeAbove lt border p.runs.length p
    { p with runs := ⟨items, border⟩ :: p.runs }

/-- Merges all runs, at most `bound` times: the last two, or the two before if the run in front of
them is shorter than the last one. -/
def mergeAll : Nat → Pending α → Array α
  | 0, p => p.runs.foldl (fun items w => w.items ++ items) #[]
  | bound + 1, p =>
    match p.runs with
    | [] => #[]
    | [a] => a.items
    | [b, a] => (mergeRuns lt p.threshold a.items b.items).1
    | c :: b :: a :: runs =>
      if a.items.size < c.items.size then
        let (items, threshold) := mergeRuns lt p.threshold a.items b.items
        mergeAll bound ⟨c :: ⟨items, a.power⟩ :: runs, threshold⟩
      else
        let (items, threshold) := mergeRuns lt p.threshold b.items c.items
        mergeAll bound ⟨⟨items, b.power⟩ :: a :: runs, threshold⟩

end Pending

/-- A size halved until it is below 64, plus one if a halving, or `up` before it, lost something. -/
def halvedSize (up size : Nat) : Nat :=
  if size < 64 then size + up else halvedSize (max up (size % 2)) (size / 2)
termination_by size

/-- The length that short runs of a list of `size` elements are filled up to. -/
def leastRun (size : Nat) : Nat :=
  halvedSize 0 size

/-- Cuts a list into runs and adds them to those that wait, at most `bound` of them. -/
def collect (size least : Nat) : Nat → Nat → List α → Pending α → Pending α
  | 0, _, _, p => p
  | bound + 1, start, xs, p =>
    if xs.isEmpty then p
    else
      let (run, rest) := firstRun lt xs
      let missing := least - run.length
      let items := insertAll lt run.toArray (rest.take missing)
      collect size least bound (start + items.size) (rest.drop missing) (p.push lt size start items)

def sortBy (xs : List α) : List α :=
  let size := xs.length
  let p := collect lt size (leastRun size) size 0 xs {}
  (p.mergeAll lt p.runs.length).toList

end SmallCpp.Sort
