import Mathlib.Data.List.Lex
import Mathlib.Order.Fin.Basic
import SmallCpp.Heap.Library
import SmallCpp.Proofs.Heap.Shape
import SmallCpp.Proofs.Sort.Permutation

/-!
# Sorting a range of a vector

A range is given by two positions of a vector, which may lie outside it or stand in the wrong order.
Sorting puts the elements of the range in another order and leaves those around it where they are.
If the elements are all texts, or all integers, truth values and characters, then they are ordered
by keys that are linearly ordered, and the range is sorted by them.  Elements with one key, such as
`1` and `true`, stay in their order.

## Main results

* `sort_stable` — **sorting a range is stable and leaves everything else in place.**
-/

namespace SmallCpp

variable {κ : Type} {key : Value → κ}

/-! ### Ranges -/

section Slices

variable {α : Type} {start stop : Int} {xs part : List α}

/-- A list is what is before a range, the range and what is after it. -/
theorem take_slice_drop (start stop : Int) (xs : List α) :
    xs.take (clampIndex xs.length start) ++ slice start stop xs ++
      xs.drop (max (clampIndex xs.length start) (clampIndex xs.length stop)) = xs := by
  rw [slice]
  generalize clampIndex xs.length start = i
  generalize clampIndex xs.length stop = j
  have hdrop : xs.drop (max i j) = (xs.drop i).drop (j - i) := by
    rw [List.drop_drop]
    congr 1
    omega
  rw [hdrop, List.append_assoc, List.take_append_drop, List.take_append_drop]

theorem replaceSlice_perm (hpart : part.Perm (slice start stop xs)) :
    (replaceSlice start stop part xs).Perm xs := by
  have hperm := (hpart.append_left (xs.take (clampIndex xs.length start))).append_right
    (xs.drop (max (clampIndex xs.length start) (clampIndex xs.length stop)))
  rwa [take_slice_drop start stop xs] at hperm

theorem clampIndex_le (size : Nat) (i : Int) : clampIndex size i ≤ size := by
  rw [clampIndex]
  split <;> omega

theorem length_slice (start stop : Int) (xs : List α) :
    (slice start stop xs).length = clampIndex xs.length stop - clampIndex xs.length start := by
  have hle := clampIndex_le xs.length stop
  rw [slice, List.length_take, List.length_drop]
  omega

theorem slice_replaceSlice (hpart : part.Perm (slice start stop xs)) :
    slice start stop (replaceSlice start stop part xs) = part := by
  have hlen : part.length = clampIndex xs.length stop - clampIndex xs.length start :=
    hpart.length_eq.trans (length_slice start stop xs)
  have hle := clampIndex_le xs.length start
  rw [slice, (replaceSlice_perm hpart).length_eq, replaceSlice, List.append_assoc]
  have htake : (xs.take (clampIndex xs.length start)).length = clampIndex xs.length start :=
    List.length_take_of_le hle
  rw [List.drop_left' htake, List.take_left' hlen]

theorem getElem?_replaceSlice (hpart : part.Perm (slice start stop xs)) {i : Nat}
    (hi : i < clampIndex xs.length start ∨ clampIndex xs.length stop ≤ i) :
    (replaceSlice start stop part xs)[i]? = xs[i]? := by
  have hlen : part.length = (slice start stop xs).length := hpart.length_eq
  have hsize := length_slice start stop xs
  have hle := clampIndex_le xs.length start
  conv_rhs => rw [← take_slice_drop start stop xs]
  rw [replaceSlice]
  simp only [List.append_assoc, List.getElem?_append, List.length_take]
  split
  · rfl
  · rw [hlen]
    split
    · omega
    · rfl

end Slices

/-! ### Merge sorts -/

/-- A merge sort keeps elements in their order that it may put in any order. -/
theorem filter_mergeSort {α : Type} {le : α → α → Bool} (htrans : ∀ a b c, le a b → le b c → le a c)
    (htotal : ∀ a b, le a b || le b a) {p : α → Bool} {xs : List α}
    (hp : ∀ a ∈ xs, ∀ b ∈ xs, p a → p b → le a b) : (xs.mergeSort le).filter p = xs.filter p := by
  have hsorted : (xs.filter p).Pairwise fun a b => le a b := by
    refine List.pairwise_of_forall_mem_list fun a ha b hb => ?_
    rw [List.mem_filter] at ha hb
    exact hp a ha.1 b hb.1 ha.2 hb.2
  have hsub := (List.sublist_mergeSort htrans htotal hsorted List.filter_sublist).filter p
  rw [List.filter_filter] at hsub
  simp only [Bool.and_self] at hsub
  exact (hsub.eq_of_length ((List.mergeSort_perm xs le).filter p).length_eq.symm).symm

/-! ### Keys -/

/-- The key of the first value is not greater than the key of the second one: texts are ordered by
their code points, and integers, truth values and characters by their numbers. -/
def Value.noLater (v w : Value) : Bool :=
  match v, w with
  | .text s, .text t => s ≤ t
  | v, w =>
    match v.number?, w.number? with
    | some (.int m), some (.int n) => m ≤ n
    | _, _ => false

def Value.sameRank (v w : Value) : Bool :=
  v.noLater w && w.noLater v

def Value.orderKey (v : Value) : OrderKey :=
  match v with
  | .text s => .text s
  | v => .number (v.number?.getD (.int 0))

/-- The values are ordered by keys of a linear order. -/
structure Ranked {κ : Type} [LinearOrder κ] (part : List Value) (key : Value → κ) : Prop where
  /-- Every value has a key, and no key is a non-number. -/
  keyed : ∀ v ∈ part, SmallCpp.orderKey v = pure v.orderKey ∧ v.orderKey.isUnordered = false
  /-- The keys are compared as those of the linear order, and so are the values. -/
  compared : ∀ v ∈ part, ∀ w ∈ part, v.orderKey.before? w.orderKey = some (decide (key v < key w)) ∧
    v.noLater w = decide (key v ≤ key w)

namespace Ranked

variable [LinearOrder κ] {part : List Value}

theorem mapM_orderKey (hpart : Ranked part key) :
    (part.mapM fun v => do return (← SmallCpp.orderKey v, v) : HeapM _) =
      pure (part.map fun v => (v.orderKey, v)) := by
  have hkeyed := fun v hv => (hpart.keyed v hv).1
  clear hpart
  induction part with
  | nil => rfl
  | cons v part ih =>
    rw [List.mapM_cons, hkeyed v (List.mem_cons_self ..), pure_bind, pure_bind,
      ih fun w hw => hkeyed w (List.mem_cons_of_mem _ hw)]
    rfl

theorem mixedKeys_eq (hpart : Ranked part key) : mixedKeys (part.map Value.orderKey) = false := by
  rw [Bool.eq_false_iff]
  intro hmixed
  simp only [mixedKeys, Bool.and_eq_true, List.any_map, List.any_eq_true, Function.comp] at hmixed
  obtain ⟨⟨v, hv, htext⟩, w, hw, hnum⟩ := hmixed
  have hbefore := (hpart.compared v hv w hw).1
  cases hkey : v.orderKey with
  | number => simp [hkey] at htext
  | text =>
    cases hkey' : w.orderKey with
    | text => simp [hkey'] at hnum
    | number => simp [hkey, hkey', OrderKey.before?] at hbefore

/-- Sorting by keys is a merge sort of the values. -/
theorem sortByKey_eq (hpart : Ranked part key) :
    sortByKey (part.map fun v => (v.orderKey, v)) = part.mergeSort fun v w => key v ≤ key w := by
  have hordered : (part.map fun v => (v.orderKey, v)).any (fun k => k.1.isUnordered) = false := by
    simp only [List.any_map, List.any_eq_false, Function.comp]
    exact fun v hv => by simp [(hpart.keyed v hv).2]
  rw [sortByKey]
  dsimp only
  rw [hordered, if_neg Bool.false_ne_true]
  have hsnd : (part.map fun v => (v.orderKey, v)).map Prod.snd = part := by
    simp [Function.comp_def]
  rw [List.map_mergeSort (s := fun v w => key v ≤ key w), hsnd]
  intro a ha b hb
  obtain ⟨v, hv, rfl⟩ := List.mem_map.mp ha
  obtain ⟨w, hw, rfl⟩ := List.mem_map.mp hb
  simp [hpart.compared w hw v hv, ← not_lt]

end Ranked

/-- Texts are ordered by their code points. -/
theorem ranked_texts {part : List Value} (hpart : ∀ v ∈ part, v.isText = true) :
    Ranked part fun v => v.asText?.getD [] := by
  have htext : ∀ v ∈ part, ∃ s, v = .text s := by
    intro v hv
    cases v with
    | text s => exact ⟨s, rfl⟩
    | _ => cases hpart _ hv
  refine ⟨fun v hv => ?_, fun v hv w hw => ?_⟩
  · obtain ⟨s, rfl⟩ := htext v hv
    exact ⟨rfl, rfl⟩
  · obtain ⟨s, rfl⟩ := htext v hv
    obtain ⟨t, rfl⟩ := htext w hw
    exact ⟨congrArg some (decide_eq_decide.mpr Iff.rfl), decide_eq_decide.mpr Iff.rfl⟩

/-- The integer that an integer, a truth value or a character stands for. -/
def Value.integer? (v : Value) : Option Int :=
  match v.number? with
  | some (.int n) => some n
  | _ => none

theorem Value.exists_integer {v : Value} (h : v.integer?.isSome = true) :
    ∃ n, v.number? = some (.int n) := by
  unfold integer? at h
  split at h
  · next n hn => exact ⟨n, hn⟩
  · cases h

theorem Value.noLater_of_number? {v w : Value} {m n : Int} (hv : v.number? = some (.int m))
    (hw : w.number? = some (.int n)) : v.noLater w = decide (m ≤ n) := by
  unfold noLater
  split
  · cases hv
  · rw [hv, hw]

/-- Integers, truth values and characters are ordered by their numbers. -/
theorem ranked_integers {part : List Value} (hpart : ∀ v ∈ part, v.integer?.isSome = true) :
    Ranked part fun v => v.integer?.getD 0 := by
  have hnum : ∀ v ∈ part, ∃ n, v.number? = some (.int n) ∧ v.orderKey = .number (.int n) ∧
      SmallCpp.orderKey v = pure v.orderKey := by
    intro v hv
    obtain ⟨n, hn⟩ := Value.exists_integer (hpart v hv)
    have hkey : v.orderKey = .number (.int n) := by
      unfold Value.orderKey
      split
      · cases hn
      · rw [hn]
        rfl
    refine ⟨n, hn, hkey, ?_⟩
    rw [hkey]
    unfold SmallCpp.orderKey
    split
    · cases hn
    · rw [Value.number_of_number? hn]
      rfl
  refine ⟨fun v hv => ?_, fun v hv w hw => ?_⟩
  · obtain ⟨n, -, hkey, hrun⟩ := hnum v hv
    exact ⟨hrun, by rw [hkey]; rfl⟩
  · obtain ⟨m, hm, hkey, -⟩ := hnum v hv
    obtain ⟨n, hn, hkey', -⟩ := hnum w hw
    rw [Value.noLater_of_number? hm hn, hkey, hkey', Value.integer?, Value.integer?, hm, hn]
    refine ⟨congrArg some ?_, rfl⟩
    rw [Bool.eq_iff_iff, beq_iff_eq, decide_eq_true_iff, ← compare_lt_iff_lt]
    exact Option.some_inj

/-! ### Vectors -/

section Vectors

variable [LinearOrder κ] {h : Heap} {loc : Nat} {element : Option TypeExpr} {items : Array Value}
  {a b : Int}

/-- Sorting a range puts a merge sort of it in its place. -/
theorem sortRange_eq (hloc : h.objects[loc]? = some (.vector element items))
    (hpart : Ranked (slice a b items.toList) key) :
    sortRange (.iterator loc a) (.iterator loc b) h =
      .ok .null (h.updateVector loc fun _ => (replaceSlice a b
        ((slice a b items.toList).mergeSort fun v w => key v ≤ key w) items.toList).toArray) := by
  have hrange : rangeOf "sort" (.iterator loc a) (.iterator loc b) h = .ok (loc, a, b) h := by
    rw [rangeOf, beq_self_eq_true, if_pos rfl]
    rfl
  refine (bind_of_ok hrange).trans ((bind_of_ok (getVector_of_object hloc)).trans ?_)
  dsimp only
  have hkeys : ((slice a b items.toList).map fun v => (v.orderKey, v)).map Prod.fst =
      (slice a b items.toList).map Value.orderKey := by
    rw [List.map_map]
    rfl
  rw [hpart.mapM_orderKey, pure_bind, hkeys, hpart.mixedKeys_eq, hpart.sortByKey_eq]
  rfl

/-- What has become of the elements of a vector after a range was sorted. -/
structure SortedRange (items : List Value) (a b : Int) (sorted : List Value) : Prop where
  perm : sorted.Perm items
  /-- The elements around the range stay where they are. -/
  around : ∀ i : Nat, i < clampIndex items.length a ∨ clampIndex items.length b ≤ i →
    sorted[i]? = items[i]?
  ordered : (slice a b sorted).Pairwise fun v w => v.noLater w = true
  /-- Elements with one key stay in their order. -/
  stable : ∀ w ∈ slice a b items, (slice a b sorted).filter w.sameRank =
    (slice a b items).filter w.sameRank

theorem Ranked.sortedRange {items : List Value} (hpart : Ranked (slice a b items) key) :
    SortedRange items a b
      (replaceSlice a b ((slice a b items).mergeSort fun v w => key v ≤ key w) items) := by
  have htrans : ∀ u v w : Value, decide (key u ≤ key v) = true → decide (key v ≤ key w) = true →
      decide (key u ≤ key w) = true := by
    intro u v w huv hvw
    exact decide_eq_true (le_trans (of_decide_eq_true huv) (of_decide_eq_true hvw))
  have htotal : ∀ v w : Value, (decide (key v ≤ key w) || decide (key w ≤ key v)) = true := by
    intro v w
    simpa using le_total (key v) (key w)
  have hperm := List.mergeSort_perm (slice a b items) fun v w => key v ≤ key w
  refine ⟨replaceSlice_perm hperm, fun i hi => getElem?_replaceSlice hperm hi, ?_, fun w hw => ?_⟩
  · rw [slice_replaceSlice hperm]
    refine (List.pairwise_mergeSort htrans htotal _).imp_of_mem fun {v w} hv hw hle => ?_
    exact (hpart.compared v (hperm.mem_iff.mp hv) w (hperm.mem_iff.mp hw)).2.trans hle
  · rw [slice_replaceSlice hperm]
    refine filter_mergeSort htrans htotal fun u hu v hv hpu hpv => ?_
    simp only [Value.sameRank, Bool.and_eq_true, (hpart.compared _ hw _ hu).2,
      (hpart.compared _ hu _ hw).2,
      (hpart.compared _ hw _ hv).2] at hpu hpv
    exact htrans u w v hpu.2 hpv.1

/-- **Sorting a range is stable.**  Of a vector of texts, or one of integers, truth values and
characters, the range between any two positions is sorted, whatever the positions are. -/
theorem sort_stable (hloc : h.objects[loc]? = some (.vector element items))
    (hkind : (∀ v ∈ items.toList, v.isText = true) ∨ ∀ v ∈ items.toList, v.integer?.isSome = true)
    (a b : Int) :
    ∃ sorted : List Value,
      callLibrary .sort [.iterator loc a, .iterator loc b] h =
        .ok .null (h.updateVector loc fun _ => sorted.toArray) ∧
        SortedRange items.toList a b sorted := by
  have hsub : ∀ v ∈ slice a b items.toList, v ∈ items.toList := fun v hv =>
    List.mem_of_mem_drop (List.mem_of_mem_take hv)
  rcases hkind with htexts | hints
  · have hpart := ranked_texts fun v hv => htexts v (hsub v hv)
    exact ⟨_, sortRange_eq hloc hpart, hpart.sortedRange⟩
  · have hpart := ranked_integers fun v hv => hints v (hsub v hv)
    exact ⟨_, sortRange_eq hloc hpart, hpart.sortedRange⟩

end Vectors

/-- The last four of five elements are sorted: `true` has the key of `1` and of the character of
code one, and comes behind `0` and before them. -/
theorem sort_stable_one :
    let items : Array Value := #[.int 9, .bool true, .int 0, .int 1, .char [1]]
    let h : Heap := { objects := #[.vector none items] }
    h.objects[0]? = some (.vector none items) ∧ (∀ v ∈ items.toList, v.integer?.isSome = true) ∧
      ∃ sorted : List Value,
        callLibrary .sort [.iterator 0 (-4), .iterator 0 7] h =
          .ok .null (h.updateVector 0 fun _ => sorted.toArray) ∧
          SortedRange items.toList (-4) 7 sorted := by
  intro items h
  have hints : ∀ v ∈ items.toList, v.integer?.isSome = true := by
    simp [items, Value.integer?, Value.number?]
  exact ⟨rfl, hints, sort_stable rfl (.inr hints) (-4) 7⟩

end SmallCpp
