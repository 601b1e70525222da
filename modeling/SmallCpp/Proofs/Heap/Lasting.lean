import SmallCpp.Proofs.Heap.Key

/-!
# Reading again

Reading by subscript may add a default to a map.  From then on the default is there: in this heap,
and in all that grow from it, the same read finds it and changes nothing.  So what has been read
stays what it is, however much else is read.  The only trace that an operator leaves is a new
non-number, and that is another one each time.

## Main results

* `lasting_mapGet` — **reading by subscript lasts**, with the default that it adds.
-/

namespace SmallCpp

variable {κ t : Option TypeExpr} {C : Custody} {c : Value}

/-- What the operation gives in the heap `h`, it gives again in every heap that has grown since, and
then it changes nothing; unless it has made a non-number. -/
structure Lasting (h : Heap) (op : HeapM Value) : Prop where
  again : ∀ {v k g}, op h = .ok v k → k.marks = h.marks → Grown k g → op g = .ok v g

section Lasting

variable {h : Heap} {loc : Nat} {v w key : Value}

/-! ### Operators -/

theorem Produces.lasting {P : Value → Prop} {op : HeapM Value} (hop : Produces P op) :
    Lasting h op := by
  refine ⟨fun {v k g} hrun hmarks _ => ?_⟩
  cases hop with
  | answer hop => exact (hop.again hrun).2 g
  | nan =>
    cases hrun
    exact absurd hmarks (Nat.succ_ne_self _)

theorem sameValue_of_hashable (hplain : unhashable? v = none ∨ unhashable? w = none) :
    sameValue v w = pure (samePlain v w) := by
  funext h
  show sameWithin h.room v w h = _
  unfold sameWithin
  split
  · exact hplain.elim nofun nofun
  · exact hplain.elim nofun nofun
  · exact hplain.elim nofun nofun
  · exact hplain.elim nofun nofun
  · rfl

/-- A comparison does not look at the heap, unless it is for the equality of two containers or
lists. -/
theorem Oblivious.compareValues {op : BinaryOp}
    (hplain : op = .eq ∨ op = .ne → unhashable? v = none ∨ unhashable? w = none) :
    Oblivious (compareValues op v w) := by
  have hsame : op = .eq ∨ op = .ne → Oblivious (sameValue v w) := by
    intro hop
    rw [sameValue_of_hashable (hplain hop)]
    exact .value trivial
  unfold SmallCpp.compareValues
  split
  · exact .value trivial
  · split
    · exact (orFail _).bind fun _ _ => (orFail _).bind fun _ _ => .value trivial
    · split
      · split
        · exact .value trivial
        · exact .failure _
      · split
        · exact hsame (.inl rfl)
        · exact (hsame (.inr rfl)).bind fun _ _ => .value trivial
        · exact .failure _

/-- The equality of two containers may change when one of them grows. -/
theorem lasting_applyBinary {op : BinaryOp}
    (hplain : op = .eq ∨ op = .ne → unhashable? v = none ∨ unhashable? w = none) :
    Lasting h (applyBinary op v w) := by
  cases hop : op.isComparison with
  | true =>
    unfold applyBinary
    rw [if_pos hop]
    have hans : Answers (fun _ => True) (do return Value.bool (← compareValues op v w)) :=
      (Oblivious.compareValues hplain).bind fun _ _ => .value trivial
    exact (Produces.answer hans).lasting
  | false =>
    exact (produces_arithmetic (P := fun _ => True) (fun _ => trivial) hop fun _ _ _ _ =>
      trivial).lasting

/-! ### Maps -/

/-- What a map holds under a key it still holds when it has grown. -/
theorem lookupKey_of_grown {g : Heap} (hg : Grown h g)
    (hv : lookupKey key (h.mapAt loc).2.2 = some v) :
    lookupKey key (g.mapAt loc).2.2 = some v := by
  cases ho : h.objects[loc]? with
  | none =>
    rw [Heap.mapAt, ho] at hv
    cases hv
  | some o =>
    cases o with
    | map κ t entries =>
      obtain ⟨added, ho', -⟩ := hg.map ho
      rw [Heap.mapAt, ho] at hv
      rw [Heap.mapAt, ho', lookupKey_append, hv, Option.some_or]
    | vector | pair =>
      rw [Heap.mapAt, ho] at hv
      cases hv

/-- Once a map is read by subscript, it holds the value under the key, also if that is a default
that the read has added. -/
theorem held_of_mapGet {index : Value} (hshape : h.shape? loc = some (.map κ t))
    (hrun : mapGet loc index h = .ok v k) : ∃ key entries, unhashable? key = none ∧
      (∀ g, coerceTo κ index g = .ok key g) ∧ k.objects[loc]? = some (.map κ t entries) ∧
      lookupKey key entries = some v := by
  obtain ⟨key, hkey, hcoerce, hread⟩ := mapGet_cases hrun
  obtain ⟨entries, ho, hat⟩ := Heap.map_of_shape hshape
  rw [hat] at hcoerce hread
  dsimp only at hcoerce hread
  rcases hread with ⟨hv, rfl⟩ | ⟨habs, h', hdef, rfl⟩
  · exact ⟨key, entries, hkey, hcoerce, ho, hv⟩
  · obtain ⟨hfresh, -⟩ := newborn_of_defaultValue hdef
    refine ⟨key, entries ++ [(key, v)], hkey, hcoerce, ?_, ?_⟩
    · rw [← storeEntry_of_absent habs, Heap.updateMap, Array.getElem?_modify, if_pos rfl,
        hfresh.object ho]
      rfl
    · rw [lookupKey_append, habs, Option.none_or, lookupKey, List.find?_cons, sameKey_self hkey]
      rfl

/-- **What is read by subscript is found again.** -/
theorem lasting_mapGet (hshape : h.shape? loc = some (.map κ t)) (index : Value) :
    Lasting h (mapGet loc index) := by
  refine ⟨fun {v k g} hrun _ hg => ?_⟩
  obtain ⟨key, entries, hkey, hcoerce, ho, hv⟩ := held_of_mapGet hshape hrun
  obtain ⟨added, ho', -⟩ := hg.map ho
  refine mapGet_of_lookupKey hkey (by rw [Heap.mapAt, ho']; exact hcoerce g)
    (lookupKey_of_grown hg ?_)
  rw [Heap.mapAt, ho]
  exact hv

/-! ### Elements and fields -/

theorem Grown.parts_eq {g : Heap} (hg : Grown h g) (hlt : loc < h.objects.size) :
    g.vectorAt loc = h.vectorAt loc ∧ g.pairAt loc = h.pairAt loc := by
  rw [Heap.vectorAt, Heap.vectorAt, Heap.pairAt, Heap.pairAt, Array.getElem?_eq_getElem hlt]
  cases ho : h.objects[loc] with
  | vector => rw [hg.vector (Array.getElem?_eq_some_iff.mpr ⟨hlt, ho⟩)]; trivial
  | map =>
    obtain ⟨added, ho', -⟩ := hg.map (Array.getElem?_eq_some_iff.mpr ⟨hlt, ho⟩)
    rw [ho']
    trivial
  | pair => rw [hg.pair (Array.getElem?_eq_some_iff.mpr ⟨hlt, ho⟩)]; trivial

theorem lasting_vectorGet (hlt : loc < h.objects.size) (index : Value) :
    Lasting h (vectorGet loc index) := by
  refine ⟨fun {v k g} hrun _ hg => ?_⟩
  obtain ⟨rfl, i, hidx, hv⟩ := vectorGet_eq_ok.mp hrun
  refine vectorGet_eq_ok.mpr ⟨rfl, i, ((Oblivious.asIndex index).again hidx).2 g, ?_⟩
  rw [(hg.parts_eq hlt).1]
  exact hv

theorem lasting_pairFieldValue (hlt : loc < h.objects.size) (field : PairField) :
    Lasting h (pairFieldValue loc field) := by
  refine ⟨fun {v k g} hrun _ hg => ?_⟩
  cases field with
  | first =>
    cases hrun
    show EStateM.Result.ok (g.pairAt loc).1 g = _
    rw [(hg.parts_eq hlt).2]
    rfl
  | second =>
    cases hrun
    show EStateM.Result.ok (g.pairAt loc).2.1 g = _
    rw [(hg.parts_eq hlt).2]
    rfl

theorem lasting_entryFieldValue (loc : Nat) (key : Value) (field : PairField) :
    Lasting h (entryFieldValue loc key field) := by
  refine ⟨fun {v k g} hrun _ hg => ?_⟩
  cases field with
  | first =>
    cases hrun
    rfl
  | second =>
    obtain ⟨hv, rfl⟩ := entryValue_eq_ok hrun
    rw [entryFieldValue, entryValue_eq, lookupKey_of_grown hg hv]
    rfl

theorem lasting_elementOf (hc : C.Val h c) (index : Value) : Lasting h (elementOf c index) := by
  unfold elementOf
  split
  · obtain ⟨e, hshape⟩ := hc.item.backs
    exact lasting_vectorGet (h.lt_of_shape hshape) index
  · obtain ⟨κ, t, hshape⟩ := hc.item.backs
    exact lasting_mapGet hshape index
  · have hans : ∀ s, Answers (fun _ => True) (do
        let i ← asIndex index
        return Value.char [← charAt "string[]" s i]) := fun s =>
      (Oblivious.asIndex index).bind fun i _ => (Oblivious.charAt _ s i).bind fun _ _ =>
      .value trivial
    split
    · exact (Produces.answer (hans _)).lasting
    · exact (Produces.failure (P := fun _ => True) _).lasting

theorem lasting_memberOf (hc : C.Val h c) (name : String) : Lasting h (memberOf c name) := by
  unfold memberOf
  split
  · obtain ⟨s, t, hshape⟩ := hc.item.backs
    exact lasting_pairFieldValue (h.lt_of_shape hshape) _
  · exact lasting_entryFieldValue _ _ _
  all_goals exact (Produces.failure (P := fun _ => True) _).lasting

end Lasting

end SmallCpp
