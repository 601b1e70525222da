import SmallCpp.Proofs.Heap.Key
import SmallCpp.Proofs.Heap.Reach

/-!
# Entries that reading adds

Reading an element of a map by subscript adds the key with a default if it is missing.  An operation
that only reads changes containers in no other way.  What it has read accounts for every entry that
was added: the key of the entry is a subscript, converted to the key type of the map, and its value
is an initial one.

## Main results

* `gained_mapGet` — **reading a map by subscript adds the entry of the subscript at most.**
-/

namespace SmallCpp

variable {h h' : Heap} {M : Nat → Value → Prop} {index : Value}

/-- The key is the subscript, converted to the key type. -/
def KeyOf (t : Option TypeExpr) (index key : Value) : Prop :=
  ∃ h h', coerceTo t index h = .ok key h'

/-- A container has stayed as it was, or is a map with new entries at its end, one after the other:
each for a subscript in `read` whose key was missing, with an initial value. -/
inductive Object.Gains (read : Value → Prop) (h' : Heap) (o : Object) : Object → Prop
  | same : Gains read h' o o
  | entry {k t : Option TypeExpr} {entries : List (Value × Value)} {index key v : Value}
      (h : Gains read h' o (.map k t entries)) (hidx : read index) (hkey : KeyOf k index key)
      (habs : lookupKey key entries = none) (hv : Initial h' t v) :
      Gains read h' o (.map k t (entries ++ [(key, v)]))

/-- The heap has changed only by new containers, new marks, and entries for the subscripts that `M`
allows. -/
structure Gained (M : Nat → Value → Prop) (h h' : Heap) : Prop where
  object : ∀ {loc : Nat} {o : Object}, h.objects[loc]? = some o →
    ∃ o', h'.objects[loc]? = some o' ∧ o.Gains (M loc) h' o'
  marks : h.marks ≤ h'.marks
  room : h'.room = h.room

namespace Object.Gains

variable {read : Value → Prop} {o o' o'' : Object}

theorem values_subset (hgains : o.Gains read h o') : o.values ⊆ o'.values := by
  induction hgains with
  | same => exact List.Subset.refl _
  | entry _ _ _ _ _ ih =>
    refine List.Subset.trans ih ?_
    rw [Object.values_map, Object.values_map, List.flatMap_append]
    exact List.subset_append_left _ _

theorem eq_or_map (hgains : o.Gains read h o') :
    o' = o ∨ ∃ k t entries added, o = .map k t entries ∧ o' = .map k t (entries ++ added) ∧
      ∀ e ∈ added, Initial h t e.2 := by
  induction hgains with
  | same => exact .inl rfl
  | @entry k t entries index key v _ _ _ _ hv ih =>
    right
    have hnew : ∀ e ∈ [(key, v)], Initial h t e.2 := List.forall_mem_singleton.mpr hv
    rcases ih with rfl | ⟨k', t', entries', added, rfl, heq, hadded⟩
    · exact ⟨k, t, entries, [(key, v)], rfl, rfl, hnew⟩
    · cases heq
      refine ⟨k, t, entries', added ++ [(key, v)], rfl, by rw [List.append_assoc], fun e he => ?_⟩
      exact (List.mem_append.mp he).elim (hadded e) (hnew e)

/-- The new entries stay initial if initial values do. -/
theorem imp (hgains : o.Gains read h o')
    (hinit : ∀ {t v}, v ∈ o'.values → Initial h t v → Initial h' t v) : o.Gains read h' o' := by
  induction hgains with
  | same => exact .same
  | entry _ hidx hkey habs hv ih =>
    refine .entry (ih fun hmem => hinit ?_) hidx hkey habs (hinit ?_ hv)
    · rw [Object.values_map] at hmem ⊢
      rw [List.flatMap_append]
      exact List.mem_append_left _ hmem
    · simp [Object.values_map]

theorem trans (hgains : o.Gains read h o') (hgains' : o'.Gains read h o'') :
    o.Gains read h o'' := by
  induction hgains' with
  | same => exact hgains
  | entry _ hidx hkey habs hv ih => exact .entry ih hidx hkey habs hv

end Object.Gains

namespace Gained

variable {h'' : Heap}

theorem of_fresh (hf : Fresh h h') : Gained M h h' :=
  ⟨fun ho => ⟨_, hf.object ho, .same⟩, hf.marks, hf.room⟩

theorem of_same (hs : Same (fun _ => False) h h') : Gained M h h' :=
  of_fresh hs.fresh

theorem refl (h : Heap) : Gained M h h :=
  of_same (.refl _ h)

theorem grown (hg : Gained M h h') : Grown h h' where
  vector ho := by
    obtain ⟨o', ho', hgains⟩ := hg.object ho
    rcases hgains.eq_or_map with rfl | ⟨k, t, entries, added, hmap, -⟩
    · exact ho'
    · cases hmap
  map ho := by
    obtain ⟨o', ho', hgains⟩ := hg.object ho
    rcases hgains.eq_or_map with rfl | ⟨k, t, entries, added, hmap, rfl, hadded⟩
    · exact ⟨[], by rw [List.append_nil]; exact ho', nofun⟩
    · cases hmap
      exact ⟨added, ho', hadded⟩
  pair ho := by
    obtain ⟨o', ho', hgains⟩ := hg.object ho
    rcases hgains.eq_or_map with rfl | ⟨k, t, entries, added, hmap, -⟩
    · exact ho'
    · cases hmap
  marks := hg.marks
  room := hg.room

theorem trans (hg : Gained M h h') (hg' : Gained M h' h'') : Gained M h h'' := by
  refine ⟨fun {loc o} ho => ?_, Nat.le_trans hg.marks hg'.marks, hg'.room.trans hg.room⟩
  obtain ⟨o', ho', hgains⟩ := hg.object ho
  obtain ⟨o'', ho'', hgains'⟩ := hg'.object ho'
  exact ⟨o'', ho'', (hgains.imp fun _ hv => hv.grown hg'.grown).trans hgains'⟩

theorem reach (hg : Gained M h h') {R : Nat → Prop} {loc : Nat} (hloc : h.Reach R loc) :
    h'.Reach R loc :=
  hloc.mono fun ho => (hg.object ho).imp fun _ h => ⟨h.1, h.2.values_subset⟩

theorem bind {α β : Type} {op : HeapM α} {f : α → HeapM β} (hop : Gained M h (heapAfter op h))
    (hf : ∀ {a h'}, op h = .ok a h' → Gained M h' (heapAfter (f a) h')) :
    Gained M h (heapAfter (op >>= f) h) := by
  cases hrun : op h with
  | ok a h' =>
    rw [heapAfter, bind_of_ok hrun]
    rw [heapAfter_of_ok hrun] at hop
    exact hop.trans (hf hrun)
  | error e h' =>
    rw [heapAfter_of_error hrun] at hop
    rwa [heapAfter_of_error (bind_of_error hrun)]

theorem of_moves {α : Type} {C : Custody} {k : Int} {vs : List Value} {post : α → List Value}
    {Q : Heap → α → Prop} {op : HeapM α} (hi : C.Inv k h vs)
    (hop : Moves C k (fun _ => False) h [] post Q op) : Gained M h (heapAfter op h) := by
  cases hrun : op h with
  | ok a h' =>
    rw [heapAfter_of_ok hrun]
    exact of_same (hop.ok hi hrun).1
  | error e h' =>
    rw [heapAfter_of_error hrun]
    exact of_same (hop.error hi hrun).1

end Gained

/-! ### Reading by subscript -/

section Subscript

variable {C : Custody} {k : Int} {vs : List Value} {loc : Nat}

/-- A missing key with a new default lets a map gain an entry. -/
theorem gained_mapStore {h₁ h₂ : Heap} {key v : Value} (hidx : M loc index)
    (hkey : ∀ {κ t entries}, h₁.objects[loc]? = some (.map κ t entries) → KeyOf κ index key)
    (habs : lookupKey key (h₁.mapAt loc).2.2 = none) (h12 : Fresh h₁ h₂)
    (hv : Newborn h₁ h₂ (h₁.mapAt loc).2.1 v) :
    Gained M h₁ (h₂.updateMap loc (storeEntry key v)) := by
  have hget : ∀ l, loc ≠ l → (h₂.updateMap loc (storeEntry key v)).objects[l]? = h₂.objects[l]? :=
    fun l hne => by rw [Heap.updateMap, Array.getElem?_modify, if_neg hne]
  refine ⟨fun {l o} ho => ?_, h12.marks, h12.room⟩
  by_cases hne : loc = l
  · subst hne
    have hlt : loc < h₁.objects.size := (Array.getElem?_eq_some_iff.mp ho).1
    rw [Heap.updateMap, Array.getElem?_modify, if_pos rfl, h12.object ho, Option.map_some]
    refine ⟨_, rfl, ?_⟩
    cases o with
    | map κ t entries =>
      rw [Heap.mapAt, ho] at habs hv
      dsimp only
      rw [storeEntry_of_absent habs]
      exact .entry .same hidx (hkey ho) habs (hv.initial_updateMap hlt _)
    | vector | pair => exact .same
  · exact ⟨o, by rw [hget l hne, h12.object ho], .same⟩

/-- **Reading a map by subscript adds the entry of the subscript at most.** -/
theorem gained_mapGet (hi : C.Inv k h vs) {κ t : Option TypeExpr}
    (hshape : h.shape? loc = some (.map κ t))
    (hidx : C.Item h index) (hM : M loc index) : Gained M h (heapAfter (mapGet loc index) h) := by
  have hlt := h.lt_of_shape hshape
  have hgives : Gives C k (fun _ => False) h _ (mapKey loc index) := gives_mapKey hshape hidx
  refine .bind (.of_moves hi hgives) fun {key h₁} hrun => ?_
  obtain ⟨h01, hi₁, -⟩ := hgives.ok hi hrun
  have hkey : ∀ {κ t entries}, h₁.objects[loc]? = some (.map κ t entries) → KeyOf κ index key := by
    intro κ t entries ho
    have hsame := h01.object (Array.getElem?_eq_getElem hlt) not_false
    have hkey := (mapKey_eq_ok hrun).1
    rw [Heap.mapAt, Array.getElem?_eq_getElem hlt, ← hsame, ho] at hkey
    exact ⟨_, _, hkey⟩
  have hfind : Gained M h₁ (heapAfter (mapFind? loc key) h₁) := .refl h₁
  refine hfind.bind fun {found h'} hfound => ?_
  cases hfound
  split
  · exact .refl h₁
  · next habs =>
    rw [heapAfter, bind_of_ok (show getMap loc h₁ = .ok (h₁.mapAt loc) h₁ from rfl)]
    cases hdef : defaultValue (h₁.mapAt loc).2.1 h₁ with
    | ok v h₂ =>
      obtain ⟨h12, hnew⟩ := newborn_of_defaultValue hdef
      rw [bind_of_ok hdef]
      exact gained_mapStore hM hkey habs h12 hnew
    | error e h₂ =>
      rw [bind_of_error hdef]
      exact .of_same ((makes_defaultValue _).error hi₁ hdef).1

/-- Reading by subscript adds entries to maps only. -/
theorem gained_elementOf (hi : C.Inv k h vs) {container : Value} (hc : C.Val h container)
    (hidx : C.Item h index)
    (hM : ∀ loc, container = .map loc → M loc index) :
    Gained M h (heapAfter (elementOf container index) h) := by
  by_cases hmap : ∃ loc, container = .map loc
  · obtain ⟨loc, rfl⟩ := hmap
    obtain ⟨κ, t, hshape⟩ := hc.item.backs
    exact gained_mapGet hi hshape hidx (hM loc rfl)
  · exact .of_moves hi (gives_elementOf hc hidx fun loc hloc => hmap ⟨loc, hloc⟩)

end Subscript

end SmallCpp
