import Mathlib.Data.List.Flatten
import SmallCpp.Machine.Exec
import SmallCpp.Proofs.Heap.CustodyConversion
import SmallCpp.Proofs.Sort.Range

/-!
# Calls and accesses keep custody

Whatever stores a value in a container makes it first, by a conversion, or moves it inside the
container.  What is read from a container may be used, and stays where it is.
-/

namespace SmallCpp

variable {first index key last v entry : Value} {operation : String} {args : List Value}
  {κ e t : Option TypeExpr} {i n : Nat} {h' : Heap}

variable {C : Custody} {k : Int} {T : Nat → Prop} {h : Heap} {loc : Nat}

/-! ### Vectors -/

section Vectors

/-- A checked index is the number of the value, and in range. -/
theorem checkIndex_eq_ok (hi : checkIndex operation loc index h = .ok i h') :
    i < (h.vectorAt loc).2.size ∧ asIndex index h = .ok (i : Int) h := by
  obtain ⟨n, h₁, hn, hrest⟩ := bind_eq_ok hi
  obtain rfl := (ReadOnly.asIndex index).ok hn
  have hrest : (if 0 ≤ n && n < (h₁.vectorAt loc).2.size then Pure.pure n.toNat
      else fail (.indexOutOfRange operation n "vector" (h₁.vectorAt loc).2.size) : HeapM Nat) h₁ =
    .ok i h' := hrest
  split at hrest
  · next hrange =>
    cases hrest
    simp only [Bool.and_eq_true, decide_eq_true_eq] at hrange
    rw [Int.toNat_of_nonneg hrange.1]
    exact ⟨by omega, hn⟩
  · cases hrest

theorem gives_itemAt (hloc : C.touch loc) (hi : i < (h.vectorAt loc).2.size) :
    Gives C k T h (fun h' v => C.Val h' v ∧ C.Kind (h.vectorAt loc).1 v) (itemAt loc i) := by
  refine Moves.assuming fun hc => .getVector (Gives.pure ?_)
  rw [Array.getD_eq_getD_getElem?, Array.getElem?_eq_getElem hi]
  obtain ⟨-, hval, hkind⟩ := (hc.vectorAt loc).2 _ (Array.getElem_mem hi)
  exact ⟨hval hloc, hkind⟩

theorem gives_checkedItem (hloc : C.touch loc) (operation : String) (index : Value) :
    Gives C k T h (fun h' v => C.Val h' v ∧ C.Kind (h.vectorAt loc).1 v)
      (checkIndex operation loc index >>= fun i => itemAt loc i) :=
  (ReadOnly.checkIndex operation loc index).then fun _ hi =>
    gives_itemAt hloc (checkIndex_eq_ok hi).1

theorem gives_outerItem (hloc : C.touch loc) (operation : String) {index : Nat → Nat}
    (hidx : ∀ n, 0 < n → index n < n) : Gives C k T h C.Val (outerItem operation loc index) := by
  refine .getVector ?_
  dsimp only
  split
  · exact .fail _
  · next hne =>
    have hpos := Nat.pos_of_ne_zero fun h0 => hne (beq_iff_eq.mpr h0)
    exact (gives_itemAt hloc (hidx _ hpos)).imp fun _ _ _ hv => hv.1

theorem set_subperm {α : Type} (xs : List α) (i : Nat) (a : α) :
    (xs.set i a).Subperm (xs ++ [a]) := by
  induction xs generalizing i with
  | nil => exact (List.nil_sublist _).subperm
  | cons x xs ih =>
    cases i with
    | zero =>
      have hperm : (a :: xs).Perm (xs ++ [a]) := (List.perm_append_singleton a xs).symm
      exact hperm.subperm.trans (List.sublist_cons_self x _).subperm
    | succ i => exact (List.subperm_cons x).mpr (ih i)

theorem moves_vectorSet (hT : T loc) (hloc : C.touch loc) (index : Value)
    (hv : C.Own (h.vectorAt loc).1 h v) :
    Moves C k T h [v] (fun _ => []) (fun _ _ => True) (vectorSet loc index v) := by
  refine (ReadOnly.checkIndex _ loc index).then fun i _ => ?_
  have hset := moves_updateVector (C := C) (k := k) (T := T) (h := h)
    (f := fun items => items.set! i v) hT hloc (List.forall_mem_singleton.mpr hv)
    (by simpa using set_subperm _ i v) fun hc => by simpa using (hc.vectorAt loc).1
  exact hset.weaken fun _ _ _ _ => ⟨.refl _, trivial⟩

theorem moves_pushItem (hT : T loc) (hloc : C.touch loc) (hv : C.Own (h.vectorAt loc).1 h v)
    (hfit : C.Closed k h → C.fit k ((h.vectorAt loc).2.size + 1)) :
    Moves C k T h [v] (fun _ => [])
    (fun h' _ => (h'.vectorAt loc).2.size ≤ (h.vectorAt loc).2.size + 1)
      (updateVector loc fun items => items.push v) := by
  have hpush := moves_updateVector (C := C) (k := k) (T := T) (h := h)
    (f := fun items => items.push v) hT hloc (List.forall_mem_singleton.mpr hv)
    (by simpa using List.Subperm.refl _) fun hc => by simpa using hfit hc
  exact hpush.weaken fun _ _ _ hsize => ⟨.refl _, by simpa using hsize⟩

/-- Items may be left out, and the others put in another order. -/
theorem gives_keepItems (hT : T loc) (hloc : C.touch loc) {f : Array Value → Array Value}
    (hf : (f (h.vectorAt loc).2).toList.Subperm (h.vectorAt loc).2.toList) :
    Gives C k T h (fun h' _ => (h'.vectorAt loc).2.size ≤ (f (h.vectorAt loc).2).size)
      (updateVector loc f) := by
  refine moves_updateVector hT hloc (List.forall_mem_nil _) ?_ fun hc => ?_
  · rwa [List.append_nil]
  · exact C.fit_le (by simpa using hf.length_le) (hc.vectorAt loc).1

theorem Same.vectorAt (hs : Same T h h') (hT : ¬T loc) (hlt : loc < h.objects.size) :
    h'.vectorAt loc = h.vectorAt loc := by
  rw [Heap.vectorAt, Heap.vectorAt, Array.getElem?_eq_getElem hlt,
    hs.object (Array.getElem?_eq_getElem hlt) hT]

/-- Converted copies of a value are added at the end, if the vector may have so many elements. -/
theorem gives_appendCopies (hT : T loc) (hloc : C.touch loc) {fill : Value} (n : Nat) :
    ∀ {h : Heap}, C.Item h fill → h.shape? loc = some (.vector e) →
    C.fit k ((h.vectorAt loc).2.size + n) →
      Gives C k T h (fun _ _ => True) (appendCopies loc e fill n) := by
  induction n with
  | zero => exact fun _ _ _ => Gives.pure trivial
  | succ n ih =>
    intro h hfill hshape hfit
    -- the conversion leaves the vector as it is
    have hmade : Moves C k T h [] (fun v => [v])
        (fun h' v => C.Own e h' v ∧ (h'.vectorAt loc).2.size = (h.vectorAt loc).2.size ∧ Kept h h')
        (coerceTo e fill) := by
      refine Moves.mono (T := fun _ => False) ?_ False.elim
      refine (makes_coerceTo e h fill hfill).weaken fun v h' hsame hv =>
        ⟨.refl _, hv, ?_, hsame.kept⟩
      rw [hsame.vectorAt not_false (h.lt_of_shape hshape)]
    refine Moves.bind (r := []) hmade fun v h₁ _ hv => ?_
    obtain ⟨hown, hsize, h01⟩ := hv
    have hown : C.Own (h₁.vectorAt loc).1 h₁ v := by rwa [Heap.vectorAt_of_shape (h01.shape hshape)]
    refine Moves.bind (r := []) (moves_pushItem hT hloc hown fun _ => ?_) fun _ h₂ h12 hpushed => ?_
    · exact C.fit_le (by omega) hfit
    · have h02 := h01.trans h12.kept
      exact ih (hfill.kept h02) (h02.shape hshape) (C.fit_le (by omega) hfit)

theorem gives_resizeVector (hT : T loc) (hloc : C.touch loc)
    (hshape : h.shape? loc = some (.vector e))
    {count value : Value} (hv : C.Item h value)
    (hfit : ∀ h' n, asIndex count h' = .ok n h' → C.fit k n.toNat) :
    Gives C k T h C.Val (resizeVector loc count value) := by
  have hrest : ∀ {h' : Heap} (n : Nat) (fill : Value), h'.shape? loc = some (.vector e) →
      C.Item h' fill → C.fit k n → Gives C k T h' C.Val
        (updateVector loc (fun items => items.take n) >>= fun _ =>
          appendCopies loc e fill (n - (h'.vectorAt loc).2.size) >>= fun _ =>
          Pure.pure Value.null) := by
    intro h' n fill hshape' hfill hn
    have htake : ((h'.vectorAt loc).2.take n).toList.Subperm (h'.vectorAt loc).2.toList := by
      simpa using (List.take_sublist n _).subperm
    refine .given (gives_keepItems hT hloc htake) fun _ h₁ h01 hsize => ?_
    -- what is kept and what is added make `n` items at most
    have hfit₁ : C.fit k ((h₁.vectorAt loc).2.size + (n - (h'.vectorAt loc).2.size)) := by
      refine C.fit_le ?_ hn
      have hsize : (h₁.vectorAt loc).2.size ≤ min n (h'.vectorAt loc).2.size := by simpa using hsize
      omega
    refine .given (gives_appendCopies hT hloc _ (hfill.kept h01.kept) (h01.kept.shape hshape')
      hfit₁) ?_
    exact fun _ _ _ _ => Gives.pure (.of_isSimple rfl)
  refine (ReadOnly.asIndex count).then fun n hn => ?_
  have hn := hfit h n hn
  dsimp only
  split
  · exact .throw_bind _
  · refine .getVector ?_
    rw [Heap.vectorAt_of_shape hshape]
    split
    -- without a value the default is appended, and making it spares the vector
    · have hdef : Moves C k T h [] (fun v => [v])
          (fun h' v => C.Own e h' v ∧ h'.vectorAt loc = h.vectorAt loc ∧ Kept h h')
          (defaultValue e) := by
        refine Moves.mono (T := fun _ => False) ?_ False.elim
        refine (makes_defaultValue _).weaken fun v h' hsame hv => ⟨.refl _, hv, ?_, hsame.kept⟩
        exact hsame.vectorAt not_false (h.lt_of_shape hshape)
      refine Moves.bind (r := []) hdef fun fill h₁ _ hfill => ?_
      obtain ⟨hown, hat, h01⟩ := hfill
      refine Moves.cover ?_ (.nil _)
      rw [← hat]
      exact hrest _ fill (h01.shape hshape) hown.item hn
    · exact hrest _ value hshape hv hn

theorem gives_callVector (method : VectorMethod) (hT : T loc) (hpoint : C.point loc)
    (hshape : h.shape? loc = some (.vector e)) (hargs : ∀ v ∈ args, C.Item h v)
    (hpush : method = .pushBack → ∀ n, C.fit k n → C.fit k (n + 1))
    (hfill : method = .resize ∨ method = .assign → ∀ count ∈ args.head?, ∀ h' n,
      asIndex count h' = .ok n h' → C.fit k n.toNat) :
    Gives C k T h C.Val (callVector method loc args) := by
  have hloc := C.point_touch hpoint
  have hnull : ∀ {h : Heap}, Gives C k T h C.Val (Pure.pure Value.null) :=
    Gives.pure (.of_isSimple rfl)
  have hiterator : ∀ i, C.Val h (.iterator loc i) := fun i =>
    Custody.Bare.val ⟨.iterator hpoint ⟨e, hshape⟩, rfl⟩
  unfold callVector
  split
  · -- `push_back`: the conversion may change no vector, so there is still room for one element
    refine .getVector (.made (makes_coerceTo _ h _ (hargs _ (by simp))) fun v h₁ h01 hv => ?_)
    rw [Heap.vectorAt_of_shape hshape, ← Heap.vectorAt_of_shape (h01.kept.shape hshape)] at hv
    refine Moves.bind (r := []) (moves_pushItem hT hloc hv fun hc => ?_) fun _ _ _ _ => hnull
    exact hpush rfl _ (hc.vectorAt loc).1
  · refine .getVector ?_
    dsimp only
    split
    · exact .throw_bind _
    · refine .given (gives_keepItems hT hloc ?_) fun _ _ _ _ => hnull
      simpa using (List.dropLast_sublist _).subperm
  · exact (gives_checkedItem hloc _ _).imp fun _ _ _ hv => hv.1
  · exact .getVector (Gives.pure (.of_isSimple rfl))
  · exact .getVector (Gives.pure (.of_isSimple rfl))
  · refine .given (gives_keepItems hT hloc ?_) fun _ _ _ _ => hnull
    exact (List.nil_sublist _).subperm
  · exact gives_outerItem hloc _ fun _ hn => hn
  · exact gives_outerItem hloc _ fun _ hn => by omega
  · exact gives_resizeVector hT hloc hshape (.of_isSimple rfl) (hfill (.inl rfl) _ rfl)
  · exact gives_resizeVector hT hloc hshape (hargs _ (by simp)) (hfill (.inl rfl) _ rfl)
  -- `assign` clears the vector and then resizes it
  · refine .given (gives_keepItems hT hloc ?_) fun _ h₁ h01 _ => ?_
    · exact (List.nil_sublist _).subperm
    · exact gives_resizeVector hT hloc (h01.kept.shape hshape) ((hargs _ (by simp)).kept h01.kept)
        (hfill (.inr rfl) _ rfl)
  · exact Gives.pure (hiterator 0)
  · exact .getVector (Gives.pure (hiterator _))
  · exact .failOperands _

end Vectors

/-! ### Maps -/

section Maps

theorem storeEntry_of_absent {entries : List (Value × Value)}
    (habs : lookupKey key entries = none) :
    storeEntry key v entries = entries ++ [(key, v)] := by
  induction entries with
  | nil => rfl
  | cons e entries ih =>
    rw [lookupKey, Option.map_eq_none_iff, List.find?_cons] at habs
    split at habs
    · cases habs
    · next hne =>
      rw [storeEntry, if_neg (by simp [hne]), ih (by rw [lookupKey, habs]; rfl), List.cons_append]

/-- A converted key may be stored, and is no container. -/
theorem gives_mapKey (hshape : h.shape? loc = some (.map κ t)) (hkey : C.Item h key) :
    Gives C k T h (fun h' key' => unhashable? key' = none ∧ C.Own κ h' key') (mapKey loc key) := by
  refine .getMap ?_
  rw [(Heap.mapAt_of_shape hshape).1]
  refine .made (makes_coerceTo κ h key hkey) fun key' h₁ _ hkey' => ?_
  exact (ReadOnly.checkKey key').then fun _ hchk =>
    .pure (.nil _) ⟨hashable_of_checkKey hchk, hkey'⟩

theorem moves_mapStore (hT : T loc) (hloc : C.touch loc) (hshape : h.shape? loc = some (.map κ t))
    (hhash : unhashable? key = none) (hkey : C.Own κ h key) (hv : C.Own t h v) :
    Moves C k T h [v] (fun _ => []) (fun _ _ => True) (mapStore loc key v) := by
  have hloose := container?_of_hashable hhash
  have hown : ∀ w ∈ [key, v], C.Own none h w := by
    intro w hw
    rcases List.mem_cons.mp hw with rfl | hw
    · exact hkey.any
    · exact List.mem_singleton.mp hw ▸ hv.any
  have hstore := moves_updateMap (C := C) (k := k) (T := T) (h := h) (f := storeEntry key v) hT hloc
    hown (subperm_storeEntry key v _) fun hc => by
      rw [(Heap.mapAt_of_shape hshape).1, (Heap.mapAt_of_shape hshape).2]
      refine forall_mem_storeEntry (P := fun e => unhashable? e.1 = none ∧ C.Kind κ e.1 ∧
        C.Kind t e.2)
        ⟨hhash, hkey.kind, hv.kind⟩ (fun _ he => ⟨he.1, he.2.1, hv.kind⟩) fun e he => ?_
      obtain ⟨hhash, -, -, hkinds⟩ := hc.mapAt loc e he
      rw [(Heap.mapAt_of_shape hshape).1, (Heap.mapAt_of_shape hshape).2] at hkinds
      exact ⟨hhash, hkinds⟩
  refine hstore.cover fun l => ?_
  rw [uses_cons l key, uses_loose hloose]
  omega

theorem gives_mapGet (hT : T loc) (hloc : C.touch loc) (hshape : h.shape? loc = some (.map κ t))
    (hkey : C.Item h key) :
    Gives C k T h (fun h' v => C.Val h' v ∧ C.Kind t v) (mapGet loc key) := by
  refine .given (gives_mapKey hshape hkey) fun key' h₁ h01 hkey' => Moves.assuming fun hc =>
    .mapFind? ?_
  have hshape₁ := h01.kept.shape hshape
  split
  · next v hv =>
    have hval := hc.lookup hloc hv
    rw [(Heap.mapAt_of_shape hshape₁).2] at hval
    exact Gives.pure hval
  · refine .getMap ?_
    rw [(Heap.mapAt_of_shape hshape₁).2]
    refine .made (makes_defaultValue t) fun v h₂ h12 hv => ?_
    have hstore := moves_mapStore (k := k) hT hloc (h12.kept.shape hshape₁) hkey'.1
      (hkey'.2.kept h12.kept) hv
    exact Moves.bind (r := []) hstore fun _ h₃ h23 _ => Gives.pure ⟨hv.val.kept h23.kept, hv.kind⟩

theorem moves_mapSet (hT : T loc) (hloc : C.touch loc) (hshape : h.shape? loc = some (.map κ t))
    (hkey : C.Item h key) (hv : C.Own t h v) :
    Moves C k T h [v] (fun _ => []) (fun _ _ => True) (mapSet loc key v) :=
  .given (gives_mapKey hshape hkey) fun _ _ h01 hkey' =>
    moves_mapStore hT hloc (h01.kept.shape hshape) hkey'.1 hkey'.2 (hv.kept h01.kept)

/-- The key and the value that an insertion is given may be copied. -/
theorem gives_insertedEntry (hv : C.Item h entry) :
    Gives C k T h (fun h' p => C.Item h' p.1 ∧ C.Item h' p.2) (insertedEntry entry) := by
  unfold insertedEntry
  split
  · next loc =>
    exact Moves.assuming fun hc => .getPair (Gives.pure ((hc.pairAt loc).1 (hv.look rfl)))
  · refine .given (gives_twoValues hv) fun p h₁ _ hp => ?_
    refine .made (remakes_copyValue h₁ p.1 hp.1) fun first h₂ h12 hfirst => ?_
    refine .made (remakes_copyValue h₂ p.2 (hp.2.kept h12.kept)) fun second h₃ h23 hsecond => ?_
    exact .pure (.nil _) ⟨hfirst.item.kept h23.kept, hsecond.item⟩
  · exact .fail _

theorem gives_mapInsert (hT : T loc) (hloc : C.touch loc) (hshape : h.shape? loc = some (.map κ t))
    (hv : C.Item h entry) : Gives C k T h C.Val (mapInsert loc entry) := by
  refine .given (gives_insertedEntry hv) fun p h₁ h01 hp => ?_
  refine .given (gives_mapKey (h01.kept.shape hshape) hp.1) fun key h₂ h12 hkey => .mapFind? ?_
  have hshape₂ := (h01.trans h12).kept.shape hshape
  split
  · exact Gives.pure (.of_isSimple rfl)
  · refine .getMap ?_
    rw [(Heap.mapAt_of_shape hshape₂).2]
    refine .made (makes_coerceTo t h₂ _ (hp.2.kept h12.kept)) fun v h₃ h23 hv => ?_
    have hstore := moves_mapStore (k := k) hT hloc (h23.kept.shape hshape₂) hkey.1
      (hkey.2.kept h23.kept) hv
    exact Moves.bind (r := []) hstore fun _ _ _ _ => Gives.pure (.of_isSimple rfl)

theorem gives_keepEntries (hT : T loc) (hloc : C.touch loc)
    {f : List (Value × Value) → List (Value × Value)}
    (hf : (f (h.mapAt loc).2.2).Sublist (h.mapAt loc).2.2) :
    Gives C k T h (fun _ _ => True) (updateMap loc f) := by
  refine moves_updateMap hT hloc (List.forall_mem_nil _) ?_ fun hc e he => ?_
  · rw [List.append_nil]
    exact (hf.flatMap _).subperm
  · obtain ⟨hhash, -, -, hkinds⟩ := hc.mapAt loc e (hf.subset he)
    exact ⟨hhash, hkinds⟩

theorem gives_mapErase (hT : T loc) (hloc : C.touch loc) (hshape : h.shape? loc = some (.map κ t))
    (hkey : C.Item h key) : Gives C k T h C.Val (mapErase loc key) := by
  refine .given (gives_mapKey hshape hkey) fun key' h₁ _ _ => .mapFind? ?_
  split
  · refine .given (gives_keepEntries hT hloc List.filter_sublist) fun _ _ _ _ => ?_
    exact Gives.pure (.of_isSimple rfl)
  · exact Gives.pure (.of_isSimple rfl)

theorem gives_callMap (method : MapMethod) (hT : T loc) (hpoint : C.point loc)
    (hshape : h.shape? loc = some (.map κ t)) (hargs : ∀ v ∈ args, C.Item h v) :
    Gives C k T h C.Val (callMap method loc args) := by
  have hloc := C.point_touch hpoint
  unfold callMap
  split
  · exact gives_mapInsert hT hloc hshape (hargs _ (by simp))
  · refine .given (gives_mapKey hshape (hargs _ (by simp))) fun key h₁ h01 hkey => .mapFind? ?_
    split
    · refine .given gives_newMark fun _ h₂ h12 _ => Gives.pure (Custody.Bare.val ⟨?_, rfl⟩)
      exact .entry hpoint ((h01.trans h12).kept.shape hshape) (hkey.2.item.kept h12.kept) hkey.1
        hkey.2.kind
    · exact Gives.pure (Custody.Bare.val (.plain rfl trivial))
  · refine .given (gives_mapKey hshape (hargs _ (by simp))) fun key h₁ _ _ => .mapFind? ?_
    exact Gives.pure (.of_isSimple rfl)
  · exact gives_mapErase hT hloc hshape (hargs _ (by simp))
  · exact .getMap (Gives.pure (.of_isSimple rfl))
  · exact .getMap (Gives.pure (.of_isSimple rfl))
  · refine .given (gives_keepEntries hT hloc (List.nil_sublist _)) fun _ _ _ _ => ?_
    exact Gives.pure (.of_isSimple rfl)
  · exact Gives.pure (Custody.Bare.val (.plain rfl trivial))
  · exact .failOperands _

end Maps

/-! ### Library functions -/

section Library

theorem ReadOnly.rangeOf (name : String) (first last : Value) :
    ReadOnly (rangeOf name first last) := by
  unfold SmallCpp.rangeOf
  split
  · exact (ReadOnly.getVector _).bind fun _ => ReadOnly.pure _
  · split
    · exact ReadOnly.pure _
    · exact ReadOnly.fail _
  · exact ReadOnly.fail _

theorem sortByKey_perm (keyed : List (OrderKey × Value)) :
    (sortByKey keyed).Perm (keyed.map Prod.snd) := by
  rw [sortByKey]
  dsimp only
  split
  · exact (Sort.sortBy_perm _ keyed).map Prod.snd
  · exact (List.mergeSort_perm keyed _).map Prod.snd

theorem touch_of_rangeOf {name : String} {range : Nat × Int × Int} (hfirst : C.Val h first)
    (hr : rangeOf name first last h = .ok range h) : C.touch range.1 := by
  unfold rangeOf at hr
  split at hr
  · cases hr
    exact hfirst.touch rfl
  · split at hr
    · cases hr
      exact C.point_touch (hfirst.item.of_iterator 0).1
    · cases hr
  · cases hr

theorem gives_replaceRange (hT : T loc) (hloc : C.touch loc) {start stop : Int} {part : List Value}
    (hpart : part.Perm (slice start stop (h.vectorAt loc).2.toList)) :
    Gives C k T h C.Val
      (updateVector loc (fun _ => (replaceSlice start stop part (h.vectorAt loc).2.toList).toArray)
        >>= fun _ => Pure.pure Value.null) := by
  refine .given (gives_keepItems hT hloc ?_) fun _ _ _ _ => Gives.pure (.of_isSimple rfl)
  exact (replaceSlice_perm hpart).subperm

theorem gives_keyed (items : List Value) :
    Gives C k T h (fun h' keyed => h' = h ∧ keyed.map Prod.snd = items)
      (items.mapM fun v => do return (← orderKey v, v)) := by
  induction items with
  | nil =>
    rw [List.mapM_nil]
    exact Gives.pure ⟨rfl, rfl⟩
  | cons v items ih =>
    rw [List.mapM_cons]
    have hkey : Gives C k T h (fun h' p => h' = h ∧ p.2 = v)
        (orderKey v >>= fun key => Pure.pure (key, v)) :=
      (ReadOnly.orderKey v).then fun key _ => Gives.pure ⟨rfl, rfl⟩
    refine .given hkey ?_
    rintro p _ _ ⟨rfl, hp⟩
    refine .given ih ?_
    rintro keyed _ _ ⟨rfl, hkeyed⟩
    exact Gives.pure ⟨rfl, by rw [List.map_cons, hp, hkeyed]⟩

theorem gives_sortRange (hfirst : C.Val h first) :
    Gives C k C.touch h C.Val (sortRange first last) := by
  refine (ReadOnly.rangeOf _ first last).then fun range hrange => .getVector ?_
  have hloc := touch_of_rangeOf hfirst hrange
  refine .given (gives_keyed _) ?_
  rintro keyed _ _ ⟨rfl, hkeyed⟩
  dsimp only
  split
  · exact .throw_bind _
  · refine gives_replaceRange hloc hloc ?_
    rw [← hkeyed]
    exact sortByKey_perm keyed

theorem gives_reverseRange (hfirst : C.Val h first) :
    Gives C k C.touch h C.Val (reverseRange first last) := by
  refine (ReadOnly.rangeOf _ first last).then fun range hrange => .getVector ?_
  have hloc := touch_of_rangeOf hfirst hrange
  exact gives_replaceRange hloc hloc (List.reverse_perm _)

theorem gives_callLibrary (f : LibraryFunction) (hargs : ∀ v ∈ args, C.Val h v) :
    Gives C k C.touch h C.Val (callLibrary f args) := by
  have hsimple : ∀ {v : Value}, v.isSimple = true → C.Bare h v := .of_isSimple
  have hval : ∀ {op : HeapM Value}, Produces (C.Bare h) op → Gives C k C.touch h C.Val op :=
    fun hop => hop.bare.imp fun _ _ _ hv => hv.val
  unfold callLibrary
  split
  · exact gives_sortRange (hargs _ (by simp))
  · exact gives_sortRange (hargs _ (by simp))
  · exact gives_reverseRange (hargs _ (by simp))
  · exact gives_reverseRange (hargs _ (by simp))
  · next a b =>
    refine (ReadOnly.orderKey a).then fun k _ => (ReadOnly.orderKey b).then fun l _ => ?_
    refine (ReadOnly.before k l).then fun r _ => Gives.pure ?_
    split
    · exact hargs _ (by simp)
    · exact hargs _ (by simp)
  · next a b =>
    refine (ReadOnly.orderKey b).then fun l _ => (ReadOnly.orderKey a).then fun k _ => ?_
    refine (ReadOnly.before l k).then fun r _ => Gives.pure ?_
    split
    · exact hargs _ (by simp)
    · exact hargs _ (by simp)
  · next a b =>
    exact (makes_pairOf (u := none) remakes_copyValue remakes_copyValue (hargs a (by simp)).item
      (hargs b (by simp)).item fun _ => Custody.kind_none).gives
  · exact (ReadOnly.orFail _).then fun n _ => hval (.answer (answers_decimalText hsimple n))
  · exact (ReadOnly.readArgument _ _ _).then fun _ _ => Gives.pure (.of_isSimple rfl)
  · exact (ReadOnly.readArgument _ _ _).then fun _ _ => hval (produces_newReal hsimple _)
  · exact (ReadOnly.orFail _).then fun n _ => hval (produces_absolute hsimple n)
  · exact (ReadOnly.orFail _).then fun n _ => hval (.answer (answers_squareRoot hsimple n))
  · exact (ReadOnly.orFail _).then fun m _ => (ReadOnly.orFail _).then fun n _ =>
      hval (produces_power hsimple m n)
  · exact (ReadOnly.orFail _).then fun n _ => hval (.answer (answers_roundWith hsimple _ n))
  · exact (ReadOnly.orFail _).then fun n _ => hval (.answer (answers_roundWith hsimple _ n))
  · exact .failOperands _

end Library

/-! ### Texts -/

section Texts

theorem gives_callText (s : CodeText) (name : String) (args : List Value) :
    Gives C k T h C.Bare (callText s name args) := by
  unfold callText
  split
  · exact Gives.pure (.of_isSimple rfl)
  · exact Gives.pure (.of_isSimple rfl)
  · exact Gives.pure (.of_isSimple rfl)
  · refine (ReadOnly.indexArgument _ _).then fun i _ => ?_
    exact (ReadOnly.charAt _ _ _).then fun c _ => Gives.pure (.of_isSimple rfl)
  · exact (answers_substring (fun _ => .of_isSimple rfl) s args).bare
  · refine (ReadOnly.argument _ _).then fun v _ => ?_
    exact (ReadOnly.plainText _).then fun _ _ => Gives.pure (.of_isSimple rfl)
  · exact .fail _

def Value.isTextual (v : Value) : Prop :=
  v.asText? ≠ none

theorem Custody.Bare.of_isTextual (hv : v.isTextual) : C.Bare h v := by
  cases v with
  | char | text => exact .of_isSimple rfl
  | _ => exact absurd rfl hv

theorem Custody.kind_of_isTextual (hv : v.isTextual) : C.Kind (some { base := .char }) v := by
  cases v with
  | char | text => exact ⟨rfl, fun _ => rfl⟩
  | _ => exact absurd rfl hv

theorem plainNumber?_of_isTextual (hv : v.isTextual) : plainNumber? v = none := by
  cases v with
  | char | text => rfl
  | _ => exact absurd rfl hv

theorem gives_characterAt (v : Value) (index : Int) :
    Gives C k T h (fun _ w => w.isTextual) (characterAt v index) := by
  refine (ReadOnly.checkCharacter v index).then fun i _ => ?_
  split
  · exact (ReadOnly.plainText _).then fun s _ => Gives.pure (Option.some_ne_none _)
  · split
    · exact Gives.pure (Option.some_ne_none _)
    · exact .failOperands _

/-- A text is added to a text, or moves a position: this fills what the first value filled. -/
theorem gives_plainSum {a b : Value} (ha : C.Item h a) (hb : b.isTextual) :
    Gives C k T h (fun h' w => C.Bare h' w ∧ a.Fills w ∧ (a.isTextual → w.isTextual))
    (plainSum a b) := by
  unfold plainSum
  split
  · refine (ReadOnly.offsetOf _).then fun n _ => ?_
    refine Gives.pure ⟨⟨(ha.of_iterator _).2, rfl⟩, ?_, fun h => absurd rfl h⟩
    exact Value.fills_of_base fun base => by cases base <;> exact ⟨id, id⟩
  · exact absurd rfl hb
  · exact .failOperands _
  · split
    · next ha' hb' =>
      exact Gives.pure ⟨.of_isSimple rfl, Value.fills_text (by rw [ha']; exact nofun) _,
        fun _ => nofun⟩
    · exact .failOperands _
    · split
      · next hm hn => exact absurd (plainNumber?_of_isTextual hb) (by simp [hn])
      · exact .failOperands _

/-- Only a text has its characters replaced, by texts: it stays what its location may hold. -/
theorem gives_withCharacter {new : Value} (index : Int) (hnew : new.isTextual) :
    Gives C k T h (fun _ w => v.Fills w ∧ w.isTextual) (withCharacter v index new) := by
  have hsum : ∀ {a b : Value} {h : Heap}, a.isTextual → b.isTextual →
      Gives C k T h (fun _ w => a.Fills w ∧ w.isTextual) (plainSum a b) := fun ha hb =>
    Gives.imp (gives_plainSum (Custody.Bare.of_isTextual ha).item hb) fun _ _ _ hw =>
    ⟨hw.2.1, hw.2.2 ha⟩
  refine (ReadOnly.checkCharacter v index).then fun i _ => ?_
  split
  · cases new with
    | char | text => exact .failOperands _
    | _ => exact absurd rfl hnew
  · split
    · next s hs =>
      have hfills : v.Fills (.text (s.take i)) := Value.fills_text (by simp [hs]) _
      refine .given (hsum (Option.some_ne_none _) hnew) fun w h₁ _ hw =>
        Gives.imp (hsum hw.2 ?_) fun _ _ _ hw' => ?_
      · exact Option.some_ne_none _
      · exact ⟨hfills.trans (hw.1.trans hw'.1), hw'.2⟩
    · exact .failOperands _

theorem gives_withoutLast (hv : C.Item h v) :
    Gives C k T h (fun h' w => C.Bare h' w ∧ v.Fills w ∧ (v.isTextual → w.isTextual))
    (withoutLast v) := by
  refine (ReadOnly.isVacant v).then fun vacant _ => ?_
  dsimp only
  split
  · exact .throw_bind _
  · split
    · next items _ =>
      have hsublist := List.dropLast_sublist items
      refine Gives.pure ⟨⟨.list (C.short_le hsublist.length_le hv.short) fun w hw =>
        hv.items w (hsublist.subset hw), rfl⟩,
        ?_, fun h => absurd rfl h⟩
      exact Value.fills_of_base fun base => by cases base <;> exact ⟨id, id⟩
    · split
      · next s hs =>
          exact Gives.pure ⟨.of_isSimple rfl, Value.fills_text (by simp [hs]) _,
            fun _ => Option.some_ne_none _⟩
      · exact .failOperands _

end Texts

/-! ### Elements, fields, arrays and results -/

section Access

theorem gives_pairFieldValue (hloc : C.touch loc) (field : PairField) :
    Gives C k T h (fun h' v => C.Val h' v ∧
      C.Kind (if field == .first then (h.pairAt loc).2.2.1 else (h.pairAt loc).2.2.2) v)
      (pairFieldValue loc field) := by
  refine Moves.assuming fun hc => .getPair (Gives.pure ?_)
  obtain ⟨-, hval, hfirst, hsecond⟩ := hc.pairAt loc
  cases field with
  | first => exact ⟨(hval hloc).1, hfirst⟩
  | second => exact ⟨(hval hloc).2, hsecond⟩

theorem gives_entryFieldValue (hloc : C.touch loc) (hkey : C.Item h key)
    (hhash : unhashable? key = none)
    (hkind : C.Kind (h.mapAt loc).1 key) (field : PairField) :
    Gives C k T h (fun h' v => C.Val h' v ∧
      C.Kind (if field == .first then (h.mapAt loc).1 else (h.mapAt loc).2.1) v)
      (entryFieldValue loc key field) := by
  cases field with
  | first => exact Gives.pure ⟨Custody.Bare.val ⟨hkey, container?_of_hashable hhash⟩, hkind⟩
  | second => exact gives_entryValue hloc key

theorem gives_elementOf {container : Value} (hc : C.Val h container) (hi : C.Item h index)
    (hT : ∀ loc, container = .map loc → T loc) :
    Gives C k T h C.Val (elementOf container index) := by
  unfold elementOf
  split
  · exact (gives_checkedItem (hc.touch rfl) _ _).imp fun _ _ _ hv => hv.1
  · next loc =>
    obtain ⟨κ, t, hshape⟩ := hc.item.backs
    exact (gives_mapGet (hT loc rfl) (hc.touch rfl) hshape hi).imp fun _ _ _ hv => hv.1
  · split
    · refine (ReadOnly.asIndex _).then fun i _ => ?_
      exact (ReadOnly.charAt _ _ _).then fun c _ => Gives.pure (.of_isSimple rfl)
    · exact .fail _

theorem gives_memberOf {owner : Value} (name : String) (hv : C.Val h owner) :
    Gives C k T h C.Val (memberOf owner name) := by
  unfold memberOf
  split
  · exact (gives_pairFieldValue (hv.touch rfl) _).imp fun _ _ _ hv => hv.1
  · obtain ⟨hmap, hkey, hhash, κ, t, hshape, hkind⟩ := hv.item.of_entry
    rw [← (Heap.mapAt_of_shape hshape).1] at hkind
    exact (gives_entryFieldValue (C.point_touch hmap) hkey hhash hkind _).imp fun _ _ _ hv => hv.1
  all_goals exact .fail _

theorem moves_defaultItems (t : TypeExpr) (n : Nat) :
    ∀ {h items}, (∀ v ∈ items, C.Own (some t) h v) →
      Moves C k T h items.toList Array.toList
        (fun h' vs => vs.size = items.size + n ∧ ∀ v ∈ vs, C.Own (some t) h' v)
        (defaultItems t n items) := by
  induction n with
  | zero => exact fun hitems => .pure (.refl _) ⟨rfl, hitems⟩
  | succ n ih =>
    intro h items hitems
    refine .made (makes_defaultOf t h) fun v h₁ h01 hv => ?_
    have hpush : ∀ w ∈ items.push v, C.Own (some t) h₁ w := fun w hw =>
      (Array.mem_push.mp hw).elim (fun hw => (hitems w hw).kept h01.kept) fun heq => heq ▸ hv
    refine ((ih hpush).cover fun l => ?_).weaken fun vs _ _ hvs => ⟨.refl _, ?_, hvs.2⟩
    · rw [Array.toList_push, uses_append, uses_cons l v items.toList]
      omega
    · rw [hvs.1, Array.size_push]
      omega

theorem makes_filledVector {t : TypeExpr} {items : HeapM (Array Value)}
    (hitems : Moves C k T h [] Array.toList
      (fun h vs => vs.size = n ∧ ∀ v ∈ vs, C.Own (some t) h v) items)
    (hfit : C.fit k n) :
    Makes C k T h (some (.of .vector [t])) (items >>= fun items => newVector (some t) items) := by
  refine Moves.bind (r := []) hitems fun vs h _ hvs => ?_
  rw [List.append_nil]
  exact moves_newVector hvs.2 (fun _ => hvs.1 ▸ hfit) fun _ => Custody.kind_of_base ⟨rfl, rfl⟩

/-- The items of an array are new, and as many as they should be. -/
theorem moves_arrayItems (t : TypeExpr) {elements : List Value} (hlen : elements.length ≤ n)
    (helements : ∀ v ∈ elements, C.Item h v) :
    Moves C k T h [] Array.toList (fun h' vs => vs.size = n ∧ ∀ v ∈ vs, C.Own (some t) h' v)
      (arrayItems t n elements) := by
  have hmade := Makes.mapM fun v hv h' (hs : Same T h h') =>
    makes_coerce (C := C) (k := k) (T := T) t h' v ((helements v hv).kept hs.kept)
  refine Moves.bind (r := []) hmade fun ws h₁ _ hws => ?_
  rw [List.append_nil]
  have hown : ∀ w ∈ ws.toArray, C.Own (some t) h₁ w := fun w hw => hws.2 w (List.mem_toArray.mp hw)
  refine (moves_defaultItems t (n - ws.length) hown).weaken fun vs _ _ hvs => ⟨.refl _, ?_, hvs.2⟩
  rw [hvs.1, List.size_toArray, hws.1]
  omega

theorem gives_resultOf (t : TypeExpr) (hv : C.Item h v) : Gives C k T h C.Val (resultOf t v) := by
  unfold resultOf
  split
  · exact Gives.pure (.of_isSimple rfl)
  · split
    · exact (makes_defaultOf t h).gives
    · exact (makes_coerce t h v hv).gives

end Access

end SmallCpp
