import Mathlib.Data.List.Perm.Subperm
import SmallCpp.Proofs.Heap.Growth
import SmallCpp.Proofs.Heap.ReadOnly

/-!
# Custody of containers

A container that is stored is copied first, so no container is held by two locations: what a
location holds is its own.  The values that an operation has made but not stored yet are held by
nobody, so they count like locations: they are values at hand.  An operation makes values, which are
then at hand, or stores values that were at hand.

Beside this, a part of a program may be confined to some of the containers.  It keeps to them,
because a container inside a container that it may use is one that it may use, and because all new
containers are its own.  Brace lists are the exception: they hold what stands between the braces
without a copy, but nothing that is inside a list can be used before it has been copied.

Values are converted to the recorded type of a location before they are stored there, so locations
hold what their recorded types admit.  There is one way around this, so it is a part of custody only
for the programs that do not go it.
-/

namespace SmallCpp

variable {key v w : Value} {t s e u : Option TypeExpr} {f : Object → Object} {o : Object}
  {loc : Nat} {vs ws : List Value} {h h' : Heap} {op : HeapM Value} {γ α β : Type}
  {entries : List (Value × Value)} {C D : Custody} {T T' : Nat → Prop} {k : Int} {a : α}
  {post' : β → List Value} {Q' : Heap → β → Prop}

/-! ### Containers in values -/

/-- The container that a value is, if it is one. -/
def Value.container? : Value → Option Nat
  | .vector loc | .map loc | .pair loc => some loc
  | _ => none

/-- A value without containers, positions and items. -/
def Value.isPlain : Value → Bool
  | .null | .bool _ | .int _ | .real _ | .nan _ | .char _ | .text _ | .mapEnd _ => true
  | _ => false

theorem Value.isPlain_of_isSimple (hv : v.isSimple = true) : v.isPlain = true := by
  cases v <;> first | rfl | cases hv

theorem Heap.backs_of_isSimple (h : Heap) (hv : v.isSimple = true) : h.Backs v := by
  cases v with
  | nan | vector | map | pair | iterator => cases hv
  | _ => trivial

theorem Value.container?_of_isPlain (hv : v.isPlain = true) : v.container? = none := by
  cases v <;> first | rfl | cases hv

theorem Heap.Backs.lt (hv : h.Backs v) (hloc : v.container? = some loc) : loc < h.objects.size := by
  cases v with
  | vector =>
    obtain ⟨e, hσ⟩ := hv
    exact Option.some.inj hloc ▸ Heap.lt_of_shape hσ
  | map | pair =>
    obtain ⟨s, t, hσ⟩ := hv
    exact Option.some.inj hloc ▸ Heap.lt_of_shape hσ
  | _ => cases hloc

theorem container?_of_hashable (hv : unhashable? v = none) : v.container? = none := by
  cases v <;> first | rfl | cases hv

def Object.values (o : Object) : List Value :=
  o.locations.map Prod.snd

@[simp] theorem Object.values_vector (e : Option TypeExpr) (items : Array Value) :
    (Object.vector e items).values = items.toList := by
  simp [values, locations, Function.comp_def]

@[simp] theorem Object.values_map (k t : Option TypeExpr) (entries : List (Value × Value)) :
    (Object.map k t entries).values = entries.flatMap fun e => [e.1, e.2] := by
  simp [values, locations, List.map_flatMap]

@[simp] theorem Object.values_pair (a b : Value) (s t : Option TypeExpr) :
    (Object.pair a b s t).values = [a, b] :=
  rfl

/-- The values inside the containers of a heap. -/
def Heap.values (h : Heap) : List Value :=
  h.objects.toList.flatMap Object.values

/-- How many of the values are the container. -/
def uses (loc : Nat) (vs : List Value) : Nat :=
  vs.countP fun v => v.container? == some loc

@[simp] theorem uses_nil (loc : Nat) : uses loc [] = 0 :=
  rfl

@[simp] theorem uses_append (loc : Nat) (vs ws : List Value) :
    uses loc (vs ++ ws) = uses loc vs + uses loc ws :=
  List.countP_append

theorem uses_cons (loc : Nat) (v : Value) (vs : List Value) :
    uses loc (v :: vs) = uses loc [v] + uses loc vs :=
  uses_append loc [v] vs

theorem uses_loose (hv : v.container? = none) (loc : Nat) : uses loc [v] = 0 := by
  simp [uses, hv]

theorem uses_pos (hv : v ∈ vs) (hloc : v.container? = some loc) : 0 < uses loc vs :=
  List.countP_pos_iff.mpr ⟨v, hv, by simp [hloc]⟩

theorem uses_le_of_subperm (h : vs.Subperm ws) (loc : Nat) : uses loc vs ≤ uses loc ws :=
  h.countP_le _

theorem Heap.values_push (h : Heap) (o : Object) : (h.push o).values = h.values ++ o.values := by
  simp [Heap.values, Heap.push]

theorem exists_of_lookupKey (hv : lookupKey key entries = some v) :
    ∃ e ∈ entries, sameKey e.1 key = true ∧ e.2 = v := by
  obtain ⟨e, he, rfl⟩ := Option.map_eq_some_iff.mp hv
  exact ⟨e, List.mem_of_find?_eq_some he, by simpa using List.find?_some he, rfl⟩

/-- What the values of containers count for when one of the containers changes. -/
theorem uses_modify (loc : Nat) (os : List Object) :
    ∀ i, os[i]? = some o → uses loc ((os.modify i f).flatMap Object.values) + uses loc o.values =
      uses loc (os.flatMap Object.values) + uses loc (f o).values := by
  induction os with
  | nil => exact fun _ h => nomatch h
  | cons head os ih =>
    intro i hi
    cases i with
    | zero =>
      obtain rfl := Option.some.inj hi
      rw [List.modify_zero_cons, List.flatMap_cons, List.flatMap_cons, uses_append, uses_append]
      omega
    | succ i =>
      have htail := ih i (by simpa using hi)
      rw [List.modify_succ_cons, List.flatMap_cons, List.flatMap_cons, uses_append, uses_append]
      omega

/-- The containers among the second values are among the first ones, as often. -/
def Covers (vs ws : List Value) : Prop :=
  ∀ loc, uses loc ws ≤ uses loc vs

theorem Covers.refl (vs : List Value) : Covers vs vs :=
  fun _ => Nat.le_refl _

theorem Covers.nil (vs : List Value) : Covers vs [] :=
  fun _ => Nat.zero_le _

/-! ### Custody -/

/-- What a part of a program may do: the containers and variables that it may use, how many items
its lists and how many elements its vectors may have, whether it keeps to recorded types, and which
pairs stay where they are. -/
structure Custody where
  look : Nat → Prop
  /-- The containers that a position may be in. -/
  point : Nat → Prop
  /-- The containers that may be read and changed. -/
  touch : Nat → Prop
  keep : Nat → Prop
  /-- The variables that may be read and changed. -/
  touchCell : Nat → Prop
  /-- The variables that hold only containers that may be stored. -/
  keepCell : Nat → Prop
  /-- The numbers of items that a list may have. -/
  short : Nat → Prop
  /-- The numbers of elements that a vector may have after some steps. -/
  fit : Int → Nat → Prop
  /-- Locations hold what their recorded types admit. -/
  typed : Prop := False
  /-- The variables of pair types that are to keep the pairs that they hold. -/
  held : Nat → Prop := fun _ => False
  /-- The names that may be assigned to. -/
  assigned : String → Prop := fun _ => True
  /-- The names that may be declared as references. -/
  frees : String → Prop := fun _ => True
  touch_look : ∀ {loc}, touch loc → look loc
  point_touch : ∀ {loc}, point loc → touch loc
  keep_touch : ∀ {loc}, keep loc → touch loc
  keepCell_touchCell : ∀ {i}, keepCell i → touchCell i
  short_le : ∀ {m n}, m ≤ n → short n → short m
  short_fit : ∀ {k n}, (∀ k n, fit k n) ∨ 0 ≤ k → short n → fit k n
  fit_le : ∀ {k m n}, m ≤ n → fit k n → fit k m
  fit_grow : ∀ {k n} (d : Nat), (∀ k n, fit k n) ∨ 0 ≤ k → fit k n → fit (k + d) (n + d)
  fit_zero : ∀ {k}, (∀ k n, fit k n) ∨ 0 ≤ k → fit k 0
  frees_held : ∀ {name i}, frees name → assigned name → ¬held i := by exact fun _ _ => id

namespace Custody

/-- Everything may be used and stored, and sizes do not matter. -/
def everything : Custody where
  look _ := True
  point _ := True
  touch _ := True
  keep _ := True
  touchCell _ := True
  keepCell _ := True
  short _ := True
  fit _ _ := True
  touch_look := id
  point_touch := id
  keep_touch := id
  keepCell_touchCell := id
  short_le _ := id
  short_fit _ _ := trivial
  fit_le _ := id
  fit_grow _ _ := id
  fit_zero _ := trivial

/-- The value is of the kind that the recorded type names or a text, and not a text instead if this
matters. -/
def Kind (C : Custody) (t : Option TypeExpr) (v : Value) : Prop :=
  tolerates t v = true ∧ (C.typed → admits t v = true)

theorem kind_none : C.Kind none v :=
  ⟨rfl, fun _ => rfl⟩

theorem Kind.mono (hkind : C.Kind t v) (htyped : D.typed → C.typed) : D.Kind t v :=
  ⟨hkind.1, fun h => hkind.2 (htyped h)⟩

theorem Kind.fills (hkind : C.Kind t v) (hw : v.Fills w) : C.Kind t w :=
  ⟨(hw t).2 hkind.1, fun h => (hw t).1 (hkind.2 h)⟩

/-- A value that may be copied, with containers that exist.  It may be inside a list. -/
inductive Item (C : Custody) (h : Heap) : Value → Prop
  | plain {v : Value} (hv : v.isPlain = true) (hback : h.Backs v) : C.Item h v
  | container {v : Value} {loc : Nat} (hv : v.container? = some loc) (hloc : C.look loc)
      (hback : h.Backs v) : C.Item h v
  | list {vs : List Value} (hlen : C.short vs.length) (hvs : ∀ v ∈ vs, C.Item h v) :
      C.Item h (.list vs)
  | iterator {loc : Nat} {i : Int} (hloc : C.point loc) (hback : h.Backs (.iterator loc i)) :
      C.Item h (.iterator loc i)
  | entry {map mark : Nat} {key : Value} {k t : Option TypeExpr} (hmap : C.point map)
      (hshape : h.shape? map = some (.map k t)) (hkey : C.Item h key)
      (hhash : unhashable? key = none)
      (hkind : C.Kind k key) : C.Item h (.entry map key mark)

/-- A value that may be used. -/
structure Val (C : Custody) (h : Heap) (v : Value) : Prop where
  item : C.Item h v
  touch : ∀ {loc}, v.container? = some loc → C.touch loc

/-- A value that may be stored in a location with the recorded type. -/
structure Own (C : Custody) (t : Option TypeExpr) (h : Heap) (v : Value) : Prop where
  item : C.Item h v
  keep : ∀ {loc}, v.container? = some loc → C.keep loc
  kind : C.Kind t v

/-- A value that may be copied and is no container. -/
structure Bare (C : Custody) (h : Heap) (v : Value) : Prop where
  item : C.Item h v
  loose : v.container? = none

theorem Own.val (hv : C.Own t h v) : C.Val h v :=
  ⟨hv.item, fun hloc => C.keep_touch (hv.keep hloc)⟩

theorem Own.as (hv : C.Own s h v) (hkind : C.Kind t v) : C.Own t h v :=
  ⟨hv.item, hv.keep, hkind⟩

theorem Own.any (hv : C.Own t h v) : C.Own none h v :=
  hv.as kind_none

theorem Bare.own (hv : C.Bare h v) (hkind : C.Kind t v) : C.Own t h v :=
  ⟨hv.item, fun hloc => (nomatch hv.loose.symm.trans hloc), hkind⟩

theorem Bare.val (hv : C.Bare h v) : C.Val h v :=
  (hv.own kind_none : C.Own none h v).val

theorem Bare.plain (hv : v.isPlain = true) (hback : h.Backs v) : C.Bare h v :=
  ⟨.plain hv hback, Value.container?_of_isPlain hv⟩

theorem Bare.of_isSimple (hv : v.isSimple = true) : C.Bare h v :=
  .plain (Value.isPlain_of_isSimple hv) (h.backs_of_isSimple hv)

theorem Item.of_isSimple (hv : v.isSimple = true) : C.Item h v :=
  (Bare.of_isSimple hv).item

theorem Val.of_isSimple (hv : v.isSimple = true) : C.Val h v :=
  (Bare.of_isSimple hv).val

theorem Item.backs (hv : C.Item h v) : h.Backs v := by
  cases hv with
  | plain _ hback => exact hback
  | container _ _ hback => exact hback
  | iterator _ hback => exact hback
  | list | entry => trivial

theorem Item.look (hv : C.Item h v) (hloc : v.container? = some loc) : C.look loc := by
  cases hv with
  | plain hp => cases (Value.container?_of_isPlain hp).symm.trans hloc
  | container hv' hlook => exact Option.some.inj (hv'.symm.trans hloc) ▸ hlook
  | list | iterator | entry => cases hloc

theorem Item.short (hv : C.Item h (.list vs)) : C.short vs.length := by
  cases hv with
  | plain hp => cases hp
  | container hc => cases hc
  | list hlen => exact hlen

theorem Item.items (hv : C.Item h (.list vs)) : ∀ v ∈ vs, C.Item h v := by
  cases hv with
  | plain hp => cases hp
  | container hc => cases hc
  | list _ hvs => exact hvs

theorem Item.of_iterator {i : Int} (hv : C.Item h (.iterator loc i)) (j : Int) :
    C.point loc ∧ C.Item h (.iterator loc j) := by
  cases hv with
  | plain hp => cases hp
  | container hc => cases hc
  | iterator hloc hback => exact ⟨hloc, .iterator hloc hback⟩

theorem Item.of_entry {map mark : Nat} (hv : C.Item h (.entry map key mark)) :
    C.point map ∧ C.Item h key ∧ unhashable? key = none ∧
      ∃ k t, h.shape? map = some (.map k t) ∧ C.Kind k key := by
  cases hv with
  | plain hp => cases hp
  | container hc => cases hc
  | entry hmap hshape hkey hhash hkind => exact ⟨hmap, hkey, hhash, _, _, hshape, hkind⟩

theorem Item.mono (hv : C.Item h v) (hk : Kept h h')
    (hlook : ∀ {loc}, C.look loc → D.look loc) (hpoint : ∀ {loc}, C.point loc → D.point loc)
    (hshort : ∀ {n}, C.short n → D.short n) (htyped : D.typed → C.typed) : D.Item h' v := by
  induction hv with
  | plain hp hback => exact .plain hp (hback.kept hk)
  | container hc hloc hback => exact .container hc (hlook hloc) (hback.kept hk)
  | list hlen _ ih => exact .list (hshort hlen) ih
  | iterator hloc hback => exact .iterator (hpoint hloc) (hback.kept hk)
  | entry hmap hshape _ hhash hkind ih =>
    exact .entry (hpoint hmap) (hk.shape hshape) ih hhash (hkind.mono htyped)

theorem Item.kept (hv : C.Item h v) (hk : Kept h h') : C.Item h' v :=
  hv.mono hk id id id id

theorem Val.kept (hv : C.Val h v) (hk : Kept h h') : C.Val h' v :=
  ⟨hv.item.kept hk, hv.touch⟩

theorem Own.kept (hv : C.Own t h v) (hk : Kept h h') : C.Own t h' v :=
  ⟨hv.item.kept hk, hv.keep, hv.kind⟩

end Custody

/-! ### The invariant -/

/-- A vector has no more elements than it may have, and the keys of a map are no containers. -/
def Object.Bounded (C : Custody) (k : Int) : Object → Prop
  | .vector _ items => C.fit k items.size
  | .map _ _ entries => ∀ e ∈ entries, unhashable? e.1 = none
  | .pair _ _ _ _ => True

/-- A container is as large as it may be and holds what its recorded types admit. -/
structure Object.Fits (C : Custody) (k : Int) (o : Object) : Prop where
  bounded : o.Bounded C k
  kinds : ∀ l ∈ o.locations, C.Kind l.1 l.2

namespace Custody

/-- The containers hold only what is allowed. -/
structure Closed (C : Custody) (k : Int) (h : Heap) : Prop where
  look : ∀ {loc : Nat} {o : Object}, h.objects[loc]? = some o → C.look loc → ∀ v ∈ o.values,
    C.Item h v
  touch : ∀ {loc : Nat} {o : Object}, h.objects[loc]? = some o → C.touch loc → ∀ v ∈ o.values,
    C.Val h v
  keep : ∀ {loc : Nat} {o : Object}, h.objects[loc]? = some o → C.keep loc → ∀ v ∈ o.values,
    C.Own none h v
  fits : ∀ {loc : Nat} {o : Object}, h.objects[loc]? = some o → o.Fits C k
  fresh : ∀ {loc}, h.objects.size ≤ loc → C.keep loc
  valid : ∀ loc, 0 < uses loc h.values → loc < h.objects.size
  steps : (∀ k n, C.fit k n) ∨ 0 ≤ k

/-- Every container is held once, in the heap or at hand, and holds only what is allowed. -/
structure Inv (C : Custody) (k : Int) (h : Heap) (vs : List Value) : Prop extends C.Closed k h where
  single : ∀ loc, uses loc h.values + uses loc vs ≤ 1
  held : ∀ loc, 0 < uses loc vs → loc < h.objects.size

theorem Inv.lt_of_uses (hi : C.Inv k h vs) (hpos : 0 < uses loc h.values + uses loc vs) :
    loc < h.objects.size := by
  by_cases hzero : uses loc vs = 0
  · exact hi.valid loc (by omega)
  · exact hi.held loc (by omega)

theorem Inv.cover (hi : C.Inv k h vs) (hc : Covers vs ws) : C.Inv k h ws where
  toClosed := hi.toClosed
  single loc := Nat.le_trans (Nat.add_le_add_left (hc loc) _) (hi.single loc)
  held loc hpos := hi.held loc (Nat.lt_of_lt_of_le hpos (hc loc))

/-- Another custody tolerates too, if its containers are closed and vectors may have any size. -/
theorem Inv.transfer {k' : Int} (hi : C.Inv k h vs) (hfit : ∀ k n, D.fit k n)
    (htyped : D.typed → C.typed)
    (hfresh : ∀ {loc}, h.objects.size ≤ loc → D.keep loc)
    (hlook : ∀ {loc : Nat} {o : Object}, h.objects[loc]? = some o → D.look loc → ∀ v ∈ o.values,
      D.Item h v)
    (htouch : ∀ {loc : Nat} {o : Object}, h.objects[loc]? = some o → D.touch loc →
      ∀ v ∈ o.values, ∀ {l}, v.container? = some l → D.touch l)
    (hkeep : ∀ {loc : Nat} {o : Object}, h.objects[loc]? = some o → D.keep loc →
      ∀ v ∈ o.values, ∀ {l}, v.container? = some l → D.keep l) : D.Inv k' h vs where
  look := hlook
  touch ho hloc v hv := ⟨hlook ho (D.touch_look hloc) v hv, htouch ho hloc v hv⟩
  keep ho hloc v hv :=
    ⟨hlook ho (D.touch_look (D.keep_touch hloc)) v hv, hkeep ho hloc v hv, kind_none⟩
  fits {_ o} ho := by
    refine ⟨?_, fun l hl => ((hi.fits ho).kinds l hl).mono htyped⟩
    cases o with
    | vector e items => exact hfit k' items.size
    | map => exact (hi.fits ho).bounded
    | pair => trivial
  fresh := hfresh
  valid := hi.valid
  steps := .inl hfit
  single := hi.single
  held := hi.held

theorem Inv.congr (hi : C.Inv k h vs) (ho : h'.objects = h.objects) (hmarks : h.marks ≤ h'.marks)
    (hroom : h'.room = h.room) : C.Inv k h' vs := by
  have hvals : h'.values = h.values := by rw [Heap.values, Heap.values, ho]
  have hk : Kept h h' := ⟨fun hσ => by rwa [Heap.shape?, ho], hmarks, hroom⟩
  constructor
  · constructor
    · exact fun hloc hl v hv => (hi.look (ho ▸ hloc) hl v hv).kept hk
    · exact fun hloc hl v hv => (hi.touch (ho ▸ hloc) hl v hv).kept hk
    · exact fun hloc hl v hv => (hi.keep (ho ▸ hloc) hl v hv).kept hk
    · exact fun hloc => hi.fits (ho ▸ hloc)
    · exact fun hloc => hi.fresh (ho ▸ hloc)
    · exact fun loc hpos => ho ▸ hi.valid loc (hvals ▸ hpos)
    · exact hi.steps
  · exact fun loc => hvals ▸ hi.single loc
  · exact fun loc hpos => ho ▸ hi.held loc hpos

theorem Closed.vectorAt (hc : C.Closed k h) (loc : Nat) :
    C.fit k (h.vectorAt loc).2.size ∧ ∀ v ∈ (h.vectorAt loc).2,
      (C.look loc → C.Item h v) ∧ (C.touch loc → C.Val h v) ∧ C.Kind (h.vectorAt loc).1 v := by
  rw [Heap.vectorAt]
  split
  · next e items ho =>
    refine ⟨(hc.fits ho).bounded,
      fun v hv => ⟨fun hloc => hc.look ho hloc v ?_, fun hloc => hc.touch ho hloc v ?_,
      (hc.fits ho).kinds (e, v) (List.mem_map_of_mem (Array.mem_toList_iff.mpr hv))⟩⟩
    · simpa using hv
    · simpa using hv
  · exact ⟨C.fit_zero hc.steps, by simp⟩

theorem Closed.mapAt (hc : C.Closed k h) (loc : Nat) :
    ∀ e ∈ (h.mapAt loc).2.2, unhashable? e.1 = none ∧ (C.look loc → C.Item h e.1 ∧ C.Item h e.2) ∧
      (C.touch loc → C.Val h e.1 ∧ C.Val h e.2) ∧ C.Kind (h.mapAt loc).1 e.1 ∧
      C.Kind (h.mapAt loc).2.1 e.2 := by
  rw [Heap.mapAt]
  split
  · next s t entries ho =>
    intro e he
    have hkey : ∀ v ∈ [e.1, e.2], v ∈ (Object.map s t entries).values := fun v hv => by
      rw [Object.values_map]
      exact List.mem_flatMap.mpr ⟨e, he, hv⟩
    have hkinds : ∀ l ∈ [(s, e.1), (t, e.2)], C.Kind l.1 l.2 := fun l hl =>
      (hc.fits ho).kinds l (List.mem_flatMap.mpr ⟨e, he, hl⟩)
    refine ⟨(hc.fits ho).bounded e he, fun hloc => ?_, fun hloc => ?_, hkinds (s, e.1) (by simp),
      hkinds (t, e.2) (by simp)⟩
    · exact ⟨hc.look ho hloc _ (hkey _ (by simp)), hc.look ho hloc _ (hkey _ (by simp))⟩
    · exact ⟨hc.touch ho hloc _ (hkey _ (by simp)), hc.touch ho hloc _ (hkey _ (by simp))⟩
  · exact List.forall_mem_nil _

theorem Closed.pairAt (hc : C.Closed k h) (loc : Nat) :
    (C.look loc → C.Item h (h.pairAt loc).1 ∧ C.Item h (h.pairAt loc).2.1) ∧
      (C.touch loc → C.Val h (h.pairAt loc).1 ∧ C.Val h (h.pairAt loc).2.1) ∧
      C.Kind (h.pairAt loc).2.2.1 (h.pairAt loc).1 ∧
      C.Kind (h.pairAt loc).2.2.2 (h.pairAt loc).2.1 := by
  rw [Heap.pairAt]
  split
  · next a b s t ho =>
    refine ⟨fun hloc => ?_, fun hloc => ?_, (hc.fits ho).kinds (s, a) (by simp [Object.locations]),
      (hc.fits ho).kinds (t, b) (by simp [Object.locations])⟩
    · exact ⟨hc.look ho hloc _ (by simp), hc.look ho hloc _ (by simp)⟩
    · exact ⟨hc.touch ho hloc _ (by simp), hc.touch ho hloc _ (by simp)⟩
  · exact ⟨fun _ => ⟨.of_isSimple rfl, .of_isSimple rfl⟩,
      fun _ => ⟨.of_isSimple rfl, .of_isSimple rfl⟩, kind_none, kind_none⟩

theorem Closed.lookup (hc : C.Closed k h) (hloc : C.touch loc)
    (hv : lookupKey key (h.mapAt loc).2.2 = some v) : C.Val h v ∧ C.Kind (h.mapAt loc).2.1 v := by
  obtain ⟨e, he, -, rfl⟩ := exists_of_lookupKey hv
  obtain ⟨-, -, hval, -, hkind⟩ := hc.mapAt loc e he
  exact ⟨(hval hloc).2, hkind⟩

/-! ### New and changed containers -/

/-- A new container takes its values from those at hand, and is at hand itself. -/
theorem Inv.push (hi : C.Inv k h (o.values ++ vs)) (ho : ∀ v ∈ o.values, C.Own none h v)
    (hfits : o.Fits C k) (hw : w.container? = some h.objects.size) :
    C.Inv k (h.push o) (w :: vs) := by
  have hget : ∀ {loc o'}, (h.push o).objects[loc]? = some o' →
      (loc = h.objects.size ∧ o' = o) ∨ h.objects[loc]? = some o' := by
    intro loc o' ho'
    have ho' : (h.objects.push o)[loc]? = some o' := ho'
    rw [Array.getElem?_push] at ho'
    split at ho'
    · next heq => exact .inl ⟨heq, (Option.some.inj ho').symm⟩
    · exact .inr ho'
  have hsize : (h.push o).objects.size = h.objects.size + 1 := Array.size_push ..
  have hk : Kept h (h.push o) := (h.fresh_push o).kept
  -- nothing was held under the place of the new container
  have hnew : uses h.objects.size h.values +
      (uses h.objects.size o.values + uses h.objects.size vs) = 0 := by
    by_contra hne
    have hlt : h.objects.size < h.objects.size := hi.lt_of_uses (by rw [uses_append]; omega)
    exact Nat.lt_irrefl _ hlt
  have hother : ∀ {loc}, loc ≠ h.objects.size → uses loc [w] = 0 :=
    fun hne => by simp [uses, hw, hne.symm]
  constructor
  · constructor
    · intro loc o' ho' hloc
      rcases hget ho' with ⟨-, rfl⟩ | ho'
      · exact fun v hv => (ho v hv).item.kept hk
      · exact fun v hv => (hi.look ho' hloc v hv).kept hk
    · intro loc o' ho' hloc
      rcases hget ho' with ⟨-, rfl⟩ | ho'
      · exact fun v hv => (ho v hv).val.kept hk
      · exact fun v hv => (hi.touch ho' hloc v hv).kept hk
    · intro loc o' ho' hloc
      rcases hget ho' with ⟨-, rfl⟩ | ho'
      · exact fun v hv => (ho v hv).kept hk
      · exact fun v hv => (hi.keep ho' hloc v hv).kept hk
    · intro loc o' ho'
      rcases hget ho' with ⟨-, rfl⟩ | ho'
      · exact hfits
      · exact hi.fits ho'
    · exact fun hloc => hi.fresh (by omega)
    · intro loc hpos
      rw [h.values_push, uses_append] at hpos
      have hlt : loc < h.objects.size := hi.lt_of_uses (by rw [uses_append]; omega)
      omega
    · exact hi.steps
  · intro loc
    have hsingle := hi.single loc
    rw [h.values_push, uses_append, uses_cons loc w]
    rw [uses_append] at hsingle
    by_cases heq : loc = h.objects.size
    · subst heq
      have hone : uses h.objects.size [w] = 1 := by simp [uses, hw]
      omega
    · rw [hother heq]
      omega
  · intro loc hpos
    rw [hsize]
    by_cases heq : loc = h.objects.size
    · omega
    · rw [uses_cons loc w, hother heq] at hpos
      have hlt : loc < h.objects.size := hi.lt_of_uses (by rw [uses_append]; omega)
      omega

/-- A container that may be changed takes values from those at hand. -/
theorem Inv.modify (hi : C.Inv k h (ws ++ vs)) (ho : h.objects[loc]? = some o) (hloc : C.touch loc)
    (hvals : (f o).values.Subperm (o.values ++ ws)) (hws : ∀ v ∈ ws, C.Own none h v)
    (hfits : (f o).Fits C k)
    (hk : Kept h { h with objects := h.objects.modify loc f }) :
    C.Inv k { h with objects := h.objects.modify loc f } vs := by
  have hget : ∀ {l o'}, (h.objects.modify loc f)[l]? = some o' →
      (l = loc ∧ o' = f o) ∨ h.objects[l]? = some o' := by
    intro l o' ho'
    rw [Array.getElem?_modify] at ho'
    split at ho'
    · next heq =>
      subst heq
      rw [ho] at ho'
      exact .inl ⟨rfl, (Option.some.inj ho').symm⟩
    · exact .inr ho'
  have hmem : ∀ v ∈ (f o).values, v ∈ o.values ∨ C.Own none h v := fun v hv =>
    (List.mem_append.mp (hvals.subset hv)).imp_right (hws v)
  have hlist : h.objects.toList[loc]? = some o := by simpa using ho
  -- what the new container holds was in the old one or at hand
  have huses : ∀ l, uses l (Heap.values { h with objects := h.objects.modify loc f }) ≤
      uses l h.values + uses l ws := by
    intro l
    have hmodify := uses_modify (f := f) l _ loc hlist
    have hle := uses_le_of_subperm hvals l
    rw [uses_append] at hle
    rw [Heap.values, Heap.values, Array.toList_modify]
    omega
  constructor
  · constructor
    · intro l o' ho' hl
      rcases hget ho' with ⟨rfl, rfl⟩ | ho'
      · exact fun v hv => Item.kept ((hmem v hv).elim (hi.look ho hl v) Own.item) hk
      · exact fun v hv => (hi.look ho' hl v hv).kept hk
    · intro l o' ho' hl
      rcases hget ho' with ⟨rfl, rfl⟩ | ho'
      · exact fun v hv => Val.kept ((hmem v hv).elim (hi.touch ho hl v) Own.val) hk
      · exact fun v hv => (hi.touch ho' hl v hv).kept hk
    · intro l o' ho' hl
      rcases hget ho' with ⟨rfl, rfl⟩ | ho'
      · exact fun v hv => Own.kept ((hmem v hv).elim (hi.keep ho hl v) id) hk
      · exact fun v hv => (hi.keep ho' hl v hv).kept hk
    · intro l o' ho'
      rcases hget ho' with ⟨rfl, rfl⟩ | ho'
      · exact hfits
      · exact hi.fits ho'
    · exact fun hl => hi.fresh (by simpa using hl)
    · intro l hpos
      have hle := huses l
      rw [Array.size_modify]
      exact hi.lt_of_uses (by rw [uses_append]; omega)
    · exact hi.steps
  · intro l
    have hsingle := hi.single l
    rw [uses_append] at hsingle
    have := huses l
    omega
  · intro l hpos
    rw [Array.size_modify]
    exact hi.held l (by rw [uses_append]; omega)

end Custody

/-! ### Operations that move values -/

/-- The containers of the first heap are in the second one as they were, except some, which have the
same shapes, and no mark is taken back. -/
structure Same (T : Nat → Prop) (h h' : Heap) : Prop where
  object : ∀ {loc : Nat} {o : Object}, h.objects[loc]? = some o → ¬T loc → h'.objects[loc]? = some o
  kept : Kept h h'

theorem Same.refl (T : Nat → Prop) (h : Heap) : Same T h h :=
  ⟨fun ho _ => ho, .refl h⟩

theorem Same.trans {h₁ h₂ h₃ : Heap} (h : Same T h₁ h₂) (h' : Same T h₂ h₃) : Same T h₁ h₃ :=
  ⟨fun ho hT => h'.object (h.object ho hT) hT, h.kept.trans h'.kept⟩

theorem Same.mono (hs : Same T h h') (hT : ∀ {loc}, T loc → T' loc) : Same T' h h' :=
  ⟨fun ho hn => hs.object ho fun ht => hn (hT ht), hs.kept⟩

theorem Same.fresh (hs : Same (fun _ => False) h h') : Fresh h h' :=
  ⟨fun ho => hs.object ho not_false, hs.kept.marks, hs.kept.room⟩

/-- The heap that an operation leaves. -/
def heapAfter {α : Type} (op : HeapM α) (h : Heap) : Heap :=
  match op h with
  | .ok _ h' => h'
  | .error _ h' => h'

theorem heapAfter_of_ok {op : HeapM α} (hop : op h = .ok a h') : heapAfter op h = h' := by
  rw [heapAfter, hop]

theorem heapAfter_of_error {op : HeapM α} {e : Failure} (hop : op h = .error e h') :
    heapAfter op h = h' := by
  rw [heapAfter, hop]

/-- An operation started in the heap `h` with the values `pre` at hand, beside others, keeps the
others and leaves the values `post` at hand.  It changes no container but those in `T`, and its
result is as `Q` says. -/
structure Moves {α : Type} (C : Custody) (k : Int) (T : Nat → Prop) (h : Heap) (pre : List Value)
    (post : α → List Value) (Q : Heap → α → Prop) (op : HeapM α) : Prop where
  ok : ∀ {vs a h'}, C.Inv k h (pre ++ vs) → op h = .ok a h' → Same T h h' ∧
    C.Inv k h' (post a ++ vs) ∧ Q h' a
  error : ∀ {vs e h'}, C.Inv k h (pre ++ vs) → op h = .error e h' → Same T h h' ∧ C.Inv k h' vs

/-- The operation gives something and moves nothing. -/
def Gives {α : Type} (C : Custody) (k : Int) (T : Nat → Prop) (h : Heap) (Q : Heap → α → Prop)
    (op : HeapM α) : Prop :=
  Moves C k T h [] (fun _ => []) Q op

/-- The operation makes a value that may be stored in a location with the recorded type. -/
def Makes (C : Custody) (k : Int) (T : Nat → Prop) (h : Heap) (t : Option TypeExpr)
    (op : HeapM Value) :
    Prop :=
  Moves C k T h [] (fun v => [v]) (C.Own t) op

namespace Moves

variable {pre r : List Value} {post : α → List Value} {Q : Heap → α → Prop} {op : HeapM α}
  {f : α → HeapM β}

theorem of_ok (hop : op h = .ok a h') (hsame : Same T h h')
    (hr : ∀ vs, C.Inv k h (pre ++ vs) → C.Inv k h' (post a ++ vs) ∧ Q h' a) :
    Moves C k T h pre post Q op := by
  constructor
  · intro vs b h'' hi heq
    rw [hop] at heq
    cases heq
    exact ⟨hsame, hr vs hi⟩
  · intro vs e h'' _ heq
    rw [hop] at heq
    cases heq

/-- What the containers hold may be used to describe an operation. -/
theorem assuming (hop : C.Closed k h → Moves C k T h pre post Q op) :
    Moves C k T h pre post Q op :=
  ⟨fun hi => (hop hi.toClosed).ok hi, fun hi => (hop hi.toClosed).error hi⟩

theorem cover {pre' : List Value} (hop : Moves C k T h pre post Q op)
    (hc : Covers pre' pre) : Moves C k T h pre' post Q op := by
  have hcover : ∀ {vs}, Covers (pre' ++ vs) (pre ++ vs) := fun loc => by
    rw [uses_append, uses_append]
    exact Nat.add_le_add_right (hc loc) _
  exact ⟨fun hi => hop.ok (hi.cover hcover), fun hi => hop.error (hi.cover hcover)⟩

theorem weaken {post' : α → List Value} {Q' : Heap → α → Prop}
    (hop : Moves C k T h pre post Q op)
    (hQ : ∀ a h', Same T h h' → Q h' a → Covers (post a) (post' a) ∧ Q' h' a) :
    Moves C k T h pre post' Q' op := by
  refine ⟨fun hi heq => ?_, hop.error⟩
  obtain ⟨hsame, hi', ha⟩ := hop.ok hi heq
  obtain ⟨hc, ha'⟩ := hQ _ _ hsame ha
  refine ⟨hsame, hi'.cover fun loc => ?_, ha'⟩
  rw [uses_append, uses_append]
  exact Nat.add_le_add_right (hc loc) _

theorem mono (hop : Moves C k T h pre post Q op)
    (hT : ∀ {loc}, T loc → T' loc) : Moves C k T' h pre post Q op := by
  constructor
  · intro vs a h' hi heq
    obtain ⟨hsame, hrest⟩ := hop.ok hi heq
    exact ⟨hsame.mono hT, hrest⟩
  · intro vs e h' hi heq
    obtain ⟨hsame, hrest⟩ := hop.error hi heq
    exact ⟨hsame.mono hT, hrest⟩

theorem pure (hc : Covers pre (post a)) (ha : Q h a) : Moves C k T h pre post Q (Pure.pure a) :=
  of_ok rfl (.refl T h) fun vs hi => ⟨hi.cover fun loc => by
    rw [uses_append, uses_append]
    exact Nat.add_le_add_right (hc loc) _, ha⟩

theorem throw (e : Failure) : Moves C k T h pre post Q (throw e : HeapM α) := by
  refine ⟨fun _ heq => (nomatch heq), fun hi heq => ?_⟩
  cases heq
  refine ⟨.refl T h, hi.cover fun loc => ?_⟩
  rw [uses_append]
  exact Nat.le_add_left ..

theorem fail (e : RuntimeError) : Moves C k T h pre post Q (fail e) :=
  throw _

theorem failOperands (s : String) : Moves C k T h pre post Q (failOperands s) :=
  throw _

/-- Operations in order: the second may store what the first has made, and what was at hand
before. -/
theorem bind (hop : Moves C k T h pre post Q op)
    (hf : ∀ a h', Same T h h' → Q h' a → Moves C k T h' (post a ++ r) post' Q' (f a)) :
    Moves C k T h (pre ++ r) post' Q' (op >>= f) := by
  constructor
  · intro vs b h' hi heq
    obtain ⟨a, h₁, ha, hb⟩ := bind_eq_ok heq
    rw [List.append_assoc] at hi
    obtain ⟨h01, hi₁, hQ⟩ := hop.ok hi ha
    rw [← List.append_assoc] at hi₁
    obtain ⟨h1, hi', hQ'⟩ := (hf a h₁ h01 hQ).ok hi₁ hb
    exact ⟨h01.trans h1, hi', hQ'⟩
  · intro vs e h' hi heq
    rw [List.append_assoc] at hi
    cases hc : op h with
    | ok a h₁ =>
      rw [bind_of_ok hc] at heq
      obtain ⟨h01, hi₁, hQ⟩ := hop.ok hi hc
      rw [← List.append_assoc] at hi₁
      obtain ⟨h1, hi'⟩ := (hf a h₁ h01 hQ).error hi₁ heq
      exact ⟨h01.trans h1, hi'⟩
    | error e h₁ =>
      rw [bind_of_error hc] at heq
      cases heq
      obtain ⟨h01, hi₁⟩ := hop.error hi hc
      refine ⟨h01, hi₁.cover fun loc => ?_⟩
      rw [uses_append]
      exact Nat.le_add_left ..

theorem made {op : HeapM Value} {f : Value → HeapM β} (hop : Makes C k T h t op)
    (hf : ∀ v h', Same T h h' → C.Own t h' v → Moves C k T h' (v :: r) post' Q' (f v)) :
    Moves C k T h r post' Q' (op >>= f) :=
  bind hop hf

theorem given (hop : Gives C k T h Q op)
    (hf : ∀ a h', Same T h h' → Q h' a → Moves C k T h' r post' Q' (f a)) :
    Moves C k T h r post' Q' (op >>= f) :=
  bind hop hf

theorem getVector {f : Option TypeExpr × Array Value → HeapM α}
    (hf : Moves C k T h pre post Q (f (h.vectorAt loc))) :
    Moves C k T h pre post Q (getVector loc >>= f) :=
  ⟨hf.ok, hf.error⟩

theorem congr {op op' : HeapM α} (heq : op h = op' h) (hop : Moves C k T h pre post Q op') :
    Moves C k T h pre post Q op :=
  ⟨fun hi hrun => hop.ok hi (heq.symm.trans hrun),
    fun hi hrun => hop.error hi (heq.symm.trans hrun)⟩

theorem getMap {f : Option TypeExpr × Option TypeExpr × List (Value × Value) → HeapM α}
    (hf : Moves C k T h pre post Q (f (h.mapAt loc))) :
    Moves C k T h pre post Q (getMap loc >>= f) :=
  ⟨hf.ok, hf.error⟩

theorem getPair {f : Value × Value × Option TypeExpr × Option TypeExpr → HeapM α}
    (hf : Moves C k T h pre post Q (f (h.pairAt loc))) :
    Moves C k T h pre post Q (getPair loc >>= f) :=
  ⟨hf.ok, hf.error⟩

theorem mapFind? {f : Option Value → HeapM α}
    (hf : Moves C k T h pre post Q (f (lookupKey key (h.mapAt loc).2.2))) :
    Moves C k T h pre post Q (mapFind? loc key >>= f) :=
  ⟨hf.ok, hf.error⟩

theorem throw_bind {f : β → HeapM α} (e : Failure) :
    Moves C k T h pre post Q ((MonadExcept.throw e : HeapM β) >>= f) :=
  throw e

theorem orArgumentError (hop : Moves C k T h pre post Q op) (e : RuntimeError) :
    Moves C k T h pre post Q (orArgumentError e op) := by
  constructor
  · intro vs a h' hi heq
    rw [SmallCpp.orArgumentError] at heq
    split at heq
    · split at heq <;> cases heq
    · exact hop.ok hi heq
  · intro vs e' h' hi heq
    rw [SmallCpp.orArgumentError] at heq
    split at heq
    · next hc =>
      have herr := hop.error hi hc
      split at heq <;> (cases heq; exact herr)
    · exact hop.error hi heq

/-- Operations on the items of a list, in order; what they make is at hand together. -/
theorem mapM {each : β → List Value} {P : Heap → β → Prop} {f : γ → HeapM β}
    (hP : ∀ {h h' b}, Same T h h' → P h b → P h' b) (items : List γ) :
    ∀ h, (∀ c ∈ items, ∀ h', Same T h h' → Moves C k T h' [] each P (f c)) →
      Moves C k T h [] (fun bs => bs.flatMap each)
        (fun h' bs => bs.length = items.length ∧ ∀ b ∈ bs, P h' b) (items.mapM f) := by
  induction items with
  | nil =>
    intro h _
    rw [List.mapM_nil]
    exact pure (.refl _) ⟨rfl, nofun⟩
  | cons c items ih =>
    intro h hf
    rw [List.mapM_cons]
    refine bind (r := []) (hf c List.mem_cons_self h (.refl T h)) fun b h₁ h01 hb => ?_
    refine bind (r := each b ++ [])
      (ih h₁ fun c hc h' h1 => hf c (List.mem_cons_of_mem _ hc) h' (h01.trans h1))
      fun bs h₂ h12 hbs => ?_
    refine pure (fun loc => ?_) ⟨by rw [List.length_cons, hbs.1, List.length_cons], ?_⟩
    · simp only [List.flatMap_cons, uses_append, uses_nil]
      omega
    · intro b' hb'
      rcases List.mem_cons.mp hb' with rfl | hb'
      · exact hP h12 hb
      · exact hbs.2 b' hb'

end Moves

/-! ### Operations that move nothing -/

section Gives

variable {P : Heap → α → Prop}

/-- Of an operation that leaves the heap as it is only the result has to be described. -/
theorem ReadOnly.gives {op : HeapM α} (hop : ReadOnly op)
    (hP : C.Closed k h → ∀ a, op h = .ok a h → P h a) : Gives C k T h P op := by
  constructor
  · intro vs a h' hi heq
    obtain rfl := hop.ok heq
    exact ⟨.refl T h', hi, hP hi.toClosed a heq⟩
  · intro vs e h' hi heq
    obtain rfl := hop.error heq
    exact ⟨.refl T h', hi⟩

/-- What follows a read-only operation starts in the same heap. -/
theorem ReadOnly.then {op : HeapM α} {f : α → HeapM β} (hop : ReadOnly op) {pre : List Value}
    {post : β → List Value} {Q : Heap → β → Prop}
    (hf : ∀ a, op h = .ok a h → Moves C k T h pre post Q (f a)) :
    Moves C k T h pre post Q (op >>= f) := by
  have hsame : Moves C k T h [] (fun _ => []) (fun h' a => h' = h ∧ op h = .ok a h) op :=
    hop.gives fun _ a ha => ⟨rfl, ha⟩
  refine .bind hsame ?_
  rintro a _ _ ⟨rfl, ha⟩
  exact hf a ha

theorem Gives.pure (ha : P h a) : Gives C k T h P (Pure.pure a) :=
  Moves.pure (.refl _) ha

theorem Gives.imp {P' : Heap → α → Prop} {op : HeapM α} (hop : Gives C k T h P op)
    (hP : ∀ h' a, Same T h h' → P h' a → P' h' a) : Gives C k T h P' op :=
  Moves.weaken hop fun a h' hsame ha => ⟨.refl _, hP h' a hsame ha⟩

/-- A value that is no container can be stored as soon as it may be copied. -/
theorem Gives.makes (hop : Gives C k T h (fun h' v => C.Bare h' v ∧ C.Kind t v) op) :
    Makes C k T h t op :=
  Moves.weaken hop fun _ _ _ hv =>
    ⟨fun loc => Nat.le_of_eq (uses_loose hv.1.loose loc), hv.1.own hv.2⟩

/-- A value that was made may be used instead of being stored. -/
theorem Makes.gives (hop : Makes C k T h t op) : Gives C k T h C.Val op :=
  Moves.weaken hop fun _ _ _ hv => ⟨.nil _, hv.val⟩

theorem Makes.pure (hv : C.Bare h v) (hkind : C.Kind t v) : Makes C k T h t (Pure.pure v) :=
  Gives.makes (Gives.pure ⟨hv, hkind⟩)

/-- Operations on the items of a list that make one value each. -/
theorem Makes.mapM {f : γ → HeapM Value} {items : List γ}
    (hf : ∀ c ∈ items, ∀ h', Same T h h' → Makes C k T h' t (f c)) :
    Moves C k T h [] id (fun h' ws => ws.length = items.length ∧ ∀ w ∈ ws, C.Own t h' w)
      (items.mapM f) := by
  refine (Moves.mapM (fun hs hw => hw.kept hs.kept) items h hf).weaken fun ws h' _ hws => ⟨?_, hws⟩
  rw [List.flatMap_singleton']
  exact .refl ws

/-- Operations on the items of an array that make one value each. -/
theorem Makes.mapM_array {f : γ → HeapM Value} {items : Array γ}
    (hf : ∀ c ∈ items, ∀ h', Same T h h' → Makes C k T h' t (f c)) :
    Moves C k T h [] Array.toList (fun h' ws => ws.size = items.size ∧ ∀ w ∈ ws, C.Own t h' w)
      (items.mapM f) := by
  rw [Array.mapM_eq_mapM_toList, map_eq_pure_bind]
  have hlist := Makes.mapM fun c hc => hf c (Array.mem_toList_iff.mp hc)
  refine Moves.bind (r := []) hlist fun ws h' _ hws => Moves.pure ?_ ⟨?_, fun w hw => ?_⟩
  · rw [List.append_nil]
    exact .refl ws
  · rw [List.size_toArray, hws.1, Array.length_toList]
  · exact hws.2 w (List.mem_toArray.mp hw)

theorem gives_newMark : Gives C k T h (fun h' mark => mark < h'.marks) newMark :=
  Moves.of_ok rfl ⟨fun ho _ => ho, id, Nat.le_succ _, rfl⟩ fun _ hi =>
    ⟨hi.congr rfl (Nat.le_succ _) rfl, Nat.lt_succ_self _⟩

end Gives

/-! ### New containers -/

theorem moves_push (hop : op h = .ok v (h.push o)) (hv : v.container? = some h.objects.size)
    (hback : (h.push o).Backs v) (ho : ∀ w ∈ o.values, C.Own none h w)
    (hfits : C.Closed k h → o.Fits C k)
    (hkind : C.Kind t v) : Moves C k T h o.values (fun w => [w]) (C.Own t) op := by
  have hsame : Same T h (h.push o) :=
    ⟨fun ho' _ => (h.fresh_push o).object ho', (h.fresh_push o).kept⟩
  refine .of_ok hop hsame fun vs hi => ⟨hi.push ho (hfits hi.toClosed) hv, ?_⟩
  have hkeep := hi.fresh (Nat.le_refl _)
  refine ⟨.container hv (C.touch_look (C.keep_touch hkeep)) hback, fun hloc => ?_, hkind⟩
  obtain rfl := Option.some.inj (hv.symm.trans hloc)
  exact hkeep

theorem moves_newVector {items : Array Value} (hitems : ∀ w ∈ items, C.Own e h w)
    (hfits : C.Closed k h → C.fit k items.size) (hkind : ∀ loc, C.Kind t (.vector loc)) :
    Moves C k T h items.toList (fun w => [w]) (C.Own t) (newVector e items) := by
  have hpush : Moves C k T h (Object.vector e items).values (fun w => [w]) (C.Own t)
      (newVector e items) := by
    refine moves_push rfl rfl ⟨e, h.shape?_push _⟩ (fun w hw => (hitems w (by simpa using hw)).any)
      (fun hk => ⟨hfits hk, fun l hl => ?_⟩) (hkind _)
    obtain ⟨w, hw, rfl⟩ := List.mem_map.mp hl
    exact (hitems w (Array.mem_toList_iff.mp hw)).kind
  rwa [Object.values_vector] at hpush

/-- The key and the value of an entry may be stored, and the key is no container. -/
structure Custody.Entry (C : Custody) (s t : Option TypeExpr) (h : Heap) (e : Value × Value) :
    Prop where
  hashable : unhashable? e.1 = none
  key : C.Own s h e.1
  value : C.Own t h e.2

theorem moves_newMap (hents : ∀ e ∈ entries, C.Entry s u h e) (hkind : ∀ loc, C.Kind t (.map loc)) :
    Moves C k T h (entries.flatMap fun e => [e.1, e.2]) (fun w => [w]) (C.Own t)
    (newMap s u entries) := by
  have hown : ∀ l ∈ (Object.map s u entries).locations, C.Own l.1 h l.2 := by
    intro l hl
    obtain ⟨e, he, hl⟩ := List.mem_flatMap.mp hl
    rcases List.mem_cons.mp hl with rfl | hl
    · exact (hents e he).key
    · obtain rfl := List.mem_singleton.mp hl
      exact (hents e he).value
  have hpush : Moves C k T h (Object.map s u entries).values (fun w => [w]) (C.Own t)
      (newMap s u entries) := by
    refine moves_push rfl rfl ⟨s, u, h.shape?_push _⟩ (fun w hw => ?_)
      (fun _ => ⟨fun e he => (hents e he).hashable, fun l hl => (hown l hl).kind⟩) (hkind _)
    obtain ⟨l, hl, rfl⟩ := List.mem_map.mp hw
    exact (hown l hl).any
  rwa [Object.values_map] at hpush

theorem moves_newPair {a b : Value} (ha : C.Own s h a) (hb : C.Own u h b)
    (hkind : ∀ loc, C.Kind t (.pair loc)) :
    Moves C k T h [a, b] (fun w => [w]) (C.Own t) (newPair a b s u) := by
  have hown : ∀ l ∈ (Object.pair a b s u).locations, C.Own l.1 h l.2 := by
    intro l hl
    rcases List.mem_cons.mp hl with rfl | hl
    · exact ha
    · exact List.mem_singleton.mp hl ▸ hb
  refine moves_push (o := .pair a b s u) rfl rfl ⟨s, u, h.shape?_push _⟩ (fun w hw => ?_)
    (fun _ => ⟨trivial, fun l hl => (hown l hl).kind⟩) (hkind _)
  obtain ⟨l, hl, rfl⟩ := List.mem_map.mp hw
  exact (hown l hl).any

/-! ### Changed containers -/

theorem Same.modify (hf : ∀ o, (f o).shape = o.shape) (hT : T loc) :
    Same T h { h with objects := h.objects.modify loc f } := by
  refine ⟨fun {l o} ho hl => ?_, h.kept_modify loc hf⟩
  rw [Array.getElem?_modify, if_neg (by rintro rfl; exact hl hT), ho]

/-- A change of one container that stores values at hand, or does nothing. -/
theorem Custody.Inv.modify_or (hi : C.Inv k h (ws ++ vs)) (hloc : C.touch loc)
    (hws : ∀ v ∈ ws, C.Own none h v) (hshape : ∀ o, (f o).shape = o.shape)
    (hf : ∀ o, h.objects[loc]? = some o → f o = o ∨
      ((f o).values.Subperm (o.values ++ ws) ∧ (f o).Fits C k)) :
    C.Inv k { h with objects := h.objects.modify loc f } vs := by
  cases ho : h.objects[loc]? with
  | none =>
    have hsame : h.objects.modify loc f = h.objects := by
      apply Array.ext_getElem?
      intro i
      rw [Array.getElem?_modify]
      split
      · next heq => rw [← heq, ho]; rfl
      · rfl
    refine Custody.Inv.congr (h := h) (hi.cover fun l => ?_) hsame (Nat.le_refl _) rfl
    rw [uses_append]
    exact Nat.le_add_left ..
  | some o =>
    have hk := h.kept_modify loc hshape
    rcases hf o ho with heq | ⟨hvals, hfits⟩
    · refine hi.modify ho hloc ?_ hws (heq.symm ▸ hi.fits ho) hk
      rw [heq]
      exact (List.sublist_append_left _ _).subperm
    · exact hi.modify ho hloc hvals hws hfits hk

theorem Heap.vectorAt_of_object {items : Array Value}
    (ho : h.objects[loc]? = some (.vector e items)) : h.vectorAt loc = (e, items) := by
  rw [Heap.vectorAt, ho]

theorem shape_updateVector (f : Array Value → Array Value) (o : Object) : Object.shape (match o with
    | .vector element items => .vector element (f items)
    | o => o) = o.shape := by
  cases o <;> rfl

theorem moves_updateVector {f : Array Value → Array Value} (hT : T loc) (hloc : C.touch loc)
    (hws : ∀ v ∈ ws, C.Own (h.vectorAt loc).1 h v)
    (hf : (f (h.vectorAt loc).2).toList.Subperm ((h.vectorAt loc).2.toList ++ ws))
    (hfits : C.Closed k h → C.fit k (f (h.vectorAt loc).2).size) :
    Moves C k T h ws (fun _ => [])
      (fun h' _ => (h'.vectorAt loc).2.size ≤ (f (h.vectorAt loc).2).size)
      (updateVector loc f) := by
  refine .of_ok rfl (Same.modify (shape_updateVector f) hT) fun vs hi =>
    ⟨hi.modify_or hloc (fun v hv => (hws v hv).any) (shape_updateVector f) fun o ho => ?_, ?_⟩
  · cases o with
    | vector e items =>
      have hat := Heap.vectorAt_of_object ho
      have hfits := hfits hi.toClosed
      have hold := (hi.vectorAt loc).2
      rw [hat] at hf hfits hold hws
      refine .inr ⟨by rwa [Object.values_vector, Object.values_vector], hfits, fun l hl => ?_⟩
      obtain ⟨v, hv, rfl⟩ := List.mem_map.mp hl
      rcases List.mem_append.mp (hf.subset hv) with hv | hv
      · exact (hold v (Array.mem_toList_iff.mp hv)).2.2
      · exact (hws v hv).kind
    | map | pair => exact .inl rfl
  · simp only [Heap.vectorAt, Heap.updateVector, Array.getElem?_modify, if_pos]
    cases h.objects[loc]? with
    | none => exact Nat.zero_le _
    | some o =>
      cases o with
      | vector e items => exact Nat.le_refl _
      | map | pair => exact Nat.zero_le _

theorem shape_updateMap (f : List (Value × Value) → List (Value × Value)) (o : Object) :
    Object.shape (match o with
    | .map key value entries => .map key value (f entries)
    | o => o) = o.shape := by
  cases o <;> rfl

theorem moves_updateMap {f : List (Value × Value) → List (Value × Value)} (hT : T loc)
    (hloc : C.touch loc) (hws : ∀ v ∈ ws, C.Own none h v)
    (hf : ((f (h.mapAt loc).2.2).flatMap fun e => [e.1, e.2]).Subperm
      (((h.mapAt loc).2.2.flatMap fun e => [e.1, e.2]) ++ ws))
    (hfits : C.Closed k h → ∀ e ∈ f (h.mapAt loc).2.2,
      unhashable? e.1 = none ∧ C.Kind (h.mapAt loc).1 e.1 ∧ C.Kind (h.mapAt loc).2.1 e.2) :
    Moves C k T h ws (fun _ => []) (fun _ _ => True) (updateMap loc f) := by
  refine .of_ok rfl (Same.modify (shape_updateMap f) hT) fun vs hi =>
    ⟨hi.modify_or hloc hws (shape_updateMap f) fun o ho => ?_, trivial⟩
  cases o with
  | map s t entries =>
    have hat : h.mapAt loc = (s, t, entries) := by rw [Heap.mapAt, ho]
    have hfits := hfits hi.toClosed
    rw [hat] at hf hfits
    refine .inr ⟨by rwa [Object.values_map, Object.values_map], fun e he => (hfits e he).1,
      fun l hl => ?_⟩
    obtain ⟨e, he, hl⟩ := List.mem_flatMap.mp hl
    rcases List.mem_cons.mp hl with rfl | hl
    · exact (hfits e he).2.1
    · obtain rfl := List.mem_singleton.mp hl
      exact (hfits e he).2.2
  | vector | pair => exact .inl rfl

theorem shape_updatePair (f : Value → Value → Value × Value) (o : Object) :
    Object.shape (match o with
    | .pair a b s t => .pair (f a b).1 (f a b).2 s t
    | o => o) = o.shape := by
  cases o <;> rfl

theorem moves_updatePair {f : Value → Value → Value × Value} (hT : T loc) (hloc : C.touch loc)
    (hws : ∀ v ∈ ws, C.Own none h v) (hf : ∀ a b, [(f a b).1, (f a b).2].Subperm ([a, b] ++ ws))
    (hkinds : ∀ {a b s t}, h.objects[loc]? = some (.pair a b s t) → C.Kind s a → C.Kind t b →
      C.Kind s (f a b).1 ∧ C.Kind t (f a b).2) :
    Moves C k T h ws (fun _ => []) (fun _ _ => True) (updatePair loc f) := by
  refine .of_ok rfl (Same.modify (shape_updatePair f) hT) fun vs hi =>
    ⟨hi.modify_or hloc hws (shape_updatePair f) fun o ho => ?_, trivial⟩
  cases o with
  | pair a b s t =>
    have hold := (hi.fits ho).kinds
    have hnew := hkinds ho (hold (s, a) (by simp [Object.locations]))
      (hold (t, b) (by simp [Object.locations]))
    refine .inr ⟨hf a b, trivial, fun l hl => ?_⟩
    rcases List.mem_cons.mp hl with rfl | hl
    · exact hnew.1
    · obtain rfl := List.mem_singleton.mp hl
      exact hnew.2
  | vector | map => exact .inl rfl

end SmallCpp
