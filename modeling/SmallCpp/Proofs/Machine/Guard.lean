import SmallCpp.Proofs.Heap.CustodyCall
import SmallCpp.Proofs.Machine.Maintains

/-!
# States under custody

The variables of a state hold containers as the containers do: no container is held twice.  A name
is bound to a location that may be used, with the recorded type of the location.  Whatever is done
to such a state, a value is stored only after it was made, so the state stays so.

A variable of a pair type holds a pair.  A conversion to a pair type makes a new pair, and whatever
is stored in the variable was converted to its type.  The one thing that is stored without a
conversion is a changed text, and a change of a text finds the variable only under a name that stood
for it before, when it held a text.  So the pair that a variable holds is the one from before, or a
new one.  It is the one from before if nothing is assigned to a name that stands for the variable: a
step or an input fails at a pair. -/

namespace SmallCpp

variable {s t : State} {name : String} {r : Reference} {p : Place} {α : Type}
  {R : State → State → Prop} {C : Custody} {op : HeapM α} {v w : Value} {h' h : Heap}
  {τ : Option TypeExpr} {i loc : Nat} {frame : Frame} {frames : List Frame} {T : Nat → Prop}
  {Q : Heap → α → Prop} {change : TextChange} {args : List Value}

/-! ### Pair types -/

/-- The value is a pair, if the type is one of pairs. -/
def TypeExpr.Pairs (t : TypeExpr) (v : Value) : Prop :=
  t.isPair = true → ∃ loc, v = .pair loc

/-- A conversion to a pair type makes a pair of the two values that it finds. -/
theorem coerce_pair_eq_ok {t : TypeExpr} (ht : t.isPair = true) (hw : coerce t v h = .ok w h') :
    (∃ parts k, pairParts v h = .ok parts k) ∧ ∃ loc, w = .pair loc := by
  obtain ⟨hptrs, hbase⟩ := TypeExpr.eq_of_isPair ht
  replace hw : coerceWithin h.room t v h = .ok w h' := hw
  rw [coerceWithin_eq, if_neg (by simp [TypeExpr.isPointer, hptrs]), hbase] at hw
  obtain ⟨-, hw⟩ := descend_eq_ok hw
  obtain ⟨parts, k, hparts, hw⟩ := bind_eq_ok hw
  obtain ⟨a, k₁, -, hw⟩ := bind_eq_ok hw
  obtain ⟨b, k₂, -, hw⟩ := bind_eq_ok hw
  obtain ⟨loc, k₃, -, hw⟩ := bind_eq_ok hw
  cases hw
  exact ⟨⟨parts, k, hparts⟩, loc, rfl⟩

theorem pairs_of_defaultOf {t : TypeExpr} (hw : defaultOf t h = .ok w h') : t.Pairs w := by
  intro ht
  obtain ⟨hptrs, hbase⟩ := TypeExpr.eq_of_isPair ht
  have hinit := (newborn_of_defaultValue (t := some t) hw).2.initial
  generalize ho : some t = o at hinit
  cases hinit with
  | plain hv =>
    subst ho
    simp [plainDefault?, TypeExpr.isPointer, hptrs, hbase] at hv
  | vector _ hb | map _ hb =>
    cases ho
    cases hbase.symm.trans hb
  | pair => exact ⟨_, rfl⟩

theorem pairParts_of_isPlain (hv : v.isPlain = true) {parts : Value × Value} :
    pairParts v h ≠ .ok parts h' := by
  cases v with
  | null | bool | int | real | nan | char | text | mapEnd => exact nofun
  | _ => cases hv

/-! ### States -/

def State.values (s : State) : List Value :=
  s.cells.toList.map Cell.value

theorem State.mem_values {c : Cell} (hc : s.cells[i]? = some c) : c.value ∈ s.values :=
  List.mem_map_of_mem (Array.mem_toList_iff.mpr (Array.mem_of_getElem? hc))

theorem State.values_setCell (s : State) (i : Nat) (v : Value) :
    State.values { s with cells := s.cells.modify i fun c => { c with value := v } } =
      s.values.set i v := by
  have hmodify : ∀ (cells : List Cell) (i : Nat),
      (cells.modify i fun c => { c with value := v }).map Cell.value =
        (cells.map Cell.value).set i v := by
    intro cells
    induction cells with
    | nil => exact fun _ => by simp
    | cons c cells ih =>
      intro i
      cases i with
      | zero => rfl
      | succ i => simpa using ih i
  rw [values, values, Array.toList_modify]
  exact hmodify _ i

theorem Frame.mem_of_find? (hr : frame.find? name = some r) : (name, r) ∈ frame := by
  obtain ⟨b, hb, rfl⟩ := Option.map_eq_some_iff.mp hr
  have hname := List.find?_some hb
  rw [← beq_iff_eq.mp hname]
  exact List.mem_of_find?_eq_some hb

theorem State.mem_of_lookup? (hr : s.lookup? name = some r) :
    (name, r) ∈ s.globals ∨ ∃ frame ∈ s.frames, (name, r) ∈ frame := by
  rw [State.lookup?] at hr
  split at hr
  · next r' hr' =>
    cases hr
    obtain ⟨frame, hfr, hfound⟩ := List.exists_of_findSome?_eq_some hr'
    exact .inr ⟨frame, hfr, Frame.mem_of_find? hfound⟩
  · exact .inl (Frame.mem_of_find? hr)

theorem Frame.exists_of_find? (hr : frame.find? name = some r) : ∃ b ∈ frame, b.2 = r :=
  ⟨(name, r), Frame.mem_of_find? hr, rfl⟩

/-- The place is a character of a text. -/
def Place.isCharacter : Place → Bool
  | .character _ _ => true
  | _ => false

/-- The map that reading the place may add an entry to, and the subscript of the entry. -/
def Place.slot? : Place → Option (Nat × Value)
  | .mapSlot map index => some (map, index)
  | .character text _ => text.slot?
  | _ => none

/-- The recorded type of the location. -/
def Place.type (s : State) : Place → Option TypeExpr
  | .variable i => s.cells[i]?.map Cell.type
  | .vectorSlot loc _ => (s.heap.vectorAt loc).1
  | .mapSlot loc _ => (s.heap.mapAt loc).2.1
  | .pairField loc field =>
    if field == .first then (s.heap.pairAt loc).2.2.1 else (s.heap.pairAt loc).2.2.2
  | .entryField loc _ field =>
    if field == .first then (s.heap.mapAt loc).1 else (s.heap.mapAt loc).2.1
  | .character _ _ => some { base := .char }

/-- The variables and containers of the first state are in the second one, with their types. -/
structure Later (s t : State) : Prop where
  heap : Kept s.heap t.heap
  cells : ∀ {i : Nat} {c}, s.cells[i]? = some c → ∃ c', t.cells[i]? = some c' ∧ c'.type = c.type

namespace Later

variable {u : State}

theorem trans (hst : Later s t) (htu : Later t u) : Later s u := by
  refine ⟨hst.heap.trans htu.heap, fun hc => ?_⟩
  obtain ⟨c', hc', htype⟩ := hst.cells hc
  obtain ⟨c'', hc'', htype'⟩ := htu.cells hc'
  exact ⟨c'', hc'', htype'.trans htype⟩

end Later

theorem Later.size_le (hst : Later s t) : s.cells.size ≤ t.cells.size := by
  refine Nat.le_of_not_lt fun hlt => ?_
  obtain ⟨c, hc, -⟩ := hst.cells (Array.getElem?_eq_getElem hlt)
  exact absurd (Array.getElem?_eq_some_iff.mp hc).1 (Nat.lt_irrefl _)

theorem Later.of_eq (hheap : t.heap = s.heap) (hcells : t.cells = s.cells) : Later s t :=
  ⟨hheap ▸ .refl _, fun hc => ⟨_, hcells ▸ hc, rfl⟩⟩

namespace Custody

/-- The location may be used, and exists. -/
def Site (C : Custody) (s : State) : Place → Prop
  | .variable i => C.touchCell i ∧ i < s.cells.size
  | .vectorSlot loc _ => C.touch loc ∧ s.heap.Backs (.vector loc)
  | .pairField loc _ => C.touch loc ∧ s.heap.Backs (.pair loc)
  | .mapSlot loc key => (C.touch loc ∧ s.heap.Backs (.map loc)) ∧ C.Item s.heap key
  | .entryField loc key _ => (C.touch loc ∧ s.heap.Backs (.map loc)) ∧ C.Item s.heap key ∧
    unhashable? key = none ∧ C.Kind (s.heap.mapAt loc).1 key
  | .character text _ => C.Site s text

/-- The location of a reference may be used, and the recorded type of the reference is that of the
location. -/
structure Target (C : Custody) (s : State) (r : Reference) : Prop where
  site : C.Site s r.place
  type : r.type = r.place.type s

/-- The reference stands for no variable that is to keep its pair. -/
def Spares (C : Custody) (r : Reference) : Prop :=
  ∀ i, r.place = .variable i → ¬C.held i

/-- The name may be bound to the location: one that is assigned to only to a location that need not
keep a pair. -/
def Binds (C : Custody) (name : String) (r : Reference) : Prop :=
  C.assigned name → C.Spares r

/-- A name is bound to a location that it may be bound to. -/
structure Bound (C : Custody) (s : State) (b : String × Reference) : Prop where
  target : C.Target s b.2
  binds : C.Binds b.1 b.2

/-- The location is a variable of its own. -/
structure Anew (C : Custody) (s : State) (r : Reference) : Prop where
  target : C.Target s r
  cell : ∃ i, r.place = .variable i ∧ C.keepCell i
  spares : C.Spares r

/-- No container is held twice, by variables or containers, and names are bound to locations that
may be used. -/
structure Guarded (C : Custody) (s : State) : Prop where
  inv : C.Inv s.steps s.heap s.values
  touchCell : ∀ {i : Nat} {c}, s.cells[i]? = some c → C.touchCell i → C.Val s.heap c.value
  /-- The variables that hold only what may be stored. -/
  keepCell : ∀ {i : Nat} {c}, s.cells[i]? = some c → C.keepCell i → C.Own none s.heap c.value
  kinds : ∀ {i : Nat} {c}, s.cells[i]? = some c → C.Kind (some c.type) c.value
  pairs : ∀ {i : Nat} {c}, s.cells[i]? = some c → c.type.Pairs c.value
  held : ∀ {i}, C.held i → ∃ c, s.cells[i]? = some c ∧ c.type.isPair = true
  freshCell : ∀ {i}, s.cells.size ≤ i → C.keepCell i
  globals : ∀ b ∈ s.globals, C.Bound s b
  frames : ∀ frame ∈ s.frames, ∀ b ∈ frame, C.Bound s b

/-- The value was made, of the type, and is not stored yet. -/
structure Loose (C : Custody) (s : State) (τ : Option TypeExpr) (v : Value) : Prop where
  own : C.Own τ s.heap v
  inv : C.Inv s.steps s.heap (v :: s.values)

/-- The value may be stored at the place as far as pairs matter: in a variable of a pair type only
pairs are stored, and nothing if it is to keep its pair. -/
def Takes (C : Custody) (s : State) (p : Place) (v : Value) : Prop :=
  ∀ {i : Nat} {c : Cell}, p = .variable i → s.cells[i]? = some c → c.type.isPair = true →
    ¬C.held i ∧ ∃ loc, v = .pair loc

theorem Binds.of_frees (h : C.frees name) : C.Binds name r :=
  fun hassigned _ _ => C.frees_held h hassigned

theorem Anew.binds (h : C.Anew s r) (name : String) : C.Binds name r :=
  fun _ => h.spares

/-- A location that may be used stays so, with its recorded type. -/
theorem Site.mono (hst : Later s t) (hp : C.Site s p) : C.Site t p ∧ p.type t = p.type s := by
  have hmap : ∀ {loc}, s.heap.Backs (.map loc) → t.heap.Backs (.map loc) ∧
      (t.heap.mapAt loc).1 = (s.heap.mapAt loc).1 ∧
      (t.heap.mapAt loc).2.1 = (s.heap.mapAt loc).2.1 := by
    rintro loc ⟨κ, τ, hσ⟩
    have hσ' := hst.heap.shape hσ
    rw [(Heap.mapAt_of_shape hσ).1, (Heap.mapAt_of_shape hσ).2, (Heap.mapAt_of_shape hσ').1,
      (Heap.mapAt_of_shape hσ').2]
    exact ⟨⟨κ, τ, hσ'⟩, rfl, rfl⟩
  induction p with
  | «variable» i =>
    obtain ⟨c, hc, htype⟩ := hst.cells (Array.getElem?_eq_getElem hp.2)
    refine ⟨⟨hp.1, (Array.getElem?_eq_some_iff.mp hc).1⟩, ?_⟩
    rw [Place.type, Place.type, hc, Array.getElem?_eq_getElem hp.2, Option.map_some,
      Option.map_some, htype]
  | vectorSlot loc =>
    obtain ⟨hloc, e, hσ⟩ := hp
    rw [Place.type, Place.type, Heap.vectorAt_of_shape hσ,
      Heap.vectorAt_of_shape (hst.heap.shape hσ)]
    exact ⟨⟨hloc, e, hst.heap.shape hσ⟩, rfl⟩
  | pairField loc =>
    obtain ⟨hloc, a, b, hσ⟩ := hp
    have hσ' := hst.heap.shape hσ
    rw [Place.type, Place.type, (Heap.pairAt_of_shape hσ).1, (Heap.pairAt_of_shape hσ).2,
      (Heap.pairAt_of_shape hσ').1, (Heap.pairAt_of_shape hσ').2]
    exact ⟨⟨hloc, a, b, hσ'⟩, rfl⟩
  | mapSlot loc key =>
    obtain ⟨hback, -, htype⟩ := hmap hp.1.2
    exact ⟨⟨⟨hp.1.1, hback⟩, hp.2.kept hst.heap⟩, htype⟩
  | entryField loc key field =>
    obtain ⟨⟨hloc, hback⟩, hkey, hhash, hkind⟩ := hp
    obtain ⟨hback, hkeyType, htype⟩ := hmap hback
    rw [Place.type, Place.type, hkeyType, htype]
    exact ⟨⟨⟨hloc, hback⟩, hkey.kept hst.heap, hhash, hkeyType ▸ hkind⟩, rfl⟩
  | character text i ih => exact ⟨(ih hp).1, rfl⟩

theorem Target.mono (hst : Later s t) (hr : C.Target s r) : C.Target t r :=
  ⟨(hr.site.mono hst).1, hr.type.trans (hr.site.mono hst).2.symm⟩

/-- A reference to a variable records the type of the variable. -/
theorem Target.type_eq {c : Cell} (hr : C.Target s r) (hi : r.place = .variable i)
    (hc : s.cells[i]? = some c) : r.type = some c.type := by
  rw [hr.type, hi, Place.type, hc]
  rfl

/-- A reference to a character records the type of characters. -/
theorem Target.type_of_isCharacter (hr : C.Target s r) (hp : r.place.isCharacter = true) :
    r.type = some { base := .char } := by
  rw [hr.type]
  cases hplace : r.place with
  | character => rfl
  | _ => rw [hplace] at hp; cases hp

theorem Bound.mono (hst : Later s t) {b : String × Reference} (hb : C.Bound s b) : C.Bound t b :=
  ⟨hb.target.mono hst, hb.binds⟩

theorem Guarded.loose (hs : C.Guarded s) (hv : C.Bare s.heap v) (hkind : C.Kind τ v) :
    C.Loose s τ v := by
  refine ⟨hv.own hkind, hs.inv.cover fun loc => Nat.le_of_eq ?_⟩
  rw [uses_cons loc v, uses_loose hv.loose, Nat.zero_add]

theorem Guarded.lookup? (hs : C.Guarded s) (hr : s.lookup? name = some r) :
    C.Bound s (name, r) := by
  rcases State.mem_of_lookup? hr with hb | ⟨frame, hfr, hb⟩
  · exact hs.globals _ hb
  · exact hs.frames frame hfr _ hb

/-! ### Changes of states -/

/-- The invariant holds of a later state if its new values may be stored and its names may be bound
as they are. -/
theorem Guarded.next (hs : C.Guarded s) (hinv : C.Inv t.steps t.heap t.values) (hst : Later s t)
    (hvals : ∀ {i : Nat} {c}, t.cells[i]? = some c →
      s.cells[i]? = some c ∨ C.Own (some c.type) t.heap c.value ∧ c.type.Pairs c.value)
    (hglobals : ∀ b ∈ t.globals, C.Bound s b)
    (hframes : ∀ frame ∈ t.frames, ∀ b ∈ frame, C.Bound s b) : C.Guarded t where
  inv := hinv
  touchCell hc hi := (hvals hc).elim (fun hc => (hs.touchCell hc hi).kept hst.heap) fun h => h.1.val
  keepCell hc hi := (hvals hc).elim (fun hc => (hs.keepCell hc hi).kept hst.heap) fun h => h.1.any
  kinds hc := (hvals hc).elim hs.kinds fun h => h.1.kind
  pairs hc := (hvals hc).elim hs.pairs And.right
  held hi := by
    obtain ⟨c, hc, hpair⟩ := hs.held hi
    obtain ⟨c', hc', htype⟩ := hst.cells hc
    exact ⟨c', hc', htype ▸ hpair⟩
  freshCell hi := hs.freshCell (Nat.le_trans hst.size_le hi)
  globals b hb := (hglobals b hb).mono hst
  frames frame hfr b hb := (hframes frame hfr b hb).mono hst

/-- The containers may change as long as the invariant of the heap holds. -/
theorem Guarded.withHeap (hs : C.Guarded s) (hi : C.Inv s.steps h s.values) (hk : Kept s.heap h) :
    C.Guarded { s with heap := h } :=
  hs.next hi ⟨hk, fun hc => ⟨_, hc, rfl⟩⟩ .inl hs.globals hs.frames

/-- Names may be bound in other ways, as long as they may be bound so. -/
theorem Guarded.withNames (hs : C.Guarded s) {globals : Frame} (depth : Nat)
    (hglobals : ∀ b ∈ globals, C.Bound s b) (hframes : ∀ frame ∈ frames, ∀ b ∈ frame, C.Bound s b) :
    C.Guarded { s with globals, frames, depth } :=
  hs.next hs.inv (.of_eq rfl rfl) .inl hglobals hframes

theorem Guarded.opened (hs : C.Guarded s) : C.Guarded { s with frames := [] :: s.frames } :=
  hs.withNames s.depth hs.globals fun frame hfr b hb => by
    rcases List.mem_cons.mp hfr with rfl | hfr
    · cases hb
    · exact hs.frames frame hfr b hb

theorem Guarded.withStreams (hs : C.Guarded s) (input : List String) (output : Output) :
    C.Guarded { s with input, output } :=
  hs.next hs.inv (.of_eq rfl rfl) .inl hs.globals hs.frames

theorem Inv.count {k : Int} {vs : List Value} (hi : C.Inv k h vs) (d : Nat) :
    C.Inv (k + d) h vs := by
  have hfit : ∀ {n}, C.fit k n → C.fit (k + d) n := fun hn =>
    C.fit_le (Nat.le_add_right _ d) (C.fit_grow d hi.steps hn)
  refine { hi with fits := fun {loc o} ho => ⟨?_, (hi.fits ho).kinds⟩, steps :=
    hi.steps.imp_right (by omega) }
  have hfits := (hi.fits ho).bounded
  cases o with
  | vector e items => exact hfit hfits
  | map | pair => exact hfits

theorem Guarded.count (hs : C.Guarded s) (d : Nat) : C.Guarded { s with steps := s.steps + d } :=
  hs.next (hs.inv.count d) (.of_eq rfl rfl) .inl hs.globals hs.frames

theorem later_setCell (s : State) (i : Nat) (v : Value) :
    Later s { s with cells := s.cells.modify i fun c => { c with value := v } } := by
  refine ⟨.refl _, fun {j c} hc => ?_⟩
  rw [Array.getElem?_modify, hc]
  split
  · exact ⟨_, rfl, rfl⟩
  · exact ⟨_, rfl, rfl⟩

theorem Guarded.setCell (hs : C.Guarded s) (hv : C.Loose s ((Place.variable i).type s) v)
    (htakes : C.Takes s (.variable i) v) :
    C.Guarded { s with cells := s.cells.modify i fun c => { c with value := v } } := by
  refine hs.next (hv.inv.cover fun loc => ?_) (later_setCell s i v) (fun {j c} hc => ?_) hs.globals
    hs.frames
  · rw [State.values_setCell]
    refine uses_le_of_subperm ((set_subperm _ i v).trans ?_) loc
    exact (List.perm_append_singleton v _).subperm
  · rw [Array.getElem?_modify] at hc
    split at hc
    · next heq =>
      obtain ⟨c', hc', rfl⟩ := Option.map_eq_some_iff.mp hc
      have hown := hv.own
      rw [Place.type, heq, hc'] at hown
      exact .inr ⟨hown, fun hpair => (htakes (heq ▸ rfl) hc' hpair).2⟩
    · exact .inl hc

theorem getElem?_newVariable {cells : Array Cell} {c : Cell} (hc : cells[i]? = some c)
    (cell : Cell) : (cells.push cell)[i]? = some c := by
  have hlt : i < cells.size := (Array.getElem?_eq_some_iff.mp hc).1
  rw [Array.getElem?_push_lt hlt, ← Array.getElem?_eq_getElem hlt, hc]

theorem Guarded.newCell (hs : C.Guarded s) {type : TypeExpr} (hv : C.Loose s (some type) v)
    (hpairs : type.Pairs v) :
    C.Guarded { s with cells := s.cells.push ⟨v, type⟩ } := by
  have hlater : Later s { s with cells := s.cells.push ⟨v, type⟩ } :=
    ⟨.refl _, fun hc => ⟨_, getElem?_newVariable hc _, rfl⟩⟩
  refine hs.next (hv.inv.cover fun loc => ?_) hlater (fun {j c} hc => ?_) hs.globals hs.frames
  · refine uses_le_of_subperm ?_ loc
    simp [State.values, List.perm_append_singleton _ _ |>.subperm]
  · rw [Array.getElem?_push] at hc
    split at hc
    · cases hc
      exact .inr ⟨hv.own, hpairs⟩
    · exact .inl hc

end Custody

/-! ### Computations that keep the invariant -/

/-- A computation started in `s` keeps the invariant, its value is as `Q` says, a value that it
returns with is ready to be used, and the state that it leaves comes after `s` as `R` says. -/
abbrev Guards {α : Type} (R : State → State → Prop) (C : Custody) (s : State) (Q : State → α → Prop)
    (c : Run α) : Prop :=
  Maintains C.Guarded R (fun t v => C.Val t.heap v) s Q c

/-- An operation on values that stores the values `pre` and makes the values `post`. -/
theorem Guards.moving {pre : List Value} {post : α → List Value}
    (hop : Moves C s.steps T s.heap pre post Q op)
    (hpre : C.Guarded s → C.Inv s.steps s.heap (pre ++ s.values))
    (hR : C.Guarded s → Same T s.heap (heapAfter op s.heap) →
      R s { s with heap := heapAfter op s.heap }) :
    Guards R C s (fun t a => C.Inv t.steps t.heap (post a ++ t.values) ∧ Q t.heap a)
    (onHeap op) := by
  constructor
  · intro hs a t heq
    obtain ⟨h, hrun, rfl⟩ := onHeap_eq_ok heq
    obtain ⟨hsame, hi, ha⟩ := hop.ok (hpre hs) hrun
    have hR := hR hs
    rw [heapAfter_of_ok hrun] at hR
    refine ⟨hs.withHeap (hi.cover fun loc => ?_) hsame.kept, hR hsame, hi, ha⟩
    rw [uses_append]
    exact Nat.le_add_left ..
  · intro hs e t heq
    rw [onHeap] at heq
    dsimp only at heq
    split at heq
    · cases heq
    · next failure h hrun =>
      cases heq
      obtain ⟨hsame, hi⟩ := hop.error (hpre hs) hrun
      have hR := hR hs
      rw [heapAfter_of_error hrun] at hR
      refine ⟨hs.withHeap hi hsame.kept, hR hsame, fun v hv => ?_⟩
      cases failure <;> cases hv

/-! ### What may change -/

/-- A variable keeps its type, and changes only if it may be used.  If it is of a pair type, it
holds what it held or a pair that may be kept. -/
structure Custody.Turns (C : Custody) (i : Nat) (c c' : Cell) : Prop where
  type : c'.type = c.type
  same : ¬C.touchCell i → c' = c
  pair : c.type.isPair = true → c'.value = c.value ∨ ¬C.held i ∧ ∃ loc, c'.value = .pair loc ∧
    C.keep loc

/-- Only variables and containers that may be used have changed. -/
structure Custody.Within (C : Custody) (s t : State) : Prop where
  heap : Same C.touch s.heap t.heap
  cells : ∀ {i : Nat} {c}, s.cells[i]? = some c → ∃ c', t.cells[i]? = some c' ∧ C.Turns i c c'

theorem Custody.Turns.refl (C : Custody) (i : Nat) (c : Cell) : C.Turns i c c :=
  ⟨rfl, fun _ => rfl, fun _ => .inl rfl⟩

theorem Custody.Turns.trans {c c' c'' : Cell} (h : C.Turns i c c') (h' : C.Turns i c' c'') :
    C.Turns i c c'' := by
  refine ⟨h'.type.trans h.type, fun hi => (h'.same hi).trans (h.same hi), fun hpair => ?_⟩
  rcases h'.pair (h.type ▸ hpair) with hsame | hnew
  · rw [hsame]
    exact h.pair hpair
  · exact .inr hnew

theorem Custody.Within.later (h : C.Within s t) : Later s t :=
  ⟨h.heap.kept, fun hc => (h.cells hc).imp fun _ hc' => ⟨hc'.1, hc'.2.type⟩⟩

theorem Custody.Within.of_heap (hs : Same C.touch s.heap t.heap) (hc : t.cells = s.cells) :
    C.Within s t :=
  ⟨hs, fun {i c} h => ⟨c, hc ▸ h, .refl C i c⟩⟩

theorem Custody.Within.of_eq (hh : t.heap = s.heap) (hc : t.cells = s.cells) : C.Within s t :=
  .of_heap (hh ▸ .refl _ _) hc

instance : IsPreorder State C.Within where
  refl _ := .of_eq rfl rfl
  trans s t u h h' := by
    refine ⟨h.heap.trans h'.heap, fun hc => ?_⟩
    obtain ⟨c', hc', hturns⟩ := h.cells hc
    obtain ⟨c'', hc'', hturns'⟩ := h'.cells hc'
    exact ⟨c'', hc'', hturns.trans hturns'⟩

theorem Custody.Target.later (hr : C.Target s r) (hst : C.Within s t) : C.Target t r :=
  hr.mono hst.later

theorem Custody.Val.within (hv : C.Val s.heap v) (hst : C.Within s t) : C.Val t.heap v :=
  hv.kept hst.heap.kept

theorem Custody.Item.within (hv : C.Item s.heap v) (hst : C.Within s t) : C.Item t.heap v :=
  hv.kept hst.heap.kept

namespace Guards

theorem giving (hop : Gives C s.steps C.touch s.heap Q op) :
    Guards C.Within C s (fun t a => Q t.heap a) (onHeap op) :=
  (moving hop Custody.Guarded.inv fun _ hsame => .of_heap hsame rfl).weaken fun _ _ _ _ h => h.2

theorem making {op : HeapM Value} (hop : Makes C s.steps C.touch s.heap τ op) :
    Guards C.Within C s (C.Loose · τ) (onHeap op) :=
  (moving hop Custody.Guarded.inv fun _ hsame => .of_heap hsame rfl).weaken fun _ _ _ _ h =>
    ⟨h.2, h.1⟩

theorem storing {op : HeapM Unit} (hv : C.Loose s τ v)
    (hop : Moves C s.steps C.touch s.heap [v] (fun _ => []) (fun _ _ => True) op) :
    Guards C.Within C s anyway (onHeap op) :=
  (moving hop (fun _ => hv.inv) fun _ hsame => .of_heap hsame rfl).weaken fun _ _ _ _ _ => trivial

theorem reading (hop : ReadOnly op) : Guards C.Within C s anyway (onHeap op) :=
  (giving (Q := fun _ _ => True) (hop.gives fun _ _ _ => trivial)).weaken fun _ _ _ _ _ => trivial

end Guards

/-! ### Reading and writing locations -/

/-- The value at a location, given the variables: nothing else but the heap is needed. -/
def placeValue (cells : Array Cell) : Place → HeapM Value
  | .variable cell => pure ((cells[cell]?.map Cell.value).getD .null)
  | .vectorSlot vector index => vectorGet vector index
  | .mapSlot map key => mapGet map key
  | .pairField pair field => pairFieldValue pair field
  | .entryField map key field => entryFieldValue map key field
  | .character text index => do characterAt (← placeValue cells text) index

/-- Reading a location is an operation on the heap. -/
theorem readPlace_apply (p : Place) (s : State) :
    readPlace p s = onHeap (placeValue s.cells p) s := by
  induction p with
  | «variable» | vectorSlot | mapSlot | pairField | entryField => rfl
  | character text index ih =>
    rw [onHeap] at ih ⊢
    dsimp only at ih ⊢
    cases hv : placeValue s.cells text s.heap with
    | ok v h =>
      rw [hv] at ih
      rw [readPlace, bind_of_ok ih, placeValue, bind_of_ok hv]
      rfl
    | error e h =>
      rw [hv] at ih
      rw [readPlace, bind_of_error ih, placeValue, bind_of_error hv]

/-- The value at a location is ready to be used and of its recorded type; in the place of a
character there is a text. -/
theorem gives_placeValue (hs : C.Guarded s) (hp : C.Site s p) (hT : ∀ slot ∈ p.slot?, T slot.1) :
    Gives C s.steps T s.heap
      (fun h v => (C.Val h v ∧ C.Kind (p.type s) v) ∧ (p.isCharacter = true → v.isTextual))
      (placeValue s.cells p) := by
  have hother : ∀ {op : HeapM Value} {p : Place}, p.isCharacter = false →
      Gives C s.steps T s.heap (fun h v => C.Val h v ∧ C.Kind (p.type s) v) op →
      Gives C s.steps T s.heap
        (fun h v => (C.Val h v ∧ C.Kind (p.type s) v) ∧ (p.isCharacter = true → v.isTextual)) op :=
    fun hp hop => hop.imp fun _ _ _ hv => ⟨hv, fun h => nomatch hp.symm.trans h⟩
  induction p with
  | «variable» i =>
    refine hother rfl (Gives.pure ?_)
    rw [Place.type, Array.getElem?_eq_getElem hp.2]
    exact ⟨hs.touchCell (Array.getElem?_eq_getElem hp.2) hp.1,
      hs.kinds (Array.getElem?_eq_getElem hp.2)⟩
  | vectorSlot loc index => exact hother rfl (gives_checkedItem hp.1 _ _)
  | mapSlot loc key =>
    obtain ⟨⟨hloc, κ, t, hshape⟩, hkey⟩ := hp
    have hget := gives_mapGet (k := s.steps) (hT (loc, key) rfl) hloc hshape hkey
    rw [← (Heap.mapAt_of_shape hshape).2] at hget
    exact hother rfl hget
  | pairField loc field => exact hother rfl (gives_pairFieldValue hp.1 field)
  | entryField loc key field =>
    exact hother rfl (gives_entryFieldValue hp.1.1 hp.2.1 hp.2.2.1 hp.2.2.2 field)
  | character text i ih =>
    refine .given (ih hp hT) fun v h₁ _ _ => (gives_characterAt v i).imp fun _ _ _ hw => ?_
    exact ⟨⟨(Custody.Bare.of_isTextual hw).val, Custody.kind_of_isTextual hw⟩, fun _ => hw⟩

theorem Custody.Site.touch_slot? (hp : C.Site s p) : ∀ slot ∈ p.slot?, C.touch slot.1 := by
  induction p with
  | mapSlot loc key => exact fun _ h => Option.mem_some.mp h ▸ hp.1.1
  | character text i ih => exact ih hp
  | «variable» | vectorSlot | pairField | entryField => exact fun _ h => nomatch h

theorem guards_readPlace (hp : C.Site s p) :
    Guards C.Within C s
      (fun t v => (C.Val t.heap v ∧ C.Kind (p.type s) v) ∧ (p.isCharacter = true → v.isTextual))
      (readPlace p) :=
  .assuming fun hs => .congr (readPlace_apply p s)
    (Guards.giving (gives_placeValue hs hp hp.touch_slot?))

theorem eq_of_read_variable {c : Cell} (hread : readPlace (.variable i) s = .ok v t)
    (hc : s.cells[i]? = some c) :
    v = c.value ∧ t = s := by
  have hread : EStateM.Result.ok ((s.cells[i]?.map Cell.value).getD .null) s = .ok v t := hread
  rw [hc] at hread
  cases hread
  exact ⟨rfl, rfl⟩

/-- Where something else than a pair was read, anything may be stored as far as pairs matter. -/
theorem Custody.Guarded.takes {u : State} {old : Value} (hs : C.Guarded s)
    (hread : readPlace p s = .ok old t)
    (hold : ∀ loc, old ≠ .pair loc) (hcells : u.cells = t.cells) : C.Takes u p v := by
  rintro i c rfl hc hpair
  obtain rfl : t = s := by
    cases hread
    rfl
  rw [hcells] at hc
  obtain ⟨loc, hloc⟩ := hs.pairs hc hpair
  exact absurd ((eq_of_read_variable hread hc).1.trans hloc) (hold loc)

theorem withCharacter_pair {i : Int} : withCharacter (.pair loc) i v h ≠ .ok w h' := by
  intro hw
  obtain ⟨k, h₁, hk, -⟩ := bind_eq_ok hw
  obtain ⟨size, h₂, hsize, -⟩ := bind_eq_ok hk
  cases hsize

/-- **A value at hand may be stored at a location of its type.**  In the place of a character only
texts are stored. -/
theorem guards_writePlace (p : Place) :
    ∀ {s v}, C.Site s p → C.Loose s (p.type s) v → (p.isCharacter = true → v.isTextual) →
    C.Takes s p v →
      Guards C.Within C s anyway (writePlace p v) := by
  induction p with
  | «variable» i =>
    intro s v hp hv _ htakes
    refine .modify fun hs => ⟨hs.setCell hv htakes, .refl _ _, fun {j c} hc => ?_⟩
    rw [Array.getElem?_modify, hc]
    split
    · next hij =>
      subst hij
      refine ⟨_, rfl, rfl, absurd hp.1, fun hpair => .inr ?_⟩
      obtain ⟨hfree, loc, rfl⟩ := htakes rfl hc hpair
      exact ⟨hfree, loc, rfl, hv.own.keep rfl⟩
    · exact ⟨c, rfl, .refl C j c⟩
  | vectorSlot loc index =>
    intro s v hp hv _ _
    exact Guards.storing hv (moves_vectorSet hp.1 hp.1 index hv.own)
  | mapSlot loc key =>
    intro s v hp hv _ _
    obtain ⟨⟨hloc, κ, t, hshape⟩, hkey⟩ := hp
    have hown := hv.own
    rw [Place.type, (Heap.mapAt_of_shape hshape).2] at hown
    exact Guards.storing hv (moves_mapSet hloc hloc hshape hkey hown)
  | pairField loc field =>
    intro s v hp hv _ _
    have hown := List.forall_mem_singleton.mpr hv.own.any
    have hkind : ∀ {a b σ τ}, s.heap.objects[loc]? = some (.pair a b σ τ) →
        C.Kind (if field == .first then σ else τ) v := fun ho => by
      have hkind := hv.own.kind
      rwa [Place.type, Heap.pairAt, ho] at hkind
    cases field with
    | first =>
      refine Guards.storing hv (moves_updatePair hp.1 hp.1 hown (fun a b => ?_) fun ho _ hb =>
        ⟨hkind ho, hb⟩)
      exact (List.Perm.swap b v []).subperm.trans (List.sublist_cons_self a [b, v]).subperm
    | second =>
      refine Guards.storing hv (moves_updatePair hp.1 hp.1 hown (fun a b => ?_) fun ho ha _ =>
        ⟨ha, hkind ho⟩)
      exact List.Sublist.subperm (.cons_cons a (List.sublist_cons_self b [v]))
  | entryField loc key field =>
    intro s v hp hv _ _
    cases field with
    | first => exact .raise _
    | second =>
      obtain ⟨⟨hloc, κ, t, hshape⟩, hkey, hhash, hkind⟩ := hp
      have hown : C.Own (s.heap.mapAt loc).2.1 s.heap v := hv.own
      rw [(Heap.mapAt_of_shape hshape).2] at hown
      rw [(Heap.mapAt_of_shape hshape).1] at hkind
      exact Guards.storing hv (moves_mapStore hloc hloc hshape hhash
        (Custody.Bare.own ⟨hkey, container?_of_hashable hhash⟩ hkind) hown)
  | character text i ih =>
    intro s v hp hv htext _
    refine .assuming fun hs => ?_
    -- the text is read and stored anew, so a character is written where its text is
    refine .bind (guards_readPlace hp) fun old t hread _ hst hold => ?_
    refine .bind (Guards.giving (gives_withCharacter i (htext rfl)))
      fun new u hrun hu htu hnew => ?_
    obtain ⟨hsite, htype⟩ := Custody.Site.mono (p := text) (hst.later.trans htu.later) hp
    obtain ⟨h, hop, rfl⟩ := onHeap_eq_ok hrun
    refine ih hsite (hu.loose (.of_isTextual hnew.2) ?_) (fun _ => hnew.2) (hs.takes hread ?_ rfl)
    · rw [htype]
      exact hold.1.2.fills hnew.1
    · rintro loc rfl
      exact withCharacter_pair hop

/-! ### References -/

theorem isTextual_of_coerce (hw : coerce { base := .char } v h = .ok w h') : w.isTextual := by
  rw [coerce_of_scalar rfl rfl] at hw
  split at hw
  · exact (answers_toCharacter (P := Value.isTextual) (fun _ => nofun) _).of_ok hw
  · cases hw

theorem guards_read (hr : C.Target s r) : Guards C.Within C s (fun t v => C.Val t.heap v) r.read :=
  (guards_readPlace hr.site).weaken fun _ _ _ _ hv => hv.1.1

/-- **A value that is assigned is made anew first.**  Nothing is assigned to a variable that is to
keep its pair. -/
theorem guards_assign (hr : C.Target s r) (hv : C.Item s.heap v)
    (hspares : ∀ {w h}, coerceTo r.type v s.heap = .ok w h → C.Spares r) :
    Guards C.Within C s anyway (r.assign v) := by
  refine .bind (Guards.making (makes_coerceTo r.type s.heap v hv)) fun w t hw ht hst hloose => ?_
  obtain ⟨h, hrun, rfl⟩ := onHeap_eq_ok hw
  have hrt := hr.later hst
  refine guards_writePlace r.place hrt.site (hrt.type ▸ hloose) (fun hchar => ?_)
    fun {i c} hi hc hpair => ?_
  · rw [hr.type_of_isCharacter hchar] at hrun
    exact isTextual_of_coerce hrun
  · refine ⟨hspares hrun i hi, ?_⟩
    rw [hrt.type_eq hi hc] at hrun
    exact (coerce_pair_eq_ok hpair hrun).2

theorem guards_pull : Guards C.Within C s anyway pull := by
  refine .get ?_
  split
  · exact .raise _
  · next token rest _ =>
    refine .bind (.modify fun hs => ⟨hs.withStreams rest s.output, .of_eq rfl rfl⟩) ?_
    exact fun _ _ _ _ _ _ => .pure trivial

/-- A variable that is to keep its pair holds a pair. -/
theorem Custody.Guarded.spares (hs : C.Guarded s)
    (hpair : ∀ {i : Nat} {c : Cell} {loc : Nat}, r.place = .variable i → s.cells[i]? = some c →
      c.type.isPair = true → c.value ≠ .pair loc) : C.Spares r := by
  intro i hi hheld
  obtain ⟨c, hc, hispair⟩ := hs.held hheld
  obtain ⟨loc, hloc⟩ := hs.pairs hc hispair
  exact hpair hi hc hispair hloc

/-- A step fails at a pair. -/
theorem guards_stepReference (delta : Int) (hr : C.Target s r) :
    Guards C.Within C s (fun t v => C.Val t.heap v) (stepReference r delta) := by
  refine .assuming fun hs => .bind (guards_read hr) fun old t hread _ hst hold => ?_
  refine .bind (Guards.giving (gives_applyBinary .add hold.item)) fun new u hrun _ htu hnew => ?_
  have hspares : C.Spares r := hs.spares fun {i c loc} hi hc _ hloc => by
    rw [Reference.read, hi] at hread
    obtain ⟨h, hrun, -⟩ := onHeap_eq_ok hrun
    rw [(eq_of_read_variable hread hc).1, hloc] at hrun
    cases hrun
  refine .bind (guards_assign (hr.later (trans_of C.Within hst htu)) hnew.item fun _ => hspares)
    fun _ w _ _ huw _ => ?_
  exact .pure (hold.within (trans_of C.Within htu huw))

theorem guards_storeWith (op : AssignOp) (hr : C.Target s r) (hspares : C.Spares r)
    (hv : C.Item s.heap v) :
    Guards C.Within C s (fun t w => C.Val t.heap w) (storeWith op r v) := by
  have hrest : ∀ {t : State} {w : Value}, C.Within s t → C.Item t.heap w →
      Guards C.Within C t (fun u w => C.Val u.heap w) (r.assign w >>= fun _ => r.read) := by
    intro t w hst hw
    refine .bind (guards_assign (hr.later hst) hw fun _ => hspares) fun _ u _ _ htu _ => ?_
    exact guards_read (hr.later (trans_of C.Within hst htu))
  rw [storeWith]
  split
  · exact hrest (refl_of C.Within s) hv
  · refine .bind (guards_read hr) fun old t _ _ hst hold => ?_
    refine .bind (Guards.giving (gives_applyBinary _ hold.item)) fun w u _ _ htu hw => ?_
    exact hrest (trans_of C.Within hst htu) hw.item

theorem isPlain_of_readToken {token : String} {base : Option BaseType}
    (hv : readToken token base h = .ok v h') :
    v.isPlain = true := by
  have hop := produces_readToken (P := fun v => v.isPlain = true) Value.isPlain_of_isSimple
    token base
  generalize readToken token base = op at hop hv
  cases hop with
  | answer hop => exact hop.of_ok hv
  | nan =>
    obtain ⟨mark, k, -, hv⟩ := bind_eq_ok hv
    cases hv
    rfl

/-- So does input, which is no pair. -/
theorem guards_readInto (hr : C.Target s r) : Guards C.Within C s anyway (readInto r) := by
  refine .bind guards_pull fun token t _ _ hst _ => ?_
  refine .bind (Guards.giving (produces_readToken .of_isSimple token _).bare)
    fun v u hrun hu htu hv => ?_
  have hru := hr.later (trans_of C.Within hst htu)
  refine guards_assign hru hv.item fun {w h} hcoerce => hu.spares fun {i c _} hi hc hpair _ => ?_
  obtain ⟨k, hrun, -⟩ := onHeap_eq_ok hrun
  rw [hru.type_eq hi hc] at hcoerce
  obtain ⟨parts, k', hparts⟩ := (coerce_pair_eq_ok hpair hcoerce).1
  exact absurd hparts (pairParts_of_isPlain (isPlain_of_readToken hrun))

theorem withoutLast_pair : withoutLast (.pair loc) h ≠ .ok w h' := by
  intro hw
  obtain ⟨vacant, h₁, hvacant, hw⟩ := bind_eq_ok hw
  cases hvacant
  cases hw

/-- A text that is changed stays a text, or what was there in its place stays what it may be; a text
that is cleared needs a location that may hold a text.  A pair is not changed; it could only be
replaced by an empty text. -/
theorem guards_changeText (hr : C.Target s r) (hclear : change = .clear → C.Kind r.type (.text []))
    (htakes : change = .clear → ∀ {i : Nat} {c : Cell}, r.place = .variable i →
      s.cells[i]? = some c →
      c.type.isPair ≠ true) : Guards C.Within C s anyway (changeText change name args r) := by
  refine .assuming fun hs => .bind (guards_readPlace hr.site) fun old t hold ht hst hval => ?_
  have hrt := hr.later hst
  -- a text that is made of the old value is stored as it is, and a pair is no text
  have hchanged : ∀ {op : HeapM Value}, Gives C t.steps C.touch t.heap
      (fun h new => C.Bare h new ∧ old.Fills new ∧ (old.isTextual → new.isTextual)) op →
      (∀ {loc w h'}, old = .pair loc → op t.heap ≠ .ok w h') →
      Guards C.Within C t anyway (onHeap op >>= fun new => r.write new) := by
    intro op hop hpair
    refine .bind (Guards.giving hop) fun new u hrun hu htu hnew => ?_
    have hru := hrt.later htu
    obtain ⟨h, hop, rfl⟩ := onHeap_eq_ok hrun
    refine guards_writePlace r.place hru.site (hru.type ▸ hu.loose hnew.1 ?_)
      (fun hc => hnew.2.2 (hval.2 hc))
      (hs.takes hold (fun loc hloc => hpair hloc hop) rfl)
    exact Custody.Kind.fills (hr.type ▸ hval.1.2) hnew.2.1
  cases change with
  | clear =>
    refine guards_writePlace r.place hrt.site (hrt.type ▸ ht.loose (.of_isSimple rfl) (hclear rfl))
      (fun _ => nofun) fun {i c} hi hc hpair => ?_
    rw [Reference.read, hi] at hold
    cases hold
    exact absurd hpair (htakes rfl hi hc)
  | popBack => exact hchanged (gives_withoutLast hval.1.1.item) fun hloc => hloc ▸ withoutLast_pair
  | append =>
    dsimp only
    split
    · next arg =>
      split
      · next htext =>
        have harg : arg.isTextual := fun h => by rw [h] at htext; cases htext
        exact hchanged (gives_plainSum hval.1.1.item harg) fun hloc => hloc ▸ nofun
      · exact .raise _
    · exact .raise _

/-! ### Names and new locations -/

theorem guards_resolve [IsPreorder State R] (name : String) :
    Guards R C s (fun t r => t = s ∧ s.lookup? name = some r ∧ C.Target t r) (resolve name) := by
  refine .assuming fun hs => .get ?_
  split
  · next r hr => exact .pure ⟨rfl, hr, (hs.lookup? hr).target⟩
  · exact .raise _

theorem guards_slotOf? [IsPreorder State R] {container index : Value} (hc : C.Val s.heap container)
    (hi : C.Item s.heap index) :
    Guards R C s (fun t o => ∀ r, o = some r → C.Target t r) (slotOf? container index) := by
  unfold slotOf?
  split
  · refine .get (.pure fun r hr => ?_)
    cases hr
    exact ⟨⟨hc.touch rfl, hc.item.backs⟩, rfl⟩
  · refine .get (.pure fun r hr => ?_)
    cases hr
    exact ⟨⟨⟨hc.touch rfl, hc.item.backs⟩, hi⟩, rfl⟩
  · exact .pure nofun

theorem guards_fieldOf? [IsPreorder State R] {owner : Value} (name : String)
    (hv : C.Val s.heap owner) :
    Guards R C s (fun t o => ∀ r, o = some r → C.Target t r) (fieldOf? owner name) := by
  unfold fieldOf?
  split
  · refine .get (.pure fun r hr => ?_)
    cases hr
    exact ⟨⟨hv.touch rfl, hv.item.backs⟩, rfl⟩
  · refine .get (.pure fun r hr => ?_)
    cases hr
    obtain ⟨hmap, hkey, hhash, κ, t, hshape, hkind⟩ := hv.item.of_entry
    rw [← (Heap.mapAt_of_shape hshape).1] at hkind
    exact ⟨⟨⟨C.point_touch hmap, κ, t, hshape⟩, hkey, hhash, hkind⟩, rfl⟩
  · exact .pure nofun

theorem Custody.within_newVariable (s : State) (cell : Cell) :
    C.Within s { s with cells := s.cells.push cell } :=
  ⟨.refl _ _, fun {i c} hc => ⟨c, Custody.getElem?_newVariable hc cell, .refl C i c⟩⟩

theorem guards_newVariable {type : TypeExpr} (hR : R s { s with cells := s.cells.push ⟨v, type⟩ })
    (hv : C.Loose s (some type) v) (hpairs : type.Pairs v) :
    Guards R C s C.Anew (newVariable v type) := by
  refine .of_ok rfl fun hs => ?_
  have hkeep : C.keepCell s.cells.size := hs.freshCell (Nat.le_refl _)
  refine ⟨hs.newCell hv hpairs, hR, ⟨⟨C.keepCell_touchCell hkeep, by simp⟩, by simp [Place.type]⟩,
    ⟨_, rfl, hkeep⟩,
    fun i hi hheld => ?_⟩
  -- the variables that are to keep their pairs were there before
  cases hi
  obtain ⟨c, hc, -⟩ := hs.held hheld
  exact absurd (Array.getElem?_eq_some_iff.mp hc).1 (Nat.lt_irrefl _)

/-- What is converted to a pair type is a pair. -/
theorem Guards.coerced {type : TypeExpr}
    (hc : Guards R C s (C.Loose · (some type)) (onHeap (coerce type v))) :
    Guards R C s (fun t w => C.Loose t (some type) w ∧ type.Pairs w) (onHeap (coerce type v)) :=
  hc.noting.weaken fun _ _ _ _ h =>
    ⟨h.1, fun ht => (onHeap_eq_ok h.2).elim fun _ hrun => (coerce_pair_eq_ok ht hrun.1).2⟩

theorem guards_defaultOf (type : TypeExpr) :
    Guards C.Within C s (fun t w => C.Loose t (some type) w ∧ type.Pairs w)
    (onHeap (defaultOf type)) :=
  (Guards.making (makes_defaultOf type s.heap)).noting.weaken fun _ _ _ _ h =>
    ⟨h.1, (onHeap_eq_ok h.2).elim fun _ hrun => pairs_of_defaultOf hrun.1⟩

theorem Guards.copyInto [IsPreorder State R] {c : Run Value} {type : TypeExpr}
    (hcoerce : ∀ {t v}, C.Val t.heap v → Guards R C t (C.Loose · (some type))
      (onHeap (coerce type v)))
    (hnew : ∀ t cell, R t { t with cells := t.cells.push cell })
    (hc : Guards R C s (fun t v => C.Val t.heap v) c) : Guards R C s C.Anew (copyInto type c) :=
  .bind hc fun _ _ _ _ _ hv => .bind (hcoerce hv).coerced fun _ _ _ _ _ hw =>
    guards_newVariable (hnew _ _) hw.1 hw.2

theorem guards_declareName (hr : C.Bound s (name, r)) :
    Guards C.Within C s anyway (declareName name r) := by
  obtain ⟨globals, frames, hrun, hnames⟩ := exists_of_declareName name r s
  refine .of_ok hrun fun hs => ?_
  obtain ⟨hglobals, hframes⟩ := hnames (C.Bound s) hr hs.globals hs.frames
  exact ⟨hs.withNames s.depth hglobals hframes, .of_eq rfl rfl, trivial⟩

/-! ### Counters, scopes and calls -/

section Control

theorem guards_count [IsPreorder State R] (limits : Limits) {n : Int}
    (hR : R s { s with steps := s.steps + n.toNat }) :
    Guards R C s (fun t _ => t = { s with steps := s.steps + n.toNat }) (charge limits n) := by
  rw [charge]
  split
  · next hn =>
    have hsteps : s.steps + n = s.steps + n.toNat := by omega
    have hcnt : Guards R C s (fun t _ => t = { s with steps := s.steps + n.toNat })
        (modify fun s => { s with steps := s.steps + n } : Run PUnit) := by
      refine .of_ok rfl fun hs => ?_
      dsimp only
      rw [hsteps]
      exact ⟨hs.count n.toNat, hR, rfl⟩
    refine .bind hcnt fun _ t _ _ _ ht => .get ?_
    split
    · exact .raise _
    · exact .pure ht
  · refine .pure ?_
    rw [Int.toNat_of_nonpos (by omega)]
    simp

theorem guards_charge (limits : Limits) (n : Int) :
    Guards C.Within C s (fun t _ => t = { s with steps := s.steps + n.toNat }) (charge limits n) :=
  guards_count limits (.of_eq rfl rfl)

/-- An array may have as many elements as steps were counted for it. -/
theorem Custody.Guarded.fit_counted (hs : C.Guarded s) (n : Int) :
    C.fit (s.steps + n.toNat) n.toNat := by
  have hfit := C.fit_grow n.toNat hs.inv.steps (C.fit_zero hs.inv.steps)
  rwa [Nat.zero_add] at hfit

/-- A vector may have as many elements more as steps were counted for it. -/
theorem Custody.Guarded.fit_refilled (hs : C.Guarded s) (loc : Nat) (n : Int) :
    C.fit (s.steps + (n - (s.heap.vectorAt loc).2.size).toNat) n.toNat := by
  have hfit := (hs.inv.vectorAt loc).1
  refine C.fit_le ?_ (C.fit_grow (n - (s.heap.vectorAt loc).2.size).toNat hs.inv.steps hfit)
  omega

/-- The steps that are counted before a vector is filled suffice for its elements. -/
theorem guards_chargeFill (limits : Limits) (loc : Nat) (method : VectorMethod)
    (args : List Value) :
    Guards C.Within C s
      (fun t _ => method = .resize ∨ method = .assign → ∀ count ∈ args.head?, ∀ h n,
        asIndex count h = .ok n h → C.fit t.steps n.toNat)
      (chargeFill limits loc method args) := by
  -- the number of elements does not depend on the heap
  have hsame : ∀ {count : Value} {n n' : Int} {t : State} {h : Heap},
      onHeap (asIndex count) s = .ok n t → asIndex count h = .ok n' h → t = s ∧ n' = n := by
    intro count n n' t h hn hn'
    obtain ⟨h₁, hrun, rfl⟩ := onHeap_eq_ok hn
    obtain rfl := (ReadOnly.asIndex count).ok hrun
    exact ⟨rfl, (Oblivious.asIndex count).eq_of_ok hn' hrun⟩
  unfold chargeFill
  split
  · next count rest =>
    refine .get (.bind (Guards.reading (.asIndex count)) fun n t hn ht _ _ => ?_)
    refine (guards_charge limits _).weaken fun u _ _ _ hu _ count' hcnt' h n' hn' => ?_
    obtain rfl := Option.some.inj hcnt'
    obtain ⟨rfl, rfl⟩ := hsame hn hn'
    subst hu
    exact ht.fit_refilled loc n'
  · next count rest =>
    refine .bind (Guards.reading (.asIndex count)) fun n t hn ht _ _ => ?_
    refine (guards_charge limits _).weaken fun u _ _ _ hu _ count' hcnt' h n' hn' => ?_
    obtain rfl := Option.some.inj hcnt'
    obtain ⟨rfl, rfl⟩ := hsame hn hn'
    subst hu
    exact ht.fit_counted n'
  · next hresize hassign =>
    refine .pure fun hmethod count hcnt => ?_
    obtain ⟨rest, rfl⟩ : ∃ rest, args = count :: rest := List.head?_eq_some_iff.mp hcnt
    rcases hmethod with rfl | rfl
    · exact absurd rfl (hresize count rest rfl)
    · exact absurd rfl (hassign count rest rfl)

/-- The names of a scope or a call are those from before when it ends. -/
theorem Guards.restoring {c d : Run Unit} {depth : Nat} {outer : State → Nat}
    (hframes : ∀ frame ∈ frames, ∀ b ∈ frame, C.Guarded s → C.Bound s b)
    (hd : d s = restored s.frames outer (c { s with frames, depth }))
    (hc : Guards C.Within C { s with frames, depth } anyway c) : Guards C.Within C s anyway d := by
  refine Maintains.restoring (fun hs => ?_) (fun {t} hs ht hst => ?_) id hd hc
  · exact hs.withNames depth hs.globals fun frame hfr b hb => hframes frame hfr b hb hs
  · have hlater : Later s t := ⟨hst.later.heap, hst.later.cells⟩
    refine ⟨ht.withNames (outer t) ht.globals fun frame hfr b hb => ?_, hst.heap, hst.cells⟩
    exact (hs.frames frame hfr b hb).mono hlater

variable {c : Run Unit}

theorem Guards.inScope (hc : Guards C.Within C { s with frames := [] :: s.frames } anyway c) :
    Guards C.Within C s anyway (inScope c) := by
  refine .restoring (fun frame hfr b hb hs => ?_) (inScope_apply c s) hc
  rcases List.mem_cons.mp hfr with rfl | hfr
  · cases hb
  · exact hs.frames frame hfr b hb

theorem Guards.calling (hfr : ∀ b ∈ frame, C.Bound s b)
    (hc : Guards C.Within C { s with frames := [frame], depth := s.depth + 1 } anyway c) :
    Guards C.Within C s anyway (calling frame c) := by
  refine .restoring (fun frame' hmem b hb _ => ?_) (calling_apply frame c s) hc
  exact hfr b (List.mem_singleton.mp hmem ▸ hb)

end Control

end SmallCpp
