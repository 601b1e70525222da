import SmallCpp.Proofs.Machine.Ownership

/-!
# Calls by value

A call of a function whose parameters are no references leaves the local variables of the caller
alone. The names that the function sees lead to containers of the outermost scope, and to copies of
the arguments.  A local variable of the caller is none of them, and what it holds is held by nothing
else.

The arguments are evaluated in the scope of the caller.  If they change no location, then they can
add entries to maps that they read, and nothing else: by subscript, or through a reference to an
element.

## Main results

* `Custody.Guarded.apart` — **what a variable holds is apart from what other names lead to.**
* `call_by_value` — **a call by value keeps the local variables of the caller.**
-/

namespace SmallCpp

variable {s : State} {loc i : Nat} {r : Reference}

/-! ### What names lead to -/

/-- The variables that the names stand for. -/
def Frame.Cells (names : Frame) (i : Nat) : Prop :=
  ∃ b ∈ names, i ∈ b.2.place.cell?

def Frame.Keys (names : Frame) (key : Value) : Prop :=
  ∃ b ∈ names, key ∈ b.2.place.key?

/-- The containers in the variables of the names, and those that the names stand for a part of. -/
def State.Roots (s : State) (names : Frame) (loc : Nat) : Prop :=
  (∃ i c, names.Cells i ∧ s.cells[i]? = some c ∧ c.value.container? = some loc) ∨
    ∃ b ∈ names, loc ∈ b.2.place.object?

def State.names (s : State) : Frame :=
  s.globals ++ s.frames.flatten

/-- The containers that the visible names lead to. -/
def State.Live (s : State) : Nat → Prop :=
  s.heap.Reach fun loc => s.Roots s.names loc ∨ ∃ key, s.names.Keys key ∧ key.container? = some loc

/-- The value is no position, no element of a map that was found, and no list. -/
def Value.isSolid : Value → Bool
  | .iterator _ _ | .entry _ _ _ | .list _ => false
  | _ => true

/-- Nothing that the visible names lead to is a position, an element of a map that was found, or a
list. -/
structure State.Solid (s : State) : Prop where
  cells : ∀ {i : Nat} {c}, s.names.Cells i → s.cells[i]? = some c → c.value.isSolid = true
  keys : ∀ {key}, s.names.Keys key → key.isSolid = true
  containers : ∀ {loc : Nat} {o}, s.Live loc → s.heap.objects[loc]? = some o → ∀ v ∈ o.values,
    v.isSolid = true

/-- The reference is to a variable that holds the same value in both states.  The containers that
the value leads to hold the same too, except for maps that have new entries, with initial values
under subscripts in `read`. -/
def State.Keeps (read : Nat → Value → Prop) (s t : State) (r : Reference) : Prop :=
  ∃ i c, r.place = .variable i ∧ s.cells[i]? = some c ∧ t.cells[i]? = some c ∧
    ∀ {loc o}, s.heap.Inside c.value loc → s.heap.objects[loc]? = some o →
      ∃ o', t.heap.objects[loc]? = some o' ∧ o.Gains (read loc) t.heap o'

/-- No value at all is a position, an element of a map that was found, or a list. -/
theorem State.solid_of_forall (hcells : ∀ c ∈ s.cells, c.value.isSolid = true)
    (hkeys : ∀ b ∈ s.names, ∀ key ∈ b.2.place.key?, key.isSolid = true)
    (hobjs : ∀ o ∈ s.heap.objects, ∀ v ∈ o.values, v.isSolid = true) : s.Solid where
  cells _ hc := hcells _ (Array.mem_of_getElem? hc)
  keys := fun ⟨b, hb, hkey⟩ => hkeys b hb _ hkey
  containers _ ho := hobjs _ (Array.mem_of_getElem? ho)

/-! ### Custody of the arguments -/

/-- What is live may be read, and what is new may be stored. -/
def State.inUse (s : State) : Custody :=
  { Custody.everything with
    look := fun loc => s.Live loc ∨ s.heap.objects.size ≤ loc
    point := fun _ => False
    touch := fun loc => s.Live loc ∨ s.heap.objects.size ≤ loc
    keep := fun loc => s.heap.objects.size ≤ loc
    touchCell := fun i => s.names.Cells i ∨ s.cells.size ≤ i
    keepCell := fun i => s.cells.size ≤ i
    touch_look := id
    point_touch := False.elim
    keep_touch := .inr
    keepCell_touchCell := .inr }

section Custody

variable {C : Custody}

/-- A solid value has no part that could not be copied. -/
theorem Custody.Item.of_isSolid {D : Custody} {h : Heap} {v : Value} (hv : C.Item h v)
    (hsolid : v.isSolid = true) (hlook : ∀ {loc}, v.container? = some loc → D.look loc) :
    D.Item h v := by
  cases hv with
  | plain hp hback => exact .plain hp hback
  | container hc _ hback => exact .container hc (hlook hc) hback
  | list | iterator | entry => cases hsolid

/-- **In a solid state the live containers are closed.** -/
theorem Custody.Guarded.inUse (hs : C.Guarded s) (hsolid : s.Solid)
    (htouch : ∀ {loc}, C.touch loc) (hcell : ∀ {i}, C.touchCell i) : s.inUse.Guarded s := by
  have hbeyond : ∀ {loc : Nat} {o : Object} {p : Prop}, s.heap.objects[loc]? = some o →
      s.heap.objects.size ≤ loc → p := fun ho hloc =>
    absurd (Array.getElem?_eq_some_iff.mp ho).1 (Nat.not_lt.mpr hloc)
  have hbeyondCell : ∀ {i : Nat} {c : Cell} {p : Prop}, s.cells[i]? = some c →
      s.cells.size ≤ i → p :=
    fun hc hi => absurd (Array.getElem?_eq_some_iff.mp hc).1 (Nat.not_lt.mpr hi)
  -- what is inside a container in use is in use
  have hinner : ∀ {loc : Nat} {o}, s.heap.objects[loc]? = some o → s.Live loc →
      ∀ v ∈ o.values, s.inUse.Val s.heap v := by
    intro loc o ho hloc v hv
    have hlive : ∀ {l}, v.container? = some l → s.inUse.touch l := fun hc =>
      .inl (hloc.inner ho hv hc)
    exact ⟨(hs.inv.touch ho htouch v hv).item.of_isSolid (hsolid.containers hloc ho v hv)
      hlive, hlive⟩
  have hbd : ∀ b ∈ s.names, C.Bound s b → s.inUse.Bound s b := by
    intro b hb hr
    refine ⟨⟨hr.target.site.transfer False.elim (fun i hi => .inl ⟨b, hb, hi⟩) (fun loc hloc => ?_)
      fun key hkey hitem => ?_, hr.target.type⟩, .of_frees trivial⟩
    · exact .inl (.root (.inl (.inr ⟨b, hb, hloc⟩)))
    · exact hitem.of_isSolid (hsolid.keys ⟨b, hb, hkey⟩) fun hc =>
        .inl (.root (.inr ⟨key, ⟨b, hb, hkey⟩, hc⟩))
  constructor
  · exact hs.inv.transfer (fun _ _ => trivial) False.elim id
      (fun ho hloc v hv => hloc.elim (fun h => (hinner ho h v hv).item) (hbeyond ho))
      (fun ho hloc v hv => hloc.elim (fun h => (hinner ho h v hv).touch) (hbeyond ho))
      fun ho hloc => hbeyond ho hloc
  · intro i c hc hi
    refine hi.elim (fun hi => ?_) (hbeyondCell hc)
    have hlive : ∀ {l}, c.value.container? = some l → s.inUse.touch l := fun hl =>
      .inl (.root (.inl (.inl ⟨i, c, hi, hc, hl⟩)))
    exact ⟨(hs.touchCell hc hcell).item.of_isSolid (hsolid.cells hi hc) hlive, hlive⟩
  · exact fun hc hi => hbeyondCell hc hi
  · exact fun hc => (hs.kinds hc).mono False.elim
  · exact hs.pairs
  · exact False.elim
  · exact id
  · exact fun b hb => hbd b (List.mem_append_left _ hb) (hs.globals b hb)
  · exact fun frame hfr b hb =>
      hbd b (List.mem_append_right _ (List.mem_flatten.mpr ⟨frame, hfr, hb⟩))
        (hs.frames frame hfr b hb)

/-! ### Custody of the call -/

/-- What the names lead to may be used, and what is new.  What `C` allows to copy may be copied. -/
def State.confined (C : Custody) (s : State) (names : Frame) : Custody :=
  { Custody.everything with
    look := fun loc => C.look loc ∨ s.heap.Reach (s.Roots names) loc ∨ s.heap.objects.size ≤ loc
    point := fun loc => s.heap.Reach (s.Roots names) loc ∨ s.heap.objects.size ≤ loc
    touch := fun loc => s.heap.Reach (s.Roots names) loc ∨ s.heap.objects.size ≤ loc
    keep := fun loc => s.heap.Reach (s.Roots names) loc ∨ s.heap.objects.size ≤ loc
    touchCell := fun i => names.Cells i ∨ s.cells.size ≤ i
    keepCell := fun i => names.Cells i ∨ s.cells.size ≤ i
    touch_look := .inr
    point_touch := id
    keep_touch := id
    keepCell_touchCell := id }

theorem State.permits_confined (names : Frame) (e : Expr) : (s.confined C names).Permits e :=
  ⟨Custody.allows_of_forall (fun _ => trivial) id (fun _ _ => trivial) e, False.elim,
    e.assignsOnly_of_forall fun _ => trivial⟩

theorem Custody.Guarded.touch_of_reach (hs : C.Guarded s) {names : Frame}
    (hnames : ∀ b ∈ names, C.Target s b.2) (hloc : s.heap.Reach (s.Roots names) loc) :
    C.touch loc := by
  induction hloc with
  | root hroot =>
    rcases hroot with ⟨i, c, ⟨b, hb, hi⟩, hc, hloc⟩ | ⟨b, hb, hloc⟩
    · exact (hs.touchCell hc ((hnames b hb).site.allowed.1 i hi).1).touch hloc
    · exact ((hnames b hb).site.allowed.2 _ hloc).1
  | inner _ ho hv hc ih => exact (hs.inv.touch ho ih _ hv).touch hc

/-- **Names that may be used lead to a part of the containers that is closed**, if there are no
positions. -/
theorem Custody.Guarded.confined (hs : C.Guarded s) (hpoint : ∀ {loc}, ¬C.point loc) {names : Frame}
    (hnames : ∀ b ∈ names, C.Target s b.2) (hglobals : s.globals ⊆ names) :
    (s.confined C names).Guarded { s with frames := [] } ∧
      ∀ b ∈ names, (s.confined C names).Bound { s with frames := [] } b := by
  let D := s.confined C names
  have hitem : ∀ {v}, C.Item s.heap v → D.Item s.heap v := fun hv =>
    hv.mono (.refl _) .inl (fun h => absurd h hpoint) (fun _ => trivial) False.elim
  -- what may be copied now could be copied before, or does not exist yet
  have hlook : ∀ {loc : Nat} {o : Object}, s.heap.objects[loc]? = some o → D.look loc →
      C.look loc := by
    intro loc o ho hloc
    rcases hloc with hloc | hloc | hloc
    · exact hloc
    · exact C.touch_look (hs.touch_of_reach hnames hloc)
    · exact absurd (Array.getElem?_eq_some_iff.mp ho).1 (Nat.not_lt.mpr hloc)
  -- what the names lead to is closed under looking inside
  have hinner : ∀ {loc : Nat} {o : Object}, s.heap.objects[loc]? = some o → D.touch loc →
      ∀ v ∈ o.values, ∀ {l}, v.container? = some l → D.touch l := by
    intro loc o ho hloc v hv l hc
    rcases hloc with hloc | hloc
    · exact .inl (hloc.inner ho hv hc)
    · exact absurd (Array.getElem?_eq_some_iff.mp ho).1 (Nat.not_lt.mpr hloc)
  have hcell : ∀ {i : Nat} {c}, s.cells[i]? = some c → D.touchCell i →
      D.Own none s.heap c.value := by
    intro i c hc hi
    rcases hi with ⟨b, hb, hi⟩ | hi
    · refine ⟨hitem (hs.touchCell hc ((hnames b hb).site.allowed.1 i hi).1).item, fun hloc => ?_,
        Custody.kind_none⟩
      exact .inl (.root (.inl ⟨i, c, ⟨b, hb, hi⟩, hc, hloc⟩))
    · exact absurd (Array.getElem?_eq_some_iff.mp hc).1 (Nat.not_lt.mpr hi)
  have hbd : ∀ b ∈ names, D.Bound { s with frames := [] } b := by
    intro b hb
    have hsite : D.Site s b.2.place :=
      (hnames b hb).site.transfer False.elim (fun i hi => .inl ⟨b, hb, hi⟩)
      (fun loc hloc => .inl (.root (.inr ⟨b, hb, hloc⟩))) fun _ _ => hitem
    exact Bound.mono (s := s) (t := { s with frames := [] }) (.of_eq rfl rfl)
      ⟨⟨hsite, (hnames b hb).type⟩, .of_frees trivial⟩
  have hguarded : D.Guarded { s with frames := [] } := by
    constructor
    · exact hs.inv.transfer (fun _ _ => trivial) False.elim .inr
        (fun ho hloc v hv => hitem (hs.inv.look ho (hlook ho hloc) v hv)) hinner hinner
    · exact fun hc hi => (hcell hc hi).val
    · exact hcell
    · exact fun hc => (hs.kinds hc).mono False.elim
    · exact hs.pairs
    · exact False.elim
    · exact .inr
    · exact fun b hb => hbd b (hglobals hb)
    · exact nofun
  exact ⟨hguarded, hbd⟩

/-! ### Separation -/

/-- What a container that may be stored leads to may be stored. -/
theorem Custody.Guarded.keep_of_reach (hs : C.Guarded s) {R : Nat → Prop}
    (hR : ∀ {loc}, R loc → C.keep loc) (hloc : s.heap.Reach R loc) : C.keep loc := by
  induction hloc with
  | root hroot => exact hR hroot
  | inner _ ho hv hc ih => exact (hs.inv.keep ho ih _ hv).keep hc

/-- **What a variable holds is apart from what other names lead to**, if these stand for other
variables, or for parts of containers that the variable may not hold. -/
theorem Custody.Guarded.apart (hs : C.Guarded s) {c : Cell} (hc : s.cells[i]? = some c)
    (hi : C.keepCell i) {names : Frame} (hcells : ¬names.Cells i)
    (hobjs : ∀ b ∈ names, ∀ loc ∈ b.2.place.object?, ¬C.keep loc)
    (hloc : s.heap.Inside c.value loc) : ¬s.heap.Reach (s.Roots names) loc := by
  have hsingle := hs.inv.single
  have hheld : ∀ {l}, c.value.container? = some l → 0 < uses l s.values :=
    uses_pos (State.mem_values hc)
  intro hreach
  refine hreach.disjoint (S := fun l => c.value.container? = some l) (fun l => ?_)
    (fun {l} hl => ?_)
    (fun {l} hroot hinside => ?_) hloc
  · have := hsingle l
    omega
  · have := hsingle l
    have := hheld hl
    omega
  · rcases hroot with ⟨j, c', hj, hc', hl⟩ | ⟨b, hb, hl⟩
    · cases hinside with
      | root hroot =>
        have htwo : 2 ≤ uses l (s.cells.toList.flatMap fun c => [c.value]) :=
          two_le_uses _ (i := i) (j := j) (by rintro rfl; exact hcells hj) (by simpa using hc)
            (by simpa using hc') (List.mem_singleton.mpr rfl) (List.mem_singleton.mpr rfl) hroot hl
        rw [← List.map_eq_flatMap] at htwo
        have := hsingle l
        have : 2 ≤ uses l s.values := htwo
        omega
      | inner _ ho hv hl' =>
        have := hsingle l
        have := Heap.uses_pos_of_holder ho hv hl'
        have := uses_pos (State.mem_values hc') hl
        omega
    · exact hobjs b hb l hl (hs.keep_of_reach (hs.keepCell hc hi).keep hinside)

end Custody

/-! ### Calls -/

/-- The names of the caller do not matter inside a call. -/
theorem stateAfter_invoke (m : Machine) (run : RunStmt) (n : Nat) (f : Function) (frame : Frame)
    (s : State) (frames : List Frame) :
    stateAfter (invoke m run n f frame) { s with frames } =
      { stateAfter (invoke m run n f frame) s with frames } := by
  rw [stateAfter, stateAfter, invoke_apply, invoke_apply]
  by_cases hdepth : m.limits.maxCallDepth ≤ (s.depth : Int)
  · rw [if_pos hdepth, if_pos hdepth]
    rfl
  · rw [if_neg hdepth, if_neg hdepth]
    have hres : ∀ (v : Value) (t : State) (frames : List Frame),
        Ending.state (onHeap (resultOf f.signature.returns v) { t with frames }) =
          { Ending.state (onHeap (resultOf f.signature.returns v) t) with frames } := by
      intro v t frames
      simp only [onHeap]
      cases resultOf f.signature.returns v t.heap <;> rfl
    cases hbody : runAll run (n + 2) (f.body.getD []) { s with frames := [frame], depth :=
      s.depth + 1 } with
    | ok a t =>
      simp only [bind, EStateM.bind, returning, calling, hbody]
      exact hres .null { t with frames := s.frames, depth := s.depth } frames
    | error e t =>
      simp only [bind, EStateM.bind, returning, calling, hbody]
      cases e with
      | returned v => exact hres v { t with frames := s.frames, depth := s.depth } frames
      | _ => rfl

section Keeping

variable {M : Nat → Value → Prop} {t : State} {c : Cell}

theorem Expanded.keeps (h : Expanded M s t) (hr : r.place = .variable i)
    (hc : s.cells[i]? = some c) : s.Keeps M t r :=
  ⟨i, c, hr, hc, h.cells hc, fun _ ho => h.heap.object ho⟩

/-- What uses neither a variable nor what it holds keeps it. -/
theorem Expanded.keeps_within {C : Custody} {u : State} (h : Expanded M s t) (htu : C.Within t u)
    (hr : r.place = .variable i) (hc : s.cells[i]? = some c) (hi : ¬C.touchCell i)
    (hapart : ∀ {loc}, t.heap.Inside c.value loc → loc < t.heap.objects.size → ¬C.touch loc) :
    s.Keeps M u r := by
  have hsame : ∀ {loc : Nat} {o : Object}, t.heap.Inside c.value loc →
    t.heap.objects[loc]? = some o →
      u.heap.objects[loc]? = some o := fun hloc ho =>
    htu.heap.object ho (hapart hloc (Array.getElem?_eq_some_iff.mp ho).1)
  obtain ⟨c', hc', hturns⟩ := htu.cells (h.cells hc)
  rw [hturns.same hi] at hc'
  refine ⟨i, c, hr, hc, hc', fun {loc o} hloc ho => ?_⟩
  obtain ⟨o', ho', hgains⟩ := h.heap.object ho
  have hloc' : t.heap.Inside c.value loc := h.heap.reach hloc
  refine ⟨o', hsame hloc' ho', hgains.imp fun hv hinit => hinit.of_inside fun hinside => hsame ?_⟩
  exact hinside.trans fun hroot => .inner hloc' ho' hv hroot

end Keeping

section Call

variable {m : Machine} {a : Moment} {c N level : Nat}

/-- Entering a function whose parameters are variables of their own keeps the local variables of the
caller. -/
theorem keeps_invoke {M : Nat → Value → Prop} {t : State} {frame : Frame} {n : Nat} {f : Function}
    (hst : Expanded M s t) (hs : (Custody.since c N).Guarded t) (ht : s.inUse.Guarded t)
    (hglobals : ∀ b ∈ s.globals, b.2.place.Before c N) (hfr : s.inUse.OwnFrame t frame)
    (hf : m.linked.Has f) (hr : r.place = .variable i) (hi : c ≤ i) (hlt : i < s.cells.size) :
    s.Keeps M (stateAfter (invoke m (exec m level) n f frame) t) r := by
  let names : Frame := t.globals ++ frame
  let C := t.confined s.inUse names
  have hnames : ∀ b ∈ names, s.inUse.Target t b.2 := fun b hb =>
    (List.mem_append.mp hb).elim (fun hb => (ht.globals b hb).target) fun hb => (hfr b hb).target
  obtain ⟨hC, hbd⟩ := ht.confined id hnames (List.subset_append_left _ _)
  have hl : m.linked.Every C.Permits C.frees :=
    m.linked.every_of_forall (t.permits_confined names) fun _ => trivial
  have hwithin : C.Within { t with frames := [] }
      (stateAfter (invoke m (exec m level) n f frame) { t with frames := [] }) :=
    (Maintains.stateAfter
      ((enters_custody hl level _).rel (rfl : n = n) f frame _ hf (refl_of C.Within _) hC
      fun b hb => ⟨(hbd b (List.mem_append_right _ hb)).target, .of_frees trivial⟩) hC).2
  rw [stateAfter_invoke] at hwithin
  -- neither the globals nor the parameters stand for the variable
  have hglobals : ∀ b ∈ t.globals, b.2.place.Before c N := hst.names.globals ▸ hglobals
  have hcells : ¬names.Cells i := by
    rintro ⟨b, hb, hcell⟩
    rcases List.mem_append.mp hb with hb | hb
    · exact absurd ((hglobals b hb).1 i hcell) (Nat.not_lt.mpr hi)
    · obtain ⟨j, hj, hkeep⟩ := (hfr b hb).cell
      rw [hj] at hcell
      obtain rfl := Option.some.inj hcell
      exact absurd hlt (Nat.not_lt.mpr hkeep)
  have hobjs : ∀ b ∈ names, ∀ loc ∈ b.2.place.object?, ¬(Custody.since c N).keep loc := by
    intro b hb loc hloc
    rcases List.mem_append.mp hb with hb | hb
    · exact Nat.not_le.mpr ((hglobals b hb).2 loc hloc)
    · obtain ⟨j, hj, -⟩ := (hfr b hb).cell
      rw [hj] at hloc
      cases hloc
  have hcell := hst.cells (Array.getElem?_eq_getElem hlt)
  refine hst.keeps_within (C := C) ⟨hwithin.heap, hwithin.cells⟩ hr
    (Array.getElem?_eq_getElem hlt) (fun h => ?_) fun hloc hltloc h => ?_
  · exact h.elim hcells (Nat.not_le.mpr (Nat.lt_of_lt_of_le hlt hst.later.size_le))
  · exact h.elim (hs.apart hcell hi hcells hobjs hloc) (Nat.not_le.mpr hltloc)

/-- **A call by value keeps the local variables of the caller.**  At a moment of a run at which
nothing in use is a position, an element of a map that was found, or a list, a function is called
whose parameters are no references, with arguments that have no assignments, steps and calls.
However the call ends, every name of a local scope that was not declared as a reference stands for
the same variable as before, and what the variable holds is the same, except that maps may have new
entries: with initial values, under subscripts by which the arguments read the maps. -/
theorem call_by_value {input : List String}
    (ha : Visits m (fun _ => True) ⟨.start m.limits input, []⟩ a)
    (hsolid : a.state.Solid) (level n : Nat) (p q : Position) {id : String} {args : List Expr}
    {overloads : List Function} {f : Function}
    (hoverloads : m.linked.overloads? id = some overloads)
    (hf : overloads.find? (fun g => g.arity == args.length) = some f)
    (hpars : ∀ param ∈ f.signature.params, param.type.isReference = false)
    (hargs : ∀ e ∈ args, e.Quiet) :
    let enter := invoke m (exec m level)
    let t := stateAfter (eval m enter n (.call p (.name q id) args)) a.state
    t.frames = a.state.frames ∧ ∀ (k : Nat) (scope : Frame), a.state.frames[k]? = some scope →
      ∀ name r, scope.find? name = some r → name ∉ a.references.getD k [] →
        a.state.Keeps (ArgumentsRead m enter (n + 4) f.signature.params args a.state) t r := by
  intro enter t
  refine ⟨((tidy_eval (tidy_exec m (exec m level) level) n _).keeps a.state).frames, ?_⟩
  intro k scope hscope name r hr hname
  have hmem : scope ∈ a.state.frames := List.mem_of_getElem? hscope
  obtain ⟨c, N, hlocal⟩ := ha.exists_local (List.ne_nil_of_mem hmem)
  obtain ⟨i, hplace, hi⟩ := hlocal.owns hscope name r hr hname
  -- the caller's variable is there before the call
  have hlt : i < a.state.cells.size := by
    obtain ⟨b, hb, rfl⟩ := Frame.exists_of_find? hr
    exact ((hlocal.guarded.frames scope hmem b hb).target.site.allowed.1 i (by rw [hplace]; rfl)).2
  let M := ArgumentsRead m enter (n + 4) f.signature.params args a.state
  have hstart : a.state.inUse.Guarded a.state := hlocal.guarded.inUse hsolid trivial trivial
  have hbind : Guards (Expanded M) a.state.inUse a.state a.state.inUse.OwnFrame
      (bindArgs m enter (n + 4) f.signature.params args []) :=
    guards_arguments ⟨fun _ => trivial, fun _ _ => trivial⟩ hargs hpars nofun
      fun before arg after frame u hsplit hu _ _ h => ⟨before, arg, after, frame, u, hsplit, hu, h⟩
  have hstay : ∀ {u}, Expanded M a.state u → a.state.Keeps M u r := fun hu =>
    hu.keeps hplace (Array.getElem?_eq_getElem hlt)
  have heval : eval m enter n (.call p (.name q id) args) = checkNesting m.limits n >>= fun _ =>
      selectOverload id overloads args.length >>= fun f =>
        bindArgs m enter (n + 4) f.signature.params args [] >>= fun frame =>
        enter (n + 4) f frame := by
    rw [eval_step]
    simp only [hoverloads]
  show a.state.Keeps M (stateAfter (eval m enter n (.call p (.name q id) args)) a.state) r
  rw [heval, checkNesting, selectOverload, hf]
  dsimp only
  split
  -- past the two checks: first the arguments, then the body, which has its own frame
  · split
    · show a.state.Keeps M (Ending.state ((bindArgs m enter (n + 4) f.signature.params args [] >>=
        fun frame => enter (n + 4) f frame) a.state)) r
      cases hrun : bindArgs m enter (n + 4) f.signature.params args [] a.state with
      | ok frame u =>
        obtain ⟨hu, hexpanded, hfr⟩ := hbind.ok hstart hrun
        have hsince : (Custody.since c N).Guarded u :=
          ((guards_bindArgs m.linked.permits_since level
          (n + 4) (fun _ _ _ => Custody.frees_since _) fun e _ =>
          e.every_of_forall Custody.permits_since).ok hlocal.guarded hrun).1
        have hhas : m.linked.Has f :=
          Linked.has_of_overloads? hoverloads (List.mem_of_find?_eq_some hf)
        rw [bind_of_ok hrun]
        exact keeps_invoke hexpanded hsince hu hlocal.globals hfr hhas hplace hi hlt
      | error e u =>
        rw [bind_of_error hrun]
        exact hstay (hbind.error hstart hrun).2.1
    · exact hstay (refl_of (Expanded M) _)
  · exact hstay (refl_of (Expanded M) _)

end Call

/-! ### Two calls -/

/-- The type of maps from words to numbers. -/
def countsType : TypeExpr :=
  .of .map [.of .string [], .of .int []]

def countsObject (entries : List (Value × Value)) : Object :=
  .map (some (.of .string [])) (some (.of .int [])) entries

def countsState (limits : Limits) : State where
  heap := { (State.start limits []).heap with objects := #[countsObject []] }
  cells := #[⟨.map 0, countsType⟩]
  frames := [[("g", ⟨.variable 0, some countsType⟩)]]

/-- The map is declared in a scope. -/
theorem visits_countsState (m : Machine) :
    Visits m (fun _ => True) (Moment.opened ⟨.start m.limits [], []⟩)
    ⟨countsState m.limits, [[]]⟩ :=
  let d : Declarator := ⟨⟨1, 1⟩, countsType, "g", none, .single⟩
  .declared (.refl _) 1 0 (d.every_of_forall (fun _ => trivial) fun _ => trivial)
    (t := { countsState m.limits with frames := [[]] }) (r := ⟨.variable 0, some countsType⟩) rfl

/-- A function extends its copy of a vector by a number that is read in a map. -/
theorem call_by_value_extends :
    let pos : Position := ⟨1, 1⟩
    let name (x : String) : Expr := .name pos x
    let ints : TypeExpr := .of .vector [.of .int []]
    let f : Function := ⟨⟨pos, .of .void [], "f", [⟨pos, ints, "x"⟩, ⟨pos, .of .int [], "k"⟩], []⟩,
      some [.evaluate pos (.call pos (.member pos (name "x") .dot "push_back") [name "k"])]⟩
    let m : Machine := ⟨{ functions := [("f", [f])] }, ⟨100, 10⟩⟩
    let scope : Frame := [("g", ⟨.variable 0, some countsType⟩), ("v", ⟨.variable 1, some ints⟩)]
    let s : State := {
      heap := { room := 1388, objects :=
      #[countsObject [], .vector (some (.of .int [])) #[.int 1, .int 2]] }
      cells := #[⟨.map 0, countsType⟩, ⟨.vector 1, ints⟩]
      frames := [scope] }
    let args := [name "v", .index pos (name "g") (.literal pos (.string "k" "\"k\""))]
    let t := stateAfter (eval m (invoke m (exec m 5)) 0 (.call pos (name "f") args)) s
    Visits m (fun _ => True) ⟨.start m.limits [], []⟩ ⟨s, [[]]⟩ ∧ s.Solid ∧
      (∀ param ∈ f.signature.params, param.type.isReference = false) ∧ (∀ e ∈ args, e.Quiet) ∧
      (∀ x ∈ ["g", "v"], ∃ r, scope.find? x = some r ∧
        s.Keeps (ArgumentsRead m (invoke m (exec m 5)) 4 f.signature.params args s) t r) ∧
      (t.heap.mapAt 0).2.2.length = 1 ∧ (t.heap.vectorAt 1).2.size = 2 ∧
      (t.heap.vectorAt 2).2.size = 3 := by
  intro pos name ints f m scope s args t
  let d : Declarator := ⟨pos, ints, "v",
    some (.braces pos [.literal pos (.int 1 "1"), .literal pos (.int 2 "2")]), .single⟩
  have hv : Visits m (fun _ => True) (Moment.opened ⟨.start m.limits [], []⟩) ⟨s, [[]]⟩ :=
    .declared (visits_countsState m) 5 0 (d.every_of_forall (fun _ => trivial) fun _ => trivial)
      (t := { s with frames := (countsState m.limits).frames }) (r := ⟨.variable 1, some ints⟩) rfl
  have hvisits : Visits m (fun _ => True) ⟨.start m.limits [], []⟩ ⟨s, [[]]⟩ :=
    .inScope (.refl _) hv
  have hsolid : s.Solid := State.solid_of_forall (by decide) (by decide) (by decide)
  have hpars : ∀ param ∈ f.signature.params, param.type.isReference = false := by decide
  have hargs : ∀ e ∈ args, e.Quiet := by
    simp [args, name, Expr.Quiet, Expr.Every, Expr.isQuiet]
  have hkeeps := (call_by_value hvisits hsolid 5 0 pos pos
    (show m.linked.overloads? "f" = some [f] from rfl) rfl hpars hargs).2 0 scope rfl
  refine ⟨hvisits, hsolid, hpars, hargs, fun x hx => ?_, by decide +kernel⟩
  simp only [List.mem_cons, List.not_mem_nil, or_false] at hx
  rcases hx with rfl | rfl
  · exact ⟨_, rfl, hkeeps "g" _ rfl (by rintro ⟨⟩)⟩
  · exact ⟨_, rfl, hkeeps "v" _ rfl (by rintro ⟨⟩)⟩

/-- **A reference among the arguments adds an entry, without a subscript.**  The map is held by a
variable of the caller that is no reference, and the function does nothing. -/
theorem reference_argument_adds :
    let pos : Position := ⟨1, 1⟩
    let name (x : String) : Expr := .name pos x
    let f : Function := ⟨⟨pos, .of .void [], "f", [⟨pos, .of .int [], "x"⟩], []⟩, some []⟩
    let m : Machine := ⟨{ functions := [("f", [f])] }, ⟨100, 10⟩⟩
    let r : Reference := ⟨.mapSlot 0 (.ofString "k"), some (.of .int [])⟩
    let s : State := { countsState m.limits with frames :=
      [[("g", ⟨.variable 0, some countsType⟩), ("r", r)]] }
    let t := stateAfter (eval m (invoke m (exec m 5)) 0 (.call pos (name "f") [name "r"])) s
    Visits m (fun _ => True) ⟨.start m.limits [], []⟩ ⟨s, [["r"]]⟩ ∧ s.Solid ∧
      (∀ param ∈ f.signature.params, param.type.isReference = false) ∧ (name "r").Quiet ∧
      t.cells[0]? = s.cells[0]? ∧ s.heap.objects[0]? = some (countsObject []) ∧
      t.heap.objects[0]? = some (countsObject [(.ofString "k", .int 0)]) := by
  intro pos name f m r s t
  let d : Declarator := ⟨pos, { base := .int, isReference := true }, "r",
    some (.index pos (name "g") (.literal pos (.string "k" "\"k\""))), .single⟩
  have hr : Visits m (fun _ => True) (Moment.opened ⟨.start m.limits [], []⟩) ⟨s, [["r"]]⟩ :=
    .declared (visits_countsState m) 5 0 (d.every_of_forall (fun _ => trivial) fun _ => trivial)
      (t := countsState m.limits) (r := r) rfl
  have hsolid : s.Solid := State.solid_of_forall (by decide) (by decide) (by decide)
  have hquiet : (name "r").Quiet := by
    simp [name, Expr.Quiet, Expr.Every, Expr.isQuiet]
  exact ⟨.inScope (.refl _) hr, hsolid, by decide, hquiet, rfl, rfl, rfl⟩

end SmallCpp
