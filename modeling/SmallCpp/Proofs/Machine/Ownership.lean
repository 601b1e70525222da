import SmallCpp.Proofs.Machine.Visits

/-!
# Local variables and what they own

A name that is declared in a local scope, and not as a reference, stands for a variable of its own:
one that was created after the outermost scope was left.  What such a variable holds was created
after that too.  The names of the outermost scope stand for older locations, and those stay bound as
they are until the run is back in the outermost scope.

## Main results

* `Visits.exists_local` — **in a local scope of a run the names that are no references stand for
  variables of their own.** -/

namespace SmallCpp

variable {r : Reference} {d : Declarator} {a b : Moment} {t s : State} {C : Custody} {p : Place}
  {frame : Frame} {c N : Nat} {m : Machine}

/-! ### Places -/

/-- The variable that the place is in. -/
def Place.cell? : Place → Option Nat
  | .variable i => some i
  | .character text _ => text.cell?
  | _ => none

/-- The container that the place is in. -/
def Place.object? : Place → Option Nat
  | .vectorSlot loc _ | .mapSlot loc _ | .pairField loc _ | .entryField loc _ _ => some loc
  | .character text _ => text.object?
  | .variable _ => none

def Place.key? : Place → Option Value
  | .mapSlot _ key | .entryField _ key _ => some key
  | .character text _ => text.key?
  | _ => none

/-- A place that may be used under one custody may be used under another one that allows its
variable, its container and its key. -/
theorem Custody.Site.transfer {D : Custody} (hp : C.Site s p)
    (htyped : D.typed → C.typed) (hcell : ∀ i ∈ p.cell?, D.touchCell i)
    (hobj : ∀ loc ∈ p.object?, D.touch loc)
    (hkey : ∀ key ∈ p.key?, C.Item s.heap key → D.Item s.heap key) : D.Site s p := by
  induction p with
  | «variable» i => exact ⟨hcell i rfl, hp.2⟩
  | vectorSlot loc | pairField loc => exact ⟨hobj loc rfl, hp.2⟩
  | mapSlot loc key => exact ⟨⟨hobj loc rfl, hp.1.2⟩, hkey key rfl hp.2⟩
  | entryField loc key =>
    obtain ⟨⟨-, hback⟩, hitem, hhash, hkind⟩ := hp
    exact ⟨⟨hobj loc rfl, hback⟩, hkey key rfl hitem, hhash, hkind.mono htyped⟩
  | character text i ih => exact ih hp hcell hobj hkey

/-- The variable and the container of a place that may be used exist and may be used. -/
theorem Custody.Site.allowed (hp : C.Site s p) : (∀ i ∈ p.cell?, C.touchCell i ∧ i < s.cells.size) ∧
      ∀ loc ∈ p.object?, C.touch loc ∧ loc < s.heap.objects.size := by
  induction p with
  | «variable» i => exact ⟨fun _ h => Option.mem_some.mp h ▸ hp, nofun⟩
  | vectorSlot loc | pairField loc =>
    exact ⟨nofun, fun _ h => Option.mem_some.mp h ▸ hp.imp_right (·.lt rfl)⟩
  | mapSlot loc key | entryField loc key =>
    exact ⟨nofun, fun _ h => Option.mem_some.mp h ▸ hp.1.imp_right (·.lt rfl)⟩
  | character text i ih => exact ih hp

/-- The place is in a variable before `c`, or in a container before `N`. -/
def Place.Before (c N : Nat) (p : Place) : Prop :=
  (∀ i ∈ p.cell?, i < c) ∧ ∀ loc ∈ p.object?, loc < N

/-! ### Custody of what is new -/

/-- The names `A` do not stand for the variable, in any scope. -/
def State.Spares (s : State) (A : String → Prop) (i : Nat) : Prop :=
  (∀ b ∈ s.globals, A b.1 → b.2.place ≠ .variable i) ∧
    ∀ frame ∈ s.frames, ∀ b ∈ frame, A b.1 → b.2.place ≠ .variable i

/-- Everything may be used, and the variables from `c` on and the containers from `N` on hold only
containers from `N` on.  The variables `held` keep their pairs, and only the names `A` are assigned
to. -/
def Custody.since (c N : Nat) (held : Nat → Prop := fun _ => False) (A : String → Prop :=
    fun _ => True) : Custody :=
  { Custody.everything with
    keep := (N ≤ ·), keepCell := (c ≤ ·), held, assigned := A, frees := fun x => A x → ∀ i, ¬held i
    keep_touch := fun _ => trivial, keepCell_touchCell := fun _ => trivial
    frees_held := fun h hx => h hx _ }

section Since

variable {c' N' : Nat} {H H' : Nat → Prop} {A A' : String → Prop}

theorem Custody.permits_since (e : Expr) : (Custody.since c N).Permits e :=
  ⟨allows_of_forall (fun _ => trivial) id (fun _ _ => trivial) e, False.elim,
    e.assignsOnly_of_forall fun _ => trivial⟩

theorem Custody.frees_since (name : String) : (Custody.since c N).frees name :=
  fun _ _ => id

/-- What may be copied and which locations may be used does not depend on what counts as new, nor on
what is to keep its pair. -/
theorem Custody.Item.since {h : Heap} {v : Value} (hv : (Custody.since c N H A).Item h v) :
    (Custody.since c' N' H' A').Item h v :=
  hv.mono (.refl h) (fun _ => trivial) (fun _ => trivial) (fun _ => trivial) id

theorem Custody.Target.since (hr : (Custody.since c N H A).Target s r) :
    (Custody.since c' N' H' A').Target s r :=
  ⟨hr.site.transfer id (fun _ _ => trivial) (fun _ _ => trivial) fun _ _ hkey =>
    hkey.since, hr.type⟩

/-- Another moment may be the one since which things count as new, if what is new then holds only
what is new then.  A variable of a pair type may be one that keeps its pair, if the names that are
assigned to do not stand for it. -/
theorem Custody.Guarded.since (hs : (Custody.since c N H A).Guarded s)
    (hc : c' ≤ s.cells.size) (hN : N' ≤ s.heap.objects.size)
    (hobjs : ∀ {loc : Nat} {o}, s.heap.objects[loc]? = some o → N' ≤ loc →
      ∀ v ∈ o.values, ∀ {l}, v.container? = some l → N' ≤ l)
    (hcells : ∀ {i : Nat} {cell}, s.cells[i]? = some cell → c' ≤ i →
      ∀ {l}, cell.value.container? = some l → N' ≤ l)
    (hheld : ∀ {i}, H' i → (∃ c, s.cells[i]? = some c ∧ c.type.isPair = true) ∧ s.Spares A' i) :
    (Custody.since c' N' H' A').Guarded s := by
  constructor
  · exact hs.inv.transfer (fun _ _ => trivial) id (Nat.le_trans hN)
      (fun ho _ v hv => (hs.inv.look ho trivial v hv).since) (fun _ _ _ _ _ _ => trivial) hobjs
  · exact fun hcell _ => ⟨(hs.touchCell hcell trivial).item.since, fun _ => trivial⟩
  · exact fun hcell hi =>
      ⟨(hs.touchCell hcell trivial).item.since, hcells hcell hi, Custody.kind_none⟩
  · exact fun hcell => (hs.kinds hcell).mono id
  · exact hs.pairs
  · exact fun hi => (hheld hi).1
  · exact fun hi => Nat.le_trans hc hi
  · exact fun b hb => ⟨(hs.globals b hb).target.since, fun hA i hi h => (hheld h).2.1 b hb hA hi⟩
  · exact fun frame hfr b hb => ⟨(hs.frames frame hfr b hb).target.since, fun hA i hi h =>
      (hheld h).2.2 frame hfr b hb hA hi⟩

theorem Custody.Guarded.sinceNow (hs : (Custody.since c N).Guarded s)
    (hheld : ∀ {i}, H i → (∃ c, s.cells[i]? = some c ∧ c.type.isPair = true) ∧ s.Spares A i) :
    (Custody.since s.cells.size s.heap.objects.size H A).Guarded s := by
  refine hs.since (Nat.le_refl _) (Nat.le_refl _) (fun ho hloc => ?_) (fun hcell hi => ?_) hheld
  · exact absurd (Array.getElem?_eq_some_iff.mp ho).1 (Nat.not_lt.mpr hloc)
  · exact absurd (Array.getElem?_eq_some_iff.mp hcell).1 (Nat.not_lt.mpr hi)

end Since

/-! ### Names of local scopes -/

/-- The names of the scope that are no references stand for variables in `keep`. -/
def Frame.Owns (keep : Nat → Prop) (frame : Frame) (references : List String) : Prop :=
  ∀ name r, frame.find? name = some r → name ∉ references → ∃ i, r.place = .variable i ∧ keep i

theorem Frame.Owns.bind {keep : Nat → Prop} {references : List String}
    (h : frame.Owns keep references) {isReference : Bool} (name : String)
    (hr : isReference = false → ∃ i, r.place = .variable i ∧ keep i) :
    (Frame.bind name r frame).Owns keep (noteName isReference name references) := by
  intro x r' hfind hx
  rw [Frame.find?_bind] at hfind
  cases isReference with
  | false =>
    split at hfind
    · cases hfind
      exact hr rfl
    · next hne => exact h x r' hfind fun hmem => hx (by simp [noteName, hmem, Ne.symm hne])
  | true =>
    split at hfind
    · next heq => exact absurd (by simp [noteName, heq]) hx
    · exact h x r' hfind fun hmem => hx (by simp [noteName, hmem])

/-! ### New variables -/

section Variables

theorem guards_copyInto {c : Run Value} (type : TypeExpr)
    (hc : Guards C.Within C s (fun t v => C.Val t.heap v) c) :
    Guards C.Within C s C.Anew (copyInto type c) :=
  hc.copyInto (fun hv => Guards.making (makes_coerce type _ _ hv.item)) C.within_newVariable

theorem guards_bindWith {r : Run Reference} {c : Run Value} (type : TypeExpr) (e : Expr)
    (hr : Guards C.Within C s C.Target r) (hc : Guards C.Within C s (fun t v => C.Val t.heap v) c) :
    Guards C.Within C s C.Target (bindWith type e r c) := by
  rw [bindWith]
  split
  · exact hr
  · split
    · exact (guards_copyInto type hc).weaken fun _ _ _ _ h => h.target
    · exact .raise _

variable (hl : m.linked.Every C.Permits C.frees) (level n : Nat)

include hl

/-- A variable that is not declared as a reference is a new one. -/
theorem guards_declaredVariable (hd : d.Every C.Permits C.frees)
    (hval : d.type.isReference = false) :
    Guards C.Within C s (fun _ r => ∃ i, r.place = .variable i ∧ C.keepCell i)
      (declaredLocation m (invoke m (exec m level)) n d) := by
  have hnew : ∀ {t : State} {v : Value} {type : TypeExpr}, C.Loose t (some type) v ∧ type.Pairs v →
      Guards C.Within C t (fun _ r => ∃ i, r.place = .variable i ∧ C.keepCell i)
      (newVariable v type) :=
    fun hv => (guards_newVariable (C.within_newVariable _ _) hv.1 hv.2).weaken
    fun _ _ _ _ h => h.cell
  rw [declaredLocation]
  split
  · split
    · exact .bind (guards_defaultOf d.type) fun v t _ _ _ hv => hnew hv
    · next e he =>
      rw [if_neg (by simp [hval])]
      exact (guards_copyInto d.type (guards_eval hl level n (hd.initializer e he))).weaken
        fun _ _ _ _ h => h.cell
  · refine .assuming fun hs => ?_
    exact .bind (Evaluation.buildArray hd (expressions_custody hl level s) rfl
      (refl_of C.Within s) hs) fun v t _ _ _ hv => hnew hv

/-- A parameter that is no reference stands for a new variable. -/
theorem guards_bindParameters (args : List Expr) :
    ∀ (params : List Param) (frame : Frame) (names : List String) {s : State},
      (∀ e ∈ args, e.Every C.Permits) → frame.Owns C.keepCell names →
      Guards C.Within C s
        (fun _ frame' => frame'.Owns C.keepCell ((params.take args.length).foldl noteParam names))
        (bindArgs m (invoke m (exec m level)) n params args frame) := by
  induction args with
  | nil =>
    intro params frame names s _ hfr
    rw [bindArgs.eq_def]
    exact .pure hfr
  | cons arg args ih =>
    intro params frame names s hargs hfr
    rw [bindArgs.eq_def]
    cases params with
    | nil => exact .pure hfr
    | cons param params =>
      have harg := hargs arg List.mem_cons_self
      -- the rest of the arguments, once the first parameter is bound
      have hrest : ∀ {r t},
        (param.type.isReference = false → ∃ i, r.place = .variable i ∧ C.keepCell i) →
          Guards C.Within C t
            (fun _ frame' => frame'.Owns C.keepCell
              ((params.take args.length).foldl noteParam (noteParam names param)))
            (bindArgs m (invoke m (exec m level)) n params args
              (if param.name.isEmpty then frame else Frame.bind param.name r frame)) := by
        intro r t hr
        refine ih params _ _ (fun e he => hargs e (List.mem_cons_of_mem arg he)) ?_
        rw [noteParam]
        split
        · exact hfr
        · exact hfr.bind param.name hr
      dsimp only
      split
      · next href =>
        refine .bind (guards_bindWith param.type arg (guards_refer hl level (n + 1) harg)
          (guards_eval hl level (n + 1) harg)) fun r t _ _ _ _ => ?_
        exact hrest fun hval => absurd href (by simp [hval])
      · refine .bind (guards_copyInto param.type (guards_eval hl level n harg)) ?_
        exact fun r t _ _ _ hr => hrest fun _ => hr.cell

end Variables

/-! ### Moments -/

/-- A moment in the outermost scope. -/
structure Moment.Outermost (a : Moment) : Prop where
  guarded : (Custody.since 0 0).Guarded a.state
  frames : a.state.frames = []
  references : a.references = []

/-- A moment since which there were `c` variables and `N` containers in the outermost scope. -/
structure Moment.Since (c N : Nat) (a : Moment) : Prop where
  /-- Custody is kept of what is new since then. -/
  guarded : (Custody.since c N).Guarded a.state
  /-- The names of the outermost scope stand for locations from before. -/
  globals : ∀ b ∈ a.state.globals, b.2.place.Before c N
  /-- The names of the local scopes stand for new variables, if they are no references. -/
  locals : List.Forall₂ (Frame.Owns (c ≤ ·)) a.state.frames a.references

/-- A moment in a local scope. -/
structure Moment.Local (c N : Nat) (a : Moment) : Prop extends a.Since c N where
  frames : a.state.frames ≠ []

theorem Moment.Since.owns (ha : a.Since c N) {k : Nat} {scope : Frame}
    (hscope : a.state.frames[k]? = some scope) :
    scope.Owns (c ≤ ·) (a.references.getD k []) := by
  obtain ⟨hlen, howns⟩ := List.forall₂_iff_get.mp ha.locals
  obtain ⟨hk, rfl⟩ := List.getElem?_eq_some_iff.mp hscope
  rw [List.getD, List.getElem?_eq_getElem (hlen ▸ hk), Option.getD_some]
  exact howns k hk (hlen ▸ hk)

section Moments

variable {P : Expr → Prop}

theorem Linked.permits_since (l : Linked) :
    l.Every (Custody.since c N).Permits (Custody.since c N).frees :=
  l.every_of_forall Custody.permits_since Custody.frees_since

namespace Moment

/-- A moment of the outermost scope counts as the start of what comes. -/
theorem Outermost.since (ha : a.Outermost) :
    a.Since a.state.cells.size a.state.heap.objects.size where
  guarded := ha.guarded.sinceNow False.elim
  globals b hb :=
    have hplace := (ha.guarded.globals b hb).target.site.allowed
    ⟨fun i hi => (hplace.1 i hi).2, fun loc hloc => (hplace.2 loc hloc).2⟩
  locals := by
    rw [ha.frames, ha.references]
    exact .nil

theorem Since.passed (ha : a.Since c N) (ht : Passes m P a.state t) :
    Since c N ⟨t, a.references⟩ where
  guarded := (ht.guarded m.linked.permits_since (fun e _ => Custody.permits_since e) ha.guarded
    Custody.frees_since).1
  globals := ht.sameNames.globals ▸ ha.globals
  locals := ht.sameNames.frames ▸ ha.locals

theorem Since.opened (ha : a.Since c N) : a.opened.Local c N where
  guarded := ha.guarded.opened
  globals := ha.globals
  locals := .cons nofun ha.locals
  frames := nofun

theorem Since.back (ha : a.Since c N) (hb : b.Since c N)
    (hab : (Custody.since c N).Within a.state b.state) : (a.back b.state).Since c N where
  guarded := hb.guarded.back ha.guarded hab
  globals := hb.globals
  locals := ha.locals

theorem guarded_declared (ha : (Custody.since c N).Guarded a.state) (level n : Nat)
    (hr : declaredLocation m (invoke m (exec m level)) n d a.state = .ok r t) :
    (Custody.since c N).Guarded (declared a.references t d r).state ∧ SameNames a.state t := by
  have hd : d.Every (Custody.since c N).Permits (Custody.since c N).frees :=
    d.every_of_forall Custody.permits_since Custody.frees_since
  obtain ⟨ht, -, htgt⟩ := (guards_declaredLocation m.linked.permits_since level n hd).ok ha hr
  have hnames := (tidy_declaredLocation (tidy_exec m (exec m level) level) n d).keeps a.state
  rw [hr] at hnames
  exact ⟨((guards_declareName htgt).ok ht (declareName_apply d.name r t)).1, hnames⟩

/-- A declaration binds its name to a new variable, unless it declares a reference. -/
theorem Local.declared (ha : a.Local c N) (level n : Nat)
    (hr : declaredLocation m (invoke m (exec m level)) n d a.state = .ok r t) :
    (declared a.references t d r).Local c N := by
  obtain ⟨hguarded, hnames⟩ := guarded_declared ha.guarded level n hr
  have hd : d.Every (Custody.since c N).Permits (Custody.since c N).frees :=
    d.every_of_forall Custody.permits_since Custody.frees_since
  have hval : d.type.isReference = false → ∃ i, r.place = .variable i ∧ c ≤ i := fun hval =>
    ((guards_declaredVariable m.linked.permits_since level n hd hval).ok ha.guarded hr).2.2
  obtain ⟨frame, frames, hframes⟩ := List.exists_cons_of_ne_nil ha.frames
  have hlocals := ha.locals
  rw [hframes] at hlocals
  obtain ⟨names, rest, hfirst, hrest, hreferences⟩ := List.forall₂_cons_left_iff.mp hlocals
  have hstate : t.declaring [(d.name, r)] =
      { t with frames := Frame.bind d.name r frame :: frames } := by
    rw [State.declaring, hnames.frames, hframes]
    rfl
  refine ⟨⟨hguarded, ?_, ?_⟩, ?_⟩
  · rw [Moment.declared, hstate]
    exact hnames.globals ▸ ha.globals
  · rw [Moment.declared, hstate, hreferences]
    exact .cons (hfirst.bind d.name hval) hrest
  · rw [Moment.declared, hstate]
    exact List.cons_ne_nil _ _

/-- In a call only the parameters are visible, beside the outermost scope. -/
theorem Since.called (ha : a.Since c N) (level n : Nat) {params : List Param} {args : List Expr}
    {u : State}
    (hu : bindArgs m (invoke m (exec m level)) n params args [] a.state = .ok frame u) :
    (called u frame (parameters params args.length)).Local c N ∧
    (Custody.since c N).Within a.state u := by
  have hl : m.linked.Every (Custody.since c N).Permits (Custody.since c N).frees :=
    m.linked.permits_since
  have hargs : ∀ e ∈ args, e.Every (Custody.since c N).Permits := fun e _ =>
    e.every_of_forall Custody.permits_since
  obtain ⟨hguarded, hwithin, hfr⟩ :=
    (guards_bindArgs hl level n (fun _ _ _ => Custody.frees_since _) hargs).ok ha.guarded hu
  have howns :=
    ((guards_bindParameters hl level n args params [] [] hargs nofun).ok ha.guarded hu).2.2
  have hnames : SameNames a.state u := by
    have h := (tidy_bindArgs (tidy_exec m (exec m level) level) n params args []).keeps a.state
    rwa [hu] at h
  exact ⟨⟨⟨hguarded.called hfr _, hnames.globals ▸ ha.globals, .cons howns .nil⟩, nofun⟩, hwithin⟩

theorem Outermost.passed (ha : a.Outermost) (ht : Passes m P a.state t) :
    Outermost ⟨t, a.references⟩ where
  guarded := (ht.guarded m.linked.permits_since (fun e _ => Custody.permits_since e) ha.guarded
    Custody.frees_since).1
  frames := ht.sameNames.frames.trans ha.frames
  references := ha.references

theorem Outermost.declared (ha : a.Outermost) (level n : Nat)
    (hr : declaredLocation m (invoke m (exec m level)) n d a.state = .ok r t) :
    (declared a.references t d r).Outermost := by
  obtain ⟨hguarded, hnames⟩ := guarded_declared ha.guarded level n hr
  refine ⟨hguarded, ?_, ?_⟩
  · rw [Moment.declared, State.declaring, hnames.frames, ha.frames]
  · rw [Moment.declared, ha.references]
    rfl

/-- Where a moment in the outermost scope or a local one leads to. -/
structure Leads (a b : Moment) : Prop where
  inside : ∀ {c N}, a.Local c N → b.Local c N
  outside : a.Outermost → b.Outermost ∨ ∃ c N, b.Local c N

theorem Leads.trans {d : Moment} (h : a.Leads b) (h' : b.Leads d) : a.Leads d where
  inside ha := h'.inside (h.inside ha)
  outside ha := (h.outside ha).elim h'.outside fun ⟨c, N, hb⟩ => .inr ⟨c, N, h'.inside hb⟩

theorem Leads.of_within {d : Moment} (hb : ∀ {c N}, a.Since c N → b.Local c N) (h : b.Leads d) :
    a.Leads d where
  inside ha := h.inside (hb ha.toSince)
  outside ha := .inr ⟨_, _, h.inside (hb ha.since)⟩

theorem Leads.back {d : Moment} (hb : ∀ {c N}, a.Since c N → b.Local c N) (h : b.Leads d)
    (hwithin : ∀ {c N}, a.Since c N → (Custody.since c N).Within a.state d.state) :
    a.Leads (a.back d.state) where
  inside ha := ⟨ha.toSince.back (h.inside (hb ha.toSince)).toSince (hwithin ha.toSince), ha.frames⟩
  outside ha :=
    have hback := ha.since.back (h.inside (hb ha.since)).toSince (hwithin ha.since)
    .inl ⟨hback.guarded.since (Nat.zero_le _) (Nat.zero_le _) (fun _ _ _ _ _ _ => Nat.zero_le _)
      (fun _ _ _ _ => Nat.zero_le _) False.elim, ha.frames, ha.references⟩

end Moment

/-- **At every moment of a run the names are bound so.** -/
theorem Visits.leads (h : Visits m P a b) : a.Leads b := by
  have hwithin : ∀ {c N} {a b : Moment}, Visits m P a b → a.Local c N →
      (Custody.since c N).Within a.state b.state := fun h ha =>
    (h.guarded m.linked.permits_since (fun e _ => Custody.permits_since e) ha.guarded
      Custody.frees_since).2
  induction h with
  | refl a => exact ⟨id, .inl⟩
  | passed _ ht ih =>
    refine ih.trans ⟨fun hb => ⟨hb.toSince.passed ht, ?_⟩, fun hb => .inl (hb.passed ht)⟩
    exact ht.sameNames.frames ▸ hb.frames
  | declared _ level n _ hr ih =>
    exact ih.trans ⟨fun hb => hb.declared level n hr, fun hb => .inl (hb.declared level n hr)⟩
  | inScope _ _ ih ihc => exact ih.trans (.of_within Moment.Since.opened ihc)
  | afterScope _ hc ih ihc =>
    refine ih.trans (.back Moment.Since.opened ihc fun hb => ?_)
    have h := hwithin hc hb.opened
    exact ⟨h.heap, h.cells⟩
  | inCall _ level n _ _ hu _ ih ihc =>
    exact ih.trans (.of_within (fun hb => (hb.called level n hu).1) ihc)
  | afterCall _ level n _ _ hu hc ih ihc =>
    refine ih.trans (.back (fun hb => (hb.called level n hu).1) ihc fun hb => ?_)
    obtain ⟨hlocal, hbu⟩ := hb.called level n hu
    have h := hwithin hc hlocal
    exact trans_of (Custody.since _ _).Within hbu ⟨h.heap, h.cells⟩

/-- **Custody is kept at every moment of every run**, so no container is held twice, and a variable
of a pair type holds a pair. -/
theorem Visits.guarded_since {input : List String} (h : Visits m P ⟨.start m.limits input, []⟩ a) :
    (Custody.since 0 0).Guarded a.state :=
  (h.guarded m.linked.permits_since (fun e _ => Custody.permits_since e)
    (Custody.guarded_start (fun _ => Nat.zero_le _) (fun _ => Nat.zero_le _) (fun _ => id) m.limits
      input) Custody.frees_since).1

/-- **In a local scope of a run the names that are no references stand for variables of their
own.** -/
theorem Visits.exists_local {input : List String} (h : Visits m P ⟨.start m.limits input, []⟩ a)
    (hframes : a.state.frames ≠ []) : ∃ c N, a.Local c N := by
  have hstart : (⟨.start m.limits input, []⟩ : Moment).Outermost :=
    ⟨Custody.guarded_start (fun _ => Nat.zero_le _) (fun _ => Nat.zero_le _) (fun _ => id) m.limits
    input, rfl, rfl⟩
  exact (h.leads.outside hstart).resolve_left fun ha => hframes ha.frames

end Moments

end SmallCpp
