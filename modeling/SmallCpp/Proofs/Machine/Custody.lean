import SmallCpp.Proofs.Machine.Budget
import SmallCpp.Proofs.Machine.Arguments

/-!
# Custody along runs

Under a custody that the expressions of a program keep to, every statement keeps the invariant, and
so does a run, in every state that it passes through. -/

namespace SmallCpp

variable {name : String} {loc i n : Nat} {args : List Value} {e : RuntimeError} {enter : Enter}
  {r : Reference} {m : Machine} {s t : State}

/-! ### References to variables -/

theorem ne_variable_of_slotOf? {container index : Value}
    (hr : slotOf? container index s = .ok (some r) t) (i : Nat) : r.place ≠ .variable i := by
  cases container <;> cases hr <;> exact nofun

theorem ne_variable_of_fieldOf? {owner : Value} (hr : fieldOf? owner name s = .ok (some r) t)
    (i : Nat) :
    r.place ≠ .variable i := by
  unfold fieldOf? at hr
  cases hname : PairField.ofName? name with
  | none =>
    rw [hname] at hr
    cases owner <;> cases hr
  | some field =>
    rw [hname] at hr
    cases owner <;> cases hr <;> exact nofun

theorem exists_of_refer_variable {e : Expr} (hr : refer m enter n e s = .ok r t)
    (hi : r.place = .variable i) :
    ∃ p name, e = .name p name ∧ s.lookup? name = some r ∧ t = s := by
  cases e with
  | name p name =>
    obtain ⟨hlookup, rfl⟩ := refer_name_eq_ok hr
    exact ⟨p, name, rfl, hlookup, rfl⟩
  | index p object subscript =>
    rw [refer_step] at hr
    obtain ⟨c, u, -, hrest⟩ := bind_eq_ok (eq_ok_of_checked hr)
    obtain ⟨j, w, -, hrest⟩ := bind_eq_ok hrest
    obtain ⟨slot, x, hslot, hrest⟩ := bind_eq_ok hrest
    cases slot with
    | some r' =>
      cases hrest
      -- elements and fields are locations inside containers
      exact absurd hi (ne_variable_of_slotOf? hslot i)
    | none =>
      cases htext : c.asText? with
      | some x =>
        simp only [htext] at hrest
        obtain ⟨text, y, -, hrest⟩ := bind_eq_ok hrest
        obtain ⟨k, z, -, hrest⟩ := bind_eq_ok hrest
        cases hrest
        cases hi
      | none =>
        simp only [htext] at hrest
        cases hrest
  | member p object access field =>
    rw [refer_step] at hr
    have hr := eq_ok_of_checked hr
    dsimp only at hr
    split at hr
    · cases hr
    · obtain ⟨c, u, -, hrest⟩ := bind_eq_ok hr
      obtain ⟨slot, x, hslot, hrest⟩ := bind_eq_ok hrest
      cases slot with
      | some r' =>
        cases hrest
        exact absurd hi (ne_variable_of_fieldOf? hslot i)
      | none => cases hrest
  | _ =>
    rw [refer_step] at hr
    cases eq_ok_of_checked hr


/-! ### The discipline -/

/-- A call that clears its object is one on a name. -/
def Expr.ClearsNames : Expr → Prop
  | .call _ (.member _ object _ field) _ => field = "clear" → ∃ p x, object = .name p x
  | _ => True

/-- What is assigned to a name is assigned to one of the names `A`. -/
def Expr.AssignsOnly (A : String → Prop) : Expr → Prop
  | .assign _ _ (.name _ x) _ => A x
  | _ => True

/-- The expression itself keeps to the limits of the custody: a brace list may be as long as it is,
a member function may be called only if a position may be in every container that may be used, and
elements may be added only if vectors may have any number of elements. -/
def Custody.Allows (C : Custody) : Expr → Prop
  | .braces _ es => C.short es.length
  | .call _ (.member _ _ access name) _ =>
    access ≠ .scope → (∀ {loc}, C.touch loc → C.point loc) ∧
      (name = "push_back" → ∀ {k n}, C.fit k n → C.fit k (n + 1))
  | _ => True

/-- The expression itself keeps to the custody. -/
structure Custody.Permits (C : Custody) (e : Expr) : Prop where
  allows : C.Allows e
  clears : C.typed → e.ClearsNames
  assigns : e.AssignsOnly C.assigned

theorem Expr.assignsOnly_of_forall {A : String → Prop} (h : ∀ name, A name) (e : Expr) :
    e.AssignsOnly A := by
  unfold AssignsOnly
  split
  · exact h _
  · trivial

/-- Every expression keeps to a custody that does not limit sizes and positions. -/
theorem Custody.allows_of_forall {C : Custody} (hshort : ∀ n, C.short n)
    (hpoint : ∀ {loc}, C.touch loc → C.point loc) (hfit : ∀ k n, C.fit k n) (e : Expr) :
    C.Allows e := by
  unfold Allows
  split
  · exact hshort _
  · exact fun _ => ⟨hpoint, fun _ k n _ => hfit k (n + 1)⟩
  · trivial

theorem name_of_clear (h : TextChange.ofName? name = some .clear) : name = "clear" := by
  unfold TextChange.ofName? at h
  split at h
  · cases h
  · split at h
    · cases h
    · split at h
      · next hname => exact beq_iff_eq.mp hname
      · cases h

theorem name_of_pushBack (h : VectorMethod.ofName? name = some .pushBack) : name = "push_back" := by
  unfold VectorMethod.ofName? at h
  split at h <;> first | rfl | cases h

section Discipline

variable {C : Custody}

/-- A new array has as many elements as steps were counted for it. -/
theorem guards_newArray (limits : Limits) (t : TypeExpr) (n : Int) {items : HeapM (Array Value)}
    (hitems : ∀ k, Moves C k C.touch s.heap [] Array.toList
      (fun h vs => vs.size = n.toNat ∧ ∀ v ∈ vs, C.Own (some t) h v) items) :
    Guards C.Within C s (C.Loose · (some (.of .vector [t])))
      (charge limits n >>= fun _ => onHeap (items >>= fun items => newVector (some t) items)) := by
  refine .assuming fun hs => .bind (guards_charge limits n) fun _ u _ _ _ hu => ?_
  subst hu
  exact Guards.making (makes_filledVector (hitems _) (hs.fit_counted n))

/-- A call of a member function of a vector, with the steps that it takes. -/
theorem guards_callVector {limits : Limits} {method : VectorMethod}
    (hpoint : ∀ {loc}, C.touch loc → C.point loc)
    (hpush : method = .pushBack → ∀ {k n}, C.fit k n → C.fit k (n + 1))
    (hv : C.Val s.heap (.vector loc)) (hargs : ∀ v ∈ args, C.Val s.heap v) :
    Guards C.Within C s (fun t v => C.Val t.heap v)
      (chargeFill limits loc method args >>= fun _ =>
        onHeap (orArgumentError e (callVector method loc args))) := by
  refine .bind (guards_chargeFill limits loc method args) fun _ t _ _ hst hfill => ?_
  have hloc := hv.touch rfl
  obtain ⟨element, hshape⟩ := (hv.within hst).item.backs
  have hitems := fun v h => ((hargs v h).within hst).item
  refine Guards.giving (Moves.orArgumentError ?_ _)
  exact gives_callVector method hloc (hpoint hloc) hshape hitems (fun h n => hpush h) hfill

theorem guards_callMap {method : MapMethod}
    (hpoint : ∀ {loc}, C.touch loc → C.point loc) (hv : C.Val s.heap (.map loc))
    (hargs : ∀ v ∈ args, C.Val s.heap v) :
    Guards C.Within C s (fun t v => C.Val t.heap v)
    (onHeap (orArgumentError e (callMap method loc args))) := by
  obtain ⟨κ, τ, hshape⟩ := hv.item.backs
  have hitems := fun v h => (hargs v h).item
  exact Guards.giving (Moves.orArgumentError
    (gives_callMap method (hv.touch rfl) (hpoint (hv.touch rfl)) hshape hitems) _)

/-- A name stands for the location that it was read at before, whatever was evaluated in between. -/
theorem lookup?_of_refer {enter' : Enter} {p : Position} {x : String} {v : Value} {args : List Expr}
    {vs : List Value}
    {s₁ s₂ s₃ : State} (henter : Compatible.Entering (fun c d => Tidy m.limits.maxCallDepth [] c d)
      enter enter')
    (hv : eval m enter n (.name p x) s = .ok v s₁) (hargs : evalAll m enter n args s₁ = .ok vs s₂)
    (hrefer : refer m enter n (.name p x) s₂ = .ok r s₃) :
    s.lookup? x = some r ∧ r.read s = .ok v s₁ := by
  obtain ⟨hlookup, rfl⟩ := refer_name_eq_ok hrefer
  obtain ⟨r₀, hlookup₀, hread⟩ := eval_name_eq_ok hv
  have hnames := ((compatible_tidy m _).expressions (compatible_tidy m _).nests_eq henter.at_eq
    (rfl : n = n) args).1.keeps s₁
  rw [hargs] at hnames
  have hsame : s₃.lookup? x = s.lookup? x := by
    rw [readPlace_apply] at hread
    obtain ⟨h, -, rfl⟩ := onHeap_eq_ok hread
    exact hnames.lookup?_eq x
  obtain rfl : r₀ = r := Option.some.inj (hlookup₀.symm.trans (hsame.symm.trans hlookup))
  exact ⟨hlookup₀, hread⟩

section Change

variable {enter' : Enter} {object : Expr} {args : List Expr} {text : CodeText} {vs : List Value}
  {s₁ s₂ s₃ : State}
  (henter : Compatible.Entering (fun c d => Tidy m.limits.maxCallDepth [] c d) enter enter')
  (hs : C.Guarded s) (htext : eval m enter n object s = .ok (.text text) s₁)
  (hargs : evalAll m enter n args s₁ = .ok vs s₂) (hrefer : refer m enter n object s₂ = .ok r s₃)

include henter hs htext hargs hrefer

/-- A call that clears a text finds a location that may hold a text. -/
theorem Custody.Permits.kind_cleared {p q : Position} {access : Access} {change : TextChange}
    (hcall : C.Permits (.call p (.member q object access name) args))
    (hchange : TextChange.ofName? name = some change) :
    change = .clear → C.Kind r.type (.text []) := by
  rintro rfl
  refine ⟨tolerates_text _ _, fun htyped => ?_⟩
  obtain ⟨_, x, rfl⟩ := hcall.clears htyped (name_of_clear hchange)
  obtain ⟨hlookup, hread⟩ := lookup?_of_refer henter htext hargs hrefer
  -- the location held a text when the name was evaluated
  have hr := (hs.lookup? hlookup).target
  obtain ⟨-, -, ⟨-, hkind⟩, -⟩ := (guards_readPlace hr.site).ok hs hread
  rw [← hr.type] at hkind
  exact (hkind.fills (Value.fills_text (v := .text text) nofun [])).2 htyped

/-- A change of a text finds no variable of a pair type: the name of the variable gave a text
before. -/
theorem Custody.Guarded.not_isPair {c : Cell} (hlater : C.Within s s₃) (hi : r.place = .variable i)
    (hc : s₃.cells[i]? = some c) : c.type.isPair ≠ true := by
  obtain ⟨p, name, rfl, -, -⟩ := exists_of_refer_variable hrefer hi
  obtain ⟨hlookup, hread⟩ := lookup?_of_refer henter htext hargs hrefer
  have hlt := (hs.lookup? hlookup).target.site
  dsimp only at hlt
  rw [Reference.read, hi] at hread
  rw [hi] at hlt
  have hc₀ := Array.getElem?_eq_getElem hlt.2
  obtain ⟨c', hc', hturns⟩ := hlater.cells hc₀
  obtain rfl : c' = c := Option.some.inj (hc'.symm.trans hc)
  intro hpair
  obtain ⟨loc, hloc⟩ := hs.pairs hc₀ (hturns.type ▸ hpair)
  cases (eq_of_read_variable hread hc₀).1.trans hloc

end Change

/-- An assignment to a name is one to a name that may be assigned to. -/
theorem Custody.Permits.spares {e : Expr} {p : Position} {op : AssignOp} {target : Expr}
    (hallowed : C.Permits (.assign p op target e)) (hs : C.Guarded s)
    (hr : refer m enter n target s = .ok r t) : C.Spares r := by
  intro i hi
  obtain ⟨q, name, rfl, hlookup, -⟩ := exists_of_refer_variable hr hi
  exact (hs.lookup? hlookup).binds hallowed.assigns i hi

end Discipline

/-- **The discipline of custody.** -/
def custody (C : Custody) (m : Machine) : Discipline m m where
  Allows := C.Permits
  Free := C.frees
  Good := C.Guarded
  After := C.Within
  Val s v := C.Val s.heap v
  Item s v := C.Item s.heap v
  Fits s t v := C.Loose s (some t) v ∧ t.Pairs v
  Ref s r := C.Target s r
  Binds := C.Binds
  Room k k' _ := k = k'
  Tame enter := ∃ enter', Compatible.Entering (fun c d => Tidy m.limits.maxCallDepth [] c d)
    enter enter'
  tame_exec level := ⟨_, entering_invoke (tidy_exec m (exec m level) level)⟩
  Yields c s a t := c s = .ok a t
  Rel s Q c _ := Guards C.Within C s Q c
  similar := m.similar
  depth_eq := m.depth_eq
  after_refl s := refl_of C.Within s
  after_trans h h' := trans_of C.Within h h'
  after_scope _ _ _ := .of_eq rfl rfl
  good_scope hs := hs.opened
  val_after hst hv := hv.within hst
  item_after hst hv := hv.within hst
  ref_after hst hr := hr.later hst
  val_simple hv := (Custody.Bare.of_isSimple hv).val
  val_list hp hlen hvs := ⟨.list (hlen ▸ hp.allows) fun v hv => (hvs v hv).item, nofun⟩
  val_items hv := hv.item.items
  val_item hv := hv.item
  ref_character hr := ⟨hr.site, rfl⟩
  binds_free := .of_frees
  pure _ ha := .pure ha
  bind hc hf := .bind hc hf
  weaken hc hQ := hc.weaken fun t a hst _ ha => hQ t a hst ha
  throw _ _ he := .throw he
  charge n _ := (guards_charge m.limits n).weaken fun _ _ _ _ _ => trivial
  room_after _ h := h
  room_tick h _ := Nat.succ.inj h
  room_zero := @zero_iff_of_eq
  exhausted _ _ := .throw nofun
  resolve id _ := (guards_resolve id).weaken fun _ _ _ _ hr => hr.2.2
  read _ hr := guards_read hr
  step d _ hr := guards_stepReference d hr
  store op hp hs₀ hrefer _ hr hv := guards_storeWith op hr (hp.spares hs₀ hrefer) hv.item
  slot _ hc hi := guards_slotOf? hc hi.item
  field name _ hv := guards_fieldOf? name hv
  newCell _ hv := (guards_newVariable (C.within_newVariable _ _) hv.1 hv.2).weaken fun _ _ _ _ hr =>
    ⟨hr.target, hr.binds⟩
  declare _ hr hb := guards_declareName ⟨hr, hb⟩
  truth _ _ := Guards.reading (.orFail _)
  index _ _ := Guards.reading (.asIndex _)
  fits_val hv := hv.1.own.val
  default t _ := guards_defaultOf t
  coerce t _ hv := (Guards.making (makes_coerce t _ _ hv.item)).coerced
  result t _ hv := Guards.giving (gives_resultOf t hv.item)
  newArray t n _ :=
    (guards_newArray m.limits t n fun k => (moves_defaultItems t n.toNat (by simp)).weaken
    fun _ _ _ hvs => ⟨.refl _, by simpa using hvs.1, hvs.2⟩).weaken fun _ _ _ _ hv => hv.own.val
  array t n _ hlen hvs :=
    (guards_newArray m.limits t n fun k => moves_arrayItems t (by omega) hvs).weaken
    fun _ _ _ _ hv => ⟨hv, nofun⟩
  unary op _ hv := Guards.giving (Gives.imp (gives_applyUnary op hv.item) fun _ _ _ h => h.val)
  binary op _ ha _ := Guards.giving (Gives.imp (gives_applyBinary op ha.item) fun _ _ _ h => h.val)
  element _ hc hi := Guards.giving (gives_elementOf hc hi.item fun _ h => hc.touch (h ▸ rfl))
  member name _ hv := Guards.giving (gives_memberOf name hv)
  library f _ hvs := Guards.giving (Moves.orArgumentError (gives_callLibrary f hvs) _)
  vectorCall hp hscope hmethod _ hv hvs := guards_callVector (hp.allows hscope).1
    (fun hpush => (hp.allows hscope).2 (name_of_pushBack (hpush ▸ hmethod))) hv hvs
  mapCall _ _ hp hscope _ hv hvs := guards_callMap (hp.allows hscope).1 hv hvs
  textCall text name _ _ :=
    Guards.giving (Gives.imp (gives_callText text name _) fun _ _ _ h => h.val)
  textChange henter hcall hchange hs₀ htext _ h₀₁ hargs _ h₁₂ _ hrefer _ h₂₃ hr :=
    guards_changeText hr
    (Custody.Permits.kind_cleared henter.choose_spec hs₀ htext hargs hrefer hcall hchange)
      fun _ _ _ => Custody.Guarded.not_isPair henter.choose_spec hs₀ htext hargs hrefer
        (trans_of C.Within (trans_of C.Within h₀₁ h₁₂) h₂₃)
  readInto _ hr := guards_readInto hr
  emit _ _ := .bind (Guards.reading (.printed _)) fun _ _ _ _ _ _ =>
    .modify fun hs => ⟨hs.withStreams _ _, .of_eq rfl rfl⟩
  emitLineEnd _ := .modify fun hs => ⟨hs.withStreams _ _, .of_eq rfl rfl⟩
  depth _ := .get (.pure rfl)
  inScope _ hc := Guards.inScope hc
  locating p hc := .locating p hc
  iterate hc := .iterate hc
  call hs _ hfr hc := .returning (fun _ => .of_isSimple rfl)
    (Guards.calling (fun b hb => ⟨(hfr b hb).1, (hfr b hb).2⟩) (hc
      (hs.withNames _ hs.globals fun frame hmem b hb => by
        rw [List.mem_singleton.mp hmem] at hb
        exact ⟨(hfr b hb).1, (hfr b hb).2⟩)))
  untilReturn _ hc := .untilReturn _ hc

end SmallCpp
