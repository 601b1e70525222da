import SmallCpp.Proofs.Machine.Evaluation

/-!
# Relations that evaluation respects

Some facts about expressions need nothing of the values that are computed: they hold of the single
operations of the machine and are passed on from the parts of a computation to the whole.  For a
relation between computations with these properties, evaluation respects the relation of the two
ways in which it enters functions.  A fact about single computations takes the relation to ignore
the second one.  The two evaluations may be nested differently, if the relation allows for that.

## Main results

* `Compatible.expression` — **evaluation respects the relation.**
-/

namespace SmallCpp

variable {α : Type}

/-- The relation holds between the operations that read and change containers and variables and
themselves, and between sequences whose parts are related. -/
structure CompatibleStore (K : {α : Type} → Run α → Run α → Prop) : Prop where
  pure : ∀ {α : Type} (a : α), K (Pure.pure a) (Pure.pure a)
  bind : ∀ {α β : Type} {c d : Run α} {f g : α → Run β}, K c d → (∀ a, K (f a) (g a)) →
    K (c >>= f) (d >>= g)
  raise : ∀ {α : Type} (e : RuntimeError), K (raise e : Run α) (raise e)
  onHeap : ∀ {α : Type} (op : HeapM α), K (onHeap op) (onHeap op)
  /-- A look at the containers and the variables. -/
  look : ∀ {α : Type} {c : Run α} (f : Heap → Array Cell → α),
    (∀ s, c s = .ok (f s.heap s.cells) s) → K c c
  setCells : ∀ f : Array Cell → Array Cell, K (modify fun s => { s with cells := f s.cells })
    (modify fun s => { s with cells := f s.cells })

/-- The location that a name is bound to, if it is bound. -/
def lookup (id : String) : Run (Option Reference) :=
  fun s => .ok (s.lookup? id) s

theorem resolve_eq_lookup (id : String) : resolve id = (do
    match ← lookup id with
    | some r => return r
    | none => raise (.unboundName id)) :=
  rfl

/-- The relation holds between every operation that evaluates expressions and itself. -/
structure Compatible (m : Machine) (K : {α : Type} → Run α → Run α → Prop) : Prop
    extends CompatibleStore K where
  /-- What follows a computation starts with a result of it. -/
  after : ∀ {α β : Type} {c d : Run α} {f g : α → Run β}, K c d →
    (∀ a s t, c s = .ok a t → K (f a) (g a)) → K (c >>= f) (d >>= g)
  bind hc hf := after hc fun a _ _ _ => hf a
  tooDeep : K (throw .tooDeep : Run Unit) (throw .tooDeep)
  charge : ∀ n, K (charge m.limits n) (charge m.limits n)
  lookup : ∀ id, K (lookup id) (lookup id)
  newVariable : ∀ v t, K (newVariable v t) (newVariable v t)

/-! ### Operations on locations -/

namespace CompatibleStore

variable {K : {α : Type} → Run α → Run α → Prop} (h : CompatibleStore K)

include h

theorem raise_bind {β : Type} {f g : α → Run β} (e : RuntimeError) :
    K (SmallCpp.raise e >>= f) (SmallCpp.raise e >>= g) := by
  have hstops : ∀ f : α → Run β, (SmallCpp.raise e >>= f) = SmallCpp.raise e := fun _ => rfl
  rw [hstops f, hstops g]
  exact h.raise e

theorem discard {c d : Run α} (hc : K c d) : K (discard c : Run Unit) (discard d) := by
  rw [discard_eq_bind, discard_eq_bind]
  exact h.bind hc fun _ => h.pure ()

theorem readPlace (p : Place) : K (readPlace p) (readPlace p) := by
  induction p with
  | «variable» cell =>
    exact h.look (fun _ cells => (cells[cell]?.map Cell.value).getD .null) fun _ => rfl
  | vectorSlot | mapSlot | pairField | entryField => exact h.onHeap _
  | character text index ih => exact h.bind ih fun v => h.onHeap _

theorem writePlace (p : Place) (v : Value) : K (writePlace p v) (writePlace p v) := by
  induction p generalizing v with
  | «variable» cell =>
    exact h.setCells fun cells => cells.modify cell fun c => { c with value := v }
  | vectorSlot | mapSlot => exact h.onHeap _
  | pairField pair field => cases field <;> exact h.onHeap _
  | entryField map key field =>
    cases field with
    | first => exact h.raise _
    | second => exact h.onHeap _
  | character text index ih =>
    exact h.bind (h.readPlace text) fun old => h.bind (h.onHeap _) fun new => ih new

theorem assign (r : Reference) (v : Value) : K (r.assign v) (r.assign v) :=
  h.bind (h.onHeap _) fun w => h.writePlace r.place w

theorem stepReference (r : Reference) (delta : Int) :
    K (stepReference r delta) (stepReference r delta) :=
  h.bind (h.readPlace r.place) fun _ => h.bind (h.onHeap _) fun _ =>
    h.bind (h.assign r _) fun _ => h.pure _

theorem storeWith (op : AssignOp) (r : Reference) (v : Value) :
    K (storeWith op r v) (storeWith op r v) := by
  have hassign : ∀ w, K (r.assign w >>= fun _ => r.read)
    (r.assign w >>= fun _ => r.read) := fun w =>
    h.bind (h.assign r w) fun _ => h.readPlace r.place
  rw [SmallCpp.storeWith]
  cases op.arithmetic? with
  | none => exact hassign v
  | some arithmetic => exact h.bind (h.readPlace r.place) fun _ => h.bind (h.onHeap _) hassign

theorem slotOf? (c i : Value) : K (slotOf? c i) (slotOf? c i) := by
  unfold SmallCpp.slotOf?
  split
  · next loc =>
    exact h.look (fun heap _ => some (Reference.mk (.vectorSlot loc i) (heap.vectorAt loc).1))
      fun _ => rfl
  · next loc =>
    exact h.look (fun heap _ => some (Reference.mk (.mapSlot loc i) (heap.mapAt loc).2.1))
      fun _ => rfl
  · exact h.pure none

theorem fieldOf? (v : Value) (name : String) : K (fieldOf? v name) (fieldOf? v name) := by
  unfold SmallCpp.fieldOf?
  split
  · next loc field _ =>
    exact h.look (fun heap _ => some (Reference.mk (.pairField loc field)
      (if field == .first then (heap.pairAt loc).2.2.1 else (heap.pairAt loc).2.2.2))) fun _ => rfl
  · next map key _ field _ =>
    exact h.look (fun heap _ => some (Reference.mk (.entryField map key field)
      (if field == .first then (heap.mapAt map).1 else (heap.mapAt map).2.1))) fun _ => rfl
  · exact h.pure none

theorem changeText (change : TextChange) (name : String) (args : List Value) (r : Reference) :
    K (changeText change name args r) (changeText change name args r) := by
  refine h.bind (h.readPlace r.place) fun old => ?_
  cases change with
  | clear => exact h.writePlace r.place _
  | popBack => exact h.bind (h.onHeap _) fun w => h.writePlace r.place w
  | append =>
    dsimp only
    split
    · split
      · exact h.bind (h.onHeap _) fun w => h.writePlace r.place w
      · exact h.raise _
    · exact h.raise _

end CompatibleStore

namespace Compatible

variable {m : Machine} {K : {α : Type} → Run α → Run α → Prop} (h : Compatible m K)

include h

/-! ### Names, steps and new variables -/

theorem resolve (id : String) : K (resolve id) (resolve id) := by
  rw [resolve_eq_lookup]
  refine h.bind (h.lookup id) fun o => ?_
  cases o with
  | some r => exact h.pure r
  | none => exact h.raise _

theorem chargeFill (loc : Nat) (method : VectorMethod) (args : List Value) :
    K (chargeFill m.limits loc method args) (chargeFill m.limits loc method args) := by
  unfold SmallCpp.chargeFill
  split
  · next count _ =>
    let kept : Run Nat := fun s => .ok (s.heap.vectorAt loc).2.size s
    have hkept : K kept kept := h.look (fun heap _ => (heap.vectorAt loc).2.size) fun _ => rfl
    show K (kept >>= fun k => SmallCpp.onHeap (asIndex count) >>= fun n =>
      SmallCpp.charge m.limits (n - k))
      (kept >>= fun k => SmallCpp.onHeap (asIndex count) >>= fun n =>
      SmallCpp.charge m.limits (n - k))
    exact h.bind hkept fun k => h.bind (h.onHeap _) fun n => h.charge _
  · exact h.bind (h.onHeap _) fun n => h.charge n
  · exact h.pure ()

omit h

/-! ### Expressions -/

variable (m K) in
/-- The relation holds between the checks of two numbers of evaluations in progress that are
related, and the numbers stay related further inside. -/
structure Nests (N : Nat → Nat → Prop) : Prop where
  check : ∀ {n n' : Nat}, N n n' → K (checkNesting m.limits n) (checkNesting m.limits n')
  inside : ∀ {n n' : Nat}, N n n' → ∀ k, N (n + k) (n' + k)

theorem nests_eq (h : Compatible m K) : Nests m K Eq where
  check hn := checkNesting_rel (K := K) (h.pure ()) h.tooDeep rfl hn
  inside := add_of_eq

variable (K) in
/-- The two ways to enter functions are related. -/
def Entering (enter enter' : Enter) : Prop :=
  ∀ n f frame, K (enter n f frame) (enter' n f frame)

variable (K) in
/-- The two ways to enter functions are related, nested differently. -/
def EnteringAt (N : Nat → Nat → Prop) (enter enter' : Enter) : Prop :=
  ∀ {n n' : Nat}, N n n' → ∀ f frame, K (enter n f frame) (enter' n' f frame)

theorem Entering.at_eq {enter enter' : Enter} (henter : Entering K enter enter') :
    EnteringAt K Eq enter enter' := by
  rintro n _ rfl
  exact henter n

variable (m K) in
/-- What holds of the evaluation of an expression. -/
structure Expression (N : Nat → Nat → Prop) (enter enter' : Enter) (e : Expr) : Prop where
  evaluates : ∀ {n n' : Nat}, N n n' → K (eval m enter n e) (eval m enter' n' e)
  refers : ∀ {n n' : Nat}, N n n' → K (refer m enter n e) (refer m enter' n' e)

section Nested

variable {N : Nat → Nat → Prop} (hN : Nests m K N) {enter enter' : Enter}

/-- Computations that are related, with results of which nothing is known. -/
theorem unconditional {c d : Run α} (hc : K c d) :
    K c d ∧ ∀ s a t, c s = .ok a t → ∃ _ : State, True :=
  ⟨hc, fun s _ _ _ => ⟨s, trivial⟩⟩

/-- **A relation that evaluation respects is a discipline** that knows nothing of the values.  What
holds of a result holds in some state, for the relation knows nothing of the states either. -/
def evaluation (h : Compatible m K) (hN : Nests m K N) : Evaluation N m m where
  Allows _ := True
  Free _ := True
  Good _ := True
  After _ _ := True
  Val _ _ := True
  Item _ _ := True
  Fits _ _ _ := True
  Ref _ _ := True
  Binds _ _ := True
  Tame _ := True
  Yields _ _ _ _ := True
  Rel _ Q c d := K c d ∧ ∀ s a t, c s = .ok a t → ∃ u, Q u a
  similar := Machine.similar _
  after_trans _ _ := trivial
  val_after _ _ := trivial
  item_after _ _ := trivial
  ref_after _ _ := trivial
  val_simple _ := trivial
  val_list _ _ _ := trivial
  val_items _ _ _ := trivial
  val_item _ := trivial
  ref_character _ := trivial
  binds_free _ := trivial
  pure _ hQ := ⟨h.pure _, fun _ _ _ heq => by cases heq; exact ⟨_, hQ⟩⟩
  bind hc hf := by
    refine ⟨h.after hc.1 fun a s t ha => ?_, fun s b u hb => ?_⟩
    · obtain ⟨v, hv⟩ := hc.2 s a t ha
      exact (hf a v trivial trivial trivial hv).1
    · obtain ⟨a, t, ha, hb⟩ := bind_eq_ok hb
      obtain ⟨v, hv⟩ := hc.2 s a t ha
      exact (hf a v trivial trivial trivial hv).2 t b u hb
  weaken hc hQ := ⟨hc.1, fun s a t ha => (hc.2 s a t ha).imp fun u => hQ u a trivial⟩
  raise _ e := ⟨h.raise e, fun _ _ _ heq => nomatch heq⟩
  charge n _ := unconditional (h.charge n)
  check hn _ := unconditional (hN.check hn)
  inside := hN.inside
  resolve id _ := unconditional (h.resolve id)
  read _ _ := unconditional (h.readPlace _)
  step d _ _ := unconditional (h.stepReference _ d)
  store op _ _ _ _ _ _ := unconditional (h.storeWith op _ _)
  slot _ _ _ := ⟨h.slotOf? _ _, fun s _ _ _ => ⟨s, fun _ _ => trivial⟩⟩
  field name _ _ := ⟨h.fieldOf? _ name, fun s _ _ _ => ⟨s, fun _ _ => trivial⟩⟩
  newCell _ _ := ⟨h.newVariable _ _, fun s _ _ _ => ⟨s, trivial, fun _ => trivial⟩⟩
  truth _ _ := unconditional (h.onHeap _)
  index _ _ := unconditional (h.onHeap _)
  fits_val _ := trivial
  default _ _ := unconditional (h.onHeap _)
  coerce _ _ _ := unconditional (h.onHeap _)
  newArray _ n _ := unconditional (h.bind (h.charge n) fun _ => h.onHeap _)
  array _ n _ _ _ := unconditional (h.bind (h.charge n) fun _ => h.onHeap _)
  unary _ _ _ := unconditional (h.onHeap _)
  binary _ _ _ _ := unconditional (h.onHeap _)
  element _ _ _ := unconditional (h.onHeap _)
  member _ _ _ := unconditional (h.onHeap _)
  library _ _ _ := unconditional (h.onHeap _)
  vectorCall _ _ _ _ _ _ := unconditional (h.bind (h.chargeFill _ _ _) fun _ => h.onHeap _)
  mapCall _ _ _ _ _ _ _ := unconditional (h.onHeap _)
  textCall _ _ _ _ := unconditional (h.onHeap _)
  textChange _ _ _ _ _ _ _ _ _ _ _ _ _ _ _ := unconditional (h.changeText _ _ _ _)

include h hN

theorem allowed : m.linked.EveryFunction (h.evaluation hN).Allows (h.evaluation hN).Free :=
  (m.linked.every_of_forall (fun _ => trivial) fun _ => trivial).functions

theorem enters (henter : EnteringAt K N enter enter') : (h.evaluation hN).Enters {} enter enter' :=
  ⟨trivial, fun hn f frame _ _ _ _ _ => unconditional (henter hn f frame)⟩

/-- **Evaluation respects the relation** if entering functions does. -/
theorem expression (henter : EnteringAt K N enter enter') (e : Expr) :
    Expression m K N enter enter' e := by
  have hall := Evaluation.both (h.allowed hN) (h.enters hN henter) e
    (e.every_of_forall fun _ => trivial)
  exact ⟨fun hn => (hall.1.1 hn {} trivial trivial).1, fun hn => (hall.1.2 hn {} trivial trivial).1⟩

variable {n n' : Nat}

theorem expressions (henter : EnteringAt K N enter enter') (hn : N n n') (es : List Expr) :
    K (evalAll m enter n es) (evalAll m enter' n' es) ∧ ∀ params frame,
      K (bindArgs m enter n params es frame) (bindArgs m enter' n' params es frame) := by
  have hes : ∀ e ∈ es, e.Every (h.evaluation hN).Allows := fun e _ =>
    e.every_of_forall fun _ => trivial
  have hall := Evaluation.all (h.allowed hN) (h.enters hN henter) hes
  refine ⟨(hall.1 hn {} trivial trivial).1, fun params frame => ?_⟩
  exact (hall.2 hn params frame {} (fun _ _ _ => trivial) trivial trivial fun _ _ =>
    ⟨trivial, trivial⟩).1

theorem declaresAt (henter : EnteringAt K N enter enter') (hn : N n n') (d : Declarator) :
    K (declaredLocation m enter n d) (declaredLocation m enter' n' d) :=
  (Evaluation.declaredLocation (s := {}) (d.every_of_forall (fun _ => trivial) fun _ => trivial)
    (Evaluation.expressions (h.allowed hN) (h.enters hN henter)) hn trivial trivial).1

end Nested

/-! ### Evaluations that are nested alike -/

variable {enter enter' : Enter}

include h

theorem evaluates (henter : Entering K enter enter') (n : Nat) (e : Expr) :
    K (eval m enter n e) (eval m enter' n e) :=
  (h.expression h.nests_eq henter.at_eq e).evaluates rfl

theorem refers (henter : Entering K enter enter') (n : Nat) (e : Expr) :
    K (refer m enter n e) (refer m enter' n e) :=
  (h.expression h.nests_eq henter.at_eq e).refers rfl

theorem bindsArgs (henter : Entering K enter enter') (n : Nat) (params : List Param)
    (es : List Expr)
    (frame : Frame) : K (bindArgs m enter n params es frame)
    (bindArgs m enter' n params es frame) :=
  (h.expressions h.nests_eq henter.at_eq rfl es).2 params frame

theorem declaredLocation (henter : Entering K enter enter') (n : Nat) (d : Declarator) :
    K (declaredLocation m enter n d) (declaredLocation m enter' n d) :=
  h.declaresAt h.nests_eq henter.at_eq rfl d

end Compatible

end SmallCpp
