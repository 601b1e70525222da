import SmallCpp.Machine.Run
import SmallCpp.Proofs.Heap.Scalar
import SmallCpp.Proofs.Machine.Inversion
import SmallCpp.Proofs.Syntax.Every

/-!
# Disciplines of evaluation

Most statements about runs have the same shape: something holds of every single operation of the
machine, and therefore of every expression, every statement and every run.  A discipline collects
what has to be known of the single operations; the passage from there to whole expressions is made
once, here.

A discipline relates two machines with similar programs that may differ in their budget of steps,
and two evaluations that may be nested differently.  Its central part is a relation `Rel s Q c d`
between two computations, for a start in the state `s` and with a condition `Q` on the value of `c`
and the state that `c` leaves.  A statement about single runs takes both machines to be the same and
lets the relation ignore `d`.

## Main results

* `Evaluation.evaluates` — **the discipline holds of every expression.**
-/

namespace SmallCpp

variable {α : Type} {n n' : Nat} {name id : String} {frame : Frame} {s t : State} {p q : Position}
  {es : List Expr} {a b e object : Expr} {access : Access} {d : Declarator} {r : Reference}
  {Q : State → α → Prop} {c : Run α}

theorem discard_eq_bind (c : Run α) : (discard c : Run Unit) = c >>= fun _ => pure () := by
  funext s
  show EStateM.map _ _ _ = EStateM.bind _ _ _
  rw [EStateM.map, EStateM.bind]
  cases c s <;> rfl

/-- Two programs that start alike, and in which a name with a number of arguments means the same. -/
structure Linked.Similar (l l' : Linked) : Prop where
  init : l'.init = l.init
  main : l'.main? = l.main?
  library : ∀ name, l'.library? name = l.library? name
  overload : ∀ name count, (l'.overloads? name).map (List.find? fun f => f.arity == count) =
    (l.overloads? name).map (List.find? fun f => f.arity == count)

theorem Linked.Similar.refl (l : Linked) : l.Similar l :=
  ⟨rfl, rfl, fun _ => rfl, fun _ _ => rfl⟩

theorem add_of_eq (h : n = n') (k : Nat) : n + k = n' + k :=
  congrArg (· + k) h

theorem Machine.similar (m : Machine) : m.linked.Similar m.linked :=
  .refl _

theorem Linked.Similar.cases {l l' : Linked} (h : l.Similar l') (name : String) (count : Nat) :
    l.overloads? name = none ∧ l'.overloads? name = none ∨
      ∃ fs fs', l.overloads? name = some fs ∧ l'.overloads? name = some fs' ∧
        selectOverload name fs' count = selectOverload name fs count := by
  have hsame := h.overload name count
  cases ho : l.overloads? name with
  | none =>
    rw [ho] at hsame
    exact Or.inl ⟨rfl, Option.map_eq_none_iff.mp hsame⟩
  | some fs =>
    rw [ho] at hsame
    obtain ⟨fs', ho', hfind⟩ := Option.map_eq_some_iff.mp hsame
    exact Or.inr ⟨fs, fs', rfl, ho', by rw [selectOverload, selectOverload, hfind]⟩

/-- The nesting is checked alike under limits that differ in the steps only. -/
theorem checkNesting_rel {K : Run Unit → Run Unit → Prop} (hpure : K (pure ()) (pure ()))
    (hthrow : K (throw .tooDeep) (throw .tooDeep)) {l l' : Limits}
    (hdepth : l'.maxCallDepth = l.maxCallDepth) (hn : n = n') :
    K (checkNesting l n) (checkNesting l' n') := by
  subst hn
  have hmax : l'.maxNesting = l.maxNesting := by rw [Limits.maxNesting, Limits.maxNesting, hdepth]
  rw [checkNesting, checkNesting, hmax]
  split
  · exact hpure
  · exact hthrow

/-- No condition on a value and the state that comes with it. -/
def anyway {α : Type} : State → α → Prop := fun _ _ => True

theorem Literal.isSimple_value (l : Literal) : l.value.isSimple = true := by
  cases l <;> rfl

/-- The bindings of a frame with a name bound are that one and bindings from before. -/
theorem Frame.mem_bind {b : String × Reference} (hb : b ∈ Frame.bind name r frame) :
    b = (name, r) ∨ b ∈ frame := by
  induction frame with
  | nil => exact Or.inl (List.mem_singleton.mp hb)
  | cons head frame ih =>
    simp only [Frame.bind] at hb
    split at hb
    · next heq =>
      rw [beq_iff_eq.mp heq] at hb
      exact (List.mem_cons.mp hb).imp_right (List.mem_cons_of_mem head)
    · rcases List.mem_cons.mp hb with rfl | hb
      · exact Or.inr List.mem_cons_self
      · exact (ih hb).imp_right (List.mem_cons_of_mem head)

/-- What is known of the single operations that evaluate expressions, on two machines with similar
programs. -/
structure Evaluation (N : Nat → Nat → Prop) (m m' : Machine) where
  /-- The condition on the expressions of the program. -/
  Allows : Expr → Prop
  /-- The condition on the names that are declared as references. -/
  Free : String → Prop
  Good : State → Prop
  /-- The second state may come after the first. -/
  After : State → State → Prop
  /-- What is known of the values that expressions produce. -/
  Val : State → Value → Prop
  /-- What is known of the values inside lists. -/
  Item : State → Value → Prop
  /-- The value may be stored in a new variable of the type. -/
  Fits : State → TypeExpr → Value → Prop
  /-- What is known of the locations that expressions denote. -/
  Ref : State → Reference → Prop
  Binds : String → Reference → Prop
  /-- What is known of the ways to enter functions. -/
  Tame : Enter → Prop
  /-- What is known of a computation, its start, its result and its end, when the next starts. -/
  Yields : {α : Type} → Run α → State → α → State → Prop
  Rel : {α : Type} → State → (State → α → Prop) → Run α → Run α → Prop
  similar : m.linked.Similar m'.linked
  /- What lasts -/
  after_trans : ∀ {s t u}, After s t → After t u → After s u
  val_after : ∀ {s t v}, After s t → Val s v → Val t v
  item_after : ∀ {s t v}, After s t → Item s v → Item t v
  ref_after : ∀ {s t r}, After s t → Ref s r → Ref t r
  val_simple : ∀ {s v}, v.isSimple = true → Val s v
  val_list : ∀ {s p es vs}, Allows (.braces p es) → vs.length = es.length →
    (∀ v ∈ vs, Val s v) → Val s (.list vs)
  val_items : ∀ {s vs}, Val s (.list vs) → ∀ v ∈ vs, Item s v
  val_item : ∀ {s v}, Val s v → Item s v
  ref_character : ∀ {s r i}, Ref s r → Ref s (characterOf r i)
  binds_free : ∀ {name r}, Free name → Binds name r
  /- Composition -/
  pure : ∀ {α s Q} {a : α}, Good s → Q s a → Rel s Q (Pure.pure a) (Pure.pure a)
  bind : ∀ {α β s} {Q : State → α → Prop} {Q' : State → β → Prop} {c d : Run α} {f g : α → Run β},
    Rel s Q c d →
    (∀ a t, Yields c s a t → Good t → After s t → Q t a → Rel t Q' (f a) (g a)) →
    Rel s Q' (c >>= f) (d >>= g)
  weaken : ∀ {α s} {Q Q' : State → α → Prop} {c d : Run α}, Rel s Q c d →
    (∀ t a, After s t → Q t a → Q' t a) → Rel s Q' c d
  raise : ∀ {α s Q}, Good s → ∀ e, Rel s Q (raise e : Run α) (raise e)
  /- Steps and nesting -/
  charge : ∀ {s} n, Good s → Rel s anyway (charge m.limits n) (charge m'.limits n)
  check : ∀ {n n' s}, N n n' → Good s → Rel s anyway (checkNesting m.limits n)
    (checkNesting m'.limits n')
  inside : ∀ {n n'}, N n n' → ∀ k, N (n + k) (n' + k)
  /- Names and locations -/
  resolve : ∀ {s} id, Good s → Rel s Ref (resolve id) (resolve id)
  read : ∀ {s r}, Good s → Ref s r → Rel s Val r.read r.read
  step : ∀ {s r} d, Good s → Ref s r → Rel s Val (stepReference r d) (stepReference r d)
  /-- The location was found in `s₀`, before the value was evaluated. -/
  store : ∀ {enter nesting p target e s₀ s₁ s r v} op, Allows (.assign p op target e) → Good s₀ →
    Yields (refer m enter nesting target) s₀ r s₁ → Good s → Ref s r → Val s v →
    Rel s Val (storeWith op r v) (storeWith op r v)
  slot : ∀ {s c i}, Good s → Val s c → Val s i →
    Rel s (fun t o => ∀ r, o = some r → Ref t r) (slotOf? c i) (slotOf? c i)
  field : ∀ {s v} name, Good s → Val s v →
    Rel s (fun t o => ∀ r, o = some r → Ref t r) (fieldOf? v name) (fieldOf? v name)
  newCell : ∀ {s t v}, Good s → Fits s t v →
    Rel s (fun u r => Ref u r ∧ ∀ name, Binds name r) (newVariable v t) (newVariable v t)
  /- Operations on values -/
  truth : ∀ {s v}, Good s → Val s v → Rel s anyway (truth v) (truth v)
  index : ∀ {s v}, Good s → Val s v → Rel s anyway (onHeap (asIndex v)) (onHeap (asIndex v))
  fits_val : ∀ {s t v}, Fits s t v → Val s v
  default : ∀ {s} t, Good s → Rel s (fun u v => Fits u t v) (onHeap (defaultOf t))
    (onHeap (defaultOf t))
  coerce : ∀ {s v} t, Good s → Val s v → Rel s (fun u w => Fits u t w) (onHeap (coerce t v))
    (onHeap (coerce t v))
  newArray : ∀ {s} t (n : Int), Good s →
    Rel s Val
      (SmallCpp.charge m.limits n >>= fun _ =>
        onHeap (defaultItems t n.toNat #[] >>= fun items => newVector (some t) items))
      (SmallCpp.charge m'.limits n >>= fun _ =>
        onHeap (defaultItems t n.toNat #[] >>= fun items => newVector (some t) items))
  array : ∀ {s vs} t (n : Int), Good s → (vs.length : Int) ≤ n → (∀ v ∈ vs, Item s v) →
    Rel s (fun u v => Fits u (.of .vector [t]) v)
      (SmallCpp.charge m.limits n >>= fun _ =>
        onHeap (arrayItems t n.toNat vs >>= fun items => newVector (some t) items))
      (SmallCpp.charge m'.limits n >>= fun _ =>
        onHeap (arrayItems t n.toNat vs >>= fun items => newVector (some t) items))
  unary : ∀ {s v} op, Good s → Val s v → Rel s Val (onHeap (applyUnary op v))
    (onHeap (applyUnary op v))
  binary : ∀ {s a b} op, Good s → Val s a → Val s b → Rel s Val (onHeap (applyBinary op a b))
    (onHeap (applyBinary op a b))
  element : ∀ {s c i}, Good s → Val s c → Val s i → Rel s Val (onHeap (elementOf c i))
    (onHeap (elementOf c i))
  member : ∀ {s v} name, Good s → Val s v → Rel s Val (onHeap (memberOf v name))
    (onHeap (memberOf v name))
  library : ∀ {s vs} f, Good s → (∀ v ∈ vs, Val s v) →
    Rel s Val (callVisible f vs) (callVisible f vs)
  vectorCall : ∀ {s p q object access name args method loc vs},
    Allows (.call p (.member q object access name) args) → access ≠ .scope →
    VectorMethod.ofName? name = some method → Good s → Val s (.vector loc) → (∀ v ∈ vs, Val s v) →
    Rel s Val
      (chargeFill m.limits loc method vs >>= fun _ =>
        onHeap (orArgumentError (.memberArguments "vector" name) (callVector method loc vs)))
      (chargeFill m'.limits loc method vs >>= fun _ =>
        onHeap (orArgumentError (.memberArguments "vector" name) (callVector method loc vs)))
  mapCall : ∀ {s p q object access args loc vs} method name,
    Allows (.call p (.member q object access name) args) → access ≠ .scope → Good s →
    Val s (.map loc) → (∀ v ∈ vs, Val s v) →
    Rel s Val (onHeap (orArgumentError (.memberArguments "map" name) (callMap method loc vs)))
      (onHeap (orArgumentError (.memberArguments "map" name) (callMap method loc vs)))
  textCall : ∀ {s vs} text name, Good s → (∀ v ∈ vs, Val s v) →
    Rel s Val (onHeap (callText text name vs)) (onHeap (callText text name vs))
  /-- The object of a change of a text was evaluated before: once for its value in `s₀`, and again
  for its location in `s₂`, after the arguments. -/
  textChange : ∀ {enter nesting p q object access name args change text vs r s₀ s₁ s₂ s₃},
    Tame enter → Allows (.call p (.member q object access name) args) →
    TextChange.ofName? name = some change → Good s₀ →
    Yields (eval m enter nesting object) s₀ (.text text) s₁ → Good s₁ → After s₀ s₁ →
    Yields (evalAll m enter nesting args) s₁ vs s₂ → Good s₂ → After s₁ s₂ → (∀ v ∈ vs, Val s₂ v) →
    Yields (refer m enter nesting object) s₂ r s₃ → Good s₃ → After s₂ s₃ → Ref s₃ r →
    Rel s₃ anyway (changeText change name vs r) (changeText change name vs r)

namespace Evaluation

variable {N : Nat → Nat → Prop} {m m' : Machine} (D : Evaluation N m m')

/-! ### Derived rules -/

/-- What is known of the frame of a call. -/
def FrameOk (s : State) (frame : Frame) : Prop :=
  ∀ b ∈ frame, D.Ref s b.2 ∧ D.Binds b.1 b.2

def Vals (s : State) (vs : List Value) : Prop :=
  ∀ v ∈ vs, D.Val s v

/-- What is known of the values that initialize an array. -/
def Items (s : State) (vs : List Value) : Prop :=
  ∀ v ∈ vs, D.Item s v

variable {D}

theorem FrameOk.after (h : D.FrameOk s frame) (hst : D.After s t) : D.FrameOk t frame :=
  fun b hb => ⟨D.ref_after hst (h b hb).1, (h b hb).2⟩

theorem Items.after {vs : List Value} (h : D.Items s vs) (hst : D.After s t) : D.Items t vs :=
  fun v hv => D.item_after hst (h v hv)

/-- A frame stays as it should be when a name is bound as it should be. -/
theorem FrameOk.bind (h : D.FrameOk s frame) (hr : D.Ref s r) (hb : D.Binds name r) :
    D.FrameOk s (Frame.bind name r frame) := by
  intro b hmem
  rcases Frame.mem_bind hmem with rfl | hmem
  · exact ⟨hr, hb⟩
  · exact h b hmem

theorem raise_bind {β : Type} {Q : State → β → Prop} {f g : α → Run β} (hs : D.Good s)
    (e : RuntimeError) :
    D.Rel s Q (SmallCpp.raise e >>= f) (SmallCpp.raise e >>= g) := by
  have hstops : ∀ f : α → Run β, (SmallCpp.raise e >>= f) = SmallCpp.raise e := fun _ => rfl
  rw [hstops f, hstops g]
  exact D.raise hs e

/-- A computation after `s₀` that first checks the nesting of the evaluations. -/
theorem checked {s₀ : State} {d : Run α} (hn : N n n') (hs₀ : D.After s₀ s) (hs : D.Good s)
    (h : ∀ t, D.After s₀ t → D.Good t → D.Rel t Q c d) :
    D.Rel s Q (checkNesting m.limits n >>= fun _ => c) (checkNesting m'.limits n' >>= fun _ => d) :=
  D.bind (D.check hn hs) fun _ t _ ht hst _ => h t (D.after_trans hs₀ hst) ht

theorem discard {d : Run α} (h : D.Rel s Q c d) : D.Rel s anyway (discard c) (discard d) := by
  rw [discard_eq_bind, discard_eq_bind]
  exact D.bind h fun _ _ _ ht _ _ => D.pure ht trivial

/-! ### Expressions -/

variable (D) in
/-- The functions of the program can be entered from the states after `s₀`. -/
structure Enters (s₀ : State) (enter enter' : Enter) : Prop where
  tame : D.Tame enter
  rel : ∀ {n n'}, N n n' → ∀ f frame s, m.linked.Has f → D.After s₀ s → D.Good s →
    D.FrameOk s frame →
    D.Rel s D.Val (enter n f frame) (enter' n' f frame)

variable (D) (s₀ : State) (enter enter' : Enter)

/-- The discipline holds of the evaluation of an expression after `s₀`. -/
def Evaluates (e : Expr) : Prop :=
  ∀ ⦃n n'⦄, N n n' → ∀ s, D.After s₀ s → D.Good s →
    D.Rel s D.Val (eval m enter n e) (eval m' enter' n' e)

/-- The discipline holds of finding the location that an expression denotes. -/
def Refers (e : Expr) : Prop :=
  ∀ ⦃n n'⦄, N n n' → ∀ s, D.After s₀ s → D.Good s →
    D.Rel s D.Ref (refer m enter n e) (refer m' enter' n' e)

/-- The discipline holds of the evaluation of several expressions. -/
def EvaluatesAll (es : List Expr) : Prop :=
  ∀ ⦃n n'⦄, N n n' → ∀ s, D.After s₀ s → D.Good s →
    D.Rel s (fun t vs => vs.length = es.length ∧ D.Vals t vs) (evalAll m enter n es)
    (evalAll m' enter' n' es)

/-- The discipline holds of binding arguments to parameters. -/
def BindsArgs (es : List Expr) : Prop :=
  ∀ ⦃n n'⦄, N n n' → ∀ params frame s, (∀ p ∈ params, p.type.isReference = true → D.Free p.name) →
    D.After s₀ s → D.Good s → D.FrameOk s frame →
    D.Rel s D.FrameOk (bindArgs m enter n params es frame) (bindArgs m' enter' n' params es frame)

variable {D s₀ enter enter'}

theorem copyInto {c d : Run Value} (t : TypeExpr) (h : D.Rel s D.Val c d) :
    D.Rel s (fun u r => D.Ref u r ∧ ∀ name, D.Binds name r) (copyInto t c) (copyInto t d) := by
  refine D.bind h fun v u _ hu _ hv => ?_
  exact D.bind (D.coerce t hu hv) fun w u' _ hu' _ hw => D.newCell hu' hw

theorem bindWith {c d : Run Value} {r r' : Run Reference} (hs : D.Good s) (t : TypeExpr) (e : Expr)
    (hr : D.Rel s D.Ref r r') (hc : D.Rel s D.Val c d) :
    D.Rel s D.Ref (bindWith t e r c) (bindWith t e r' d) := by
  rw [SmallCpp.bindWith, SmallCpp.bindWith]
  split
  · exact hr
  · split
    · exact D.weaken (copyInto t hc) fun _ _ _ h => h.1
    · exact D.raise hs _

theorem evaluates_literal (p : Position) (l : Literal) :
    D.Evaluates s₀ enter enter' (.literal p l) := by
  intro n n' hn s hs₀ hs
  rw [eval_step, eval_step]
  exact checked hn hs₀ hs fun t _ ht => D.pure ht (D.val_simple l.isSimple_value)

theorem evaluates_name (p : Position) (id : String) : D.Evaluates s₀ enter enter' (.name p id) := by
  intro n n' hn s hs₀ hs
  rw [eval_step, eval_step]
  refine checked hn hs₀ hs fun t _ ht => ?_
  exact D.bind (D.resolve id ht) fun r u _ hu _ hr => D.read hu hr

theorem evaluates_braces (hp : D.Allows (.braces p es)) (hes : D.EvaluatesAll s₀ enter enter' es) :
    D.Evaluates s₀ enter enter' (.braces p es) := by
  intro n n' hn s hs₀ hs
  rw [eval_step, eval_step]
  refine checked hn hs₀ hs fun t hs₀t ht => ?_
  refine D.bind (hes (D.inside hn _) t hs₀t ht) fun vs u _ hu _ hvs => ?_
  exact D.pure hu (D.val_list hp hvs.1 hvs.2)

theorem evaluates_newArray {type : TypeExpr} (he : D.Evaluates s₀ enter enter' e) :
    D.Evaluates s₀ enter enter' (.newArray p type e) := by
  intro n n' hn s hs₀ hs
  rw [eval_step, eval_step]
  refine checked hn hs₀ hs fun t hs₀t ht => ?_
  refine D.bind (he (D.inside hn _) t hs₀t ht) fun v u _ hu _ hv => ?_
  refine D.bind (D.index hu hv) fun size w _ hw _ _ => ?_
  dsimp only
  split
  · exact raise_bind hw _
  · exact D.newArray type size hw

theorem evaluates_unary {op : UnaryOp} (he : D.Evaluates s₀ enter enter' e)
    (hr : D.Refers s₀ enter enter' e) : D.Evaluates s₀ enter enter' (.unary p op e) := by
  intro n n' hn s hs₀ hs
  have hstep : ∀ delta t, D.After s₀ t → D.Good t → D.Rel t D.Val
      (refer m enter (n + 2) e >>= fun r => Functor.discard (stepReference r delta) >>=
      fun _ => r.read)
      (refer m' enter' (n' + 2) e >>= fun r =>
        Functor.discard (stepReference r delta) >>= fun _ => r.read) := by
    intro delta t hs₀t ht
    refine D.bind (hr (D.inside hn _) t hs₀t ht) fun r u _ hu _ hru => ?_
    refine D.bind (discard (D.step delta hu hru)) fun _ w _ hw huw _ => ?_
    exact D.read hw (D.ref_after huw hru)
  rw [eval_step, eval_step]
  refine checked hn hs₀ hs fun t hs₀t ht => ?_
  cases op with
  | increment => exact hstep 1 t hs₀t ht
  | decrement => exact hstep (-1) t hs₀t ht
  | negate | plus | not | complement =>
    exact D.bind (he (D.inside hn _) t hs₀t ht) fun v u _ hu _ hv => D.unary _ hu hv

theorem evaluates_step {op : StepOp} (hr : D.Refers s₀ enter enter' e) :
    D.Evaluates s₀ enter enter' (.step p op e) := by
  intro n n' hn s hs₀ hs
  rw [eval_step, eval_step]
  refine checked hn hs₀ hs fun t hs₀t ht => ?_
  exact D.bind (hr (D.inside hn _) t hs₀t ht) fun r u _ hu _ hru => D.step _ hu hru

theorem evaluates_binary {op : BinaryOp} (ha : D.Evaluates s₀ enter enter' a)
    (hb : D.Evaluates s₀ enter enter' b) : D.Evaluates s₀ enter enter' (.binary p op a b) := by
  intro n n' hn s hs₀ hs
  by_cases hop : op = .logicalAnd ∨ op = .logicalOr
  · rw [eval_logical hop, eval_logical hop]
    refine checked hn hs₀ hs fun t hs₀t ht => ?_
    refine D.bind (ha (D.inside hn _) t hs₀t ht) fun v u _ hu htu hv => ?_
    refine D.bind (D.truth hu hv) fun c u' _ hu' huu' _ => ?_
    split
    · exact D.pure hu' (D.val_simple rfl)
    · -- the right operand is evaluated in the state that the left one leaves
      have hs₀u := D.after_trans hs₀t (D.after_trans htu huu')
      refine D.bind (hb (D.inside hn _) u' hs₀u hu') fun w t' _ ht' _ hw => ?_
      exact D.bind (D.truth ht' hw) fun c t'' _ ht'' _ _ => D.pure ht'' (D.val_simple rfl)
  · rw [eval_binary hop, eval_binary hop]
    refine checked hn hs₀ hs fun t hs₀t ht => ?_
    refine D.bind (ha (D.inside hn _) t hs₀t ht) fun v u _ hu htu hv => ?_
    refine D.bind (hb (D.inside hn _) u (D.after_trans hs₀t htu) hu) fun w u' _ hu' huu' hw => ?_
    exact D.binary _ hu' (D.val_after huu' hv) hw

theorem evaluates_assign {op : AssignOp} (hp : D.Allows (.assign p op a b))
    (ha : D.Refers s₀ enter enter' a) (hb : D.Evaluates s₀ enter enter' b) :
    D.Evaluates s₀ enter enter' (.assign p op a b) := by
  intro n n' hn s hs₀ hs
  rw [eval_step, eval_step]
  refine checked hn hs₀ hs fun t hs₀t ht => ?_
  refine D.bind (ha (D.inside hn _) t hs₀t ht) fun r u hrefer hu htu hr => ?_
  refine D.bind (hb (D.inside hn _) u (D.after_trans hs₀t htu) hu) fun v u' _ hu' huu' hv => ?_
  exact D.store op hp ht hrefer hu' (D.ref_after huu' hr) hv

theorem evaluates_index (ha : D.Evaluates s₀ enter enter' a) (hb : D.Evaluates s₀ enter enter' b) :
    D.Evaluates s₀ enter enter' (.index p a b) := by
  intro n n' hn s hs₀ hs
  rw [eval_step, eval_step]
  refine checked hn hs₀ hs fun t hs₀t ht => ?_
  refine D.bind (ha (D.inside hn _) t hs₀t ht) fun c u _ hu htu hc => ?_
  refine D.bind (hb (D.inside hn _) u (D.after_trans hs₀t htu) hu) fun i u' _ hu' huu' hi => ?_
  exact D.element hu' (D.val_after huu' hc) hi

theorem evaluates_member (he : D.Evaluates s₀ enter enter' e) :
    D.Evaluates s₀ enter enter' (.member p e access name) := by
  intro n n' hn s hs₀ hs
  rw [eval_step, eval_step]
  refine checked hn hs₀ hs fun t hs₀t ht => ?_
  cases access with
  | scope => exact D.raise ht _
  | dot | arrow =>
    exact D.bind (he (D.inside hn _) t hs₀t ht) fun v u _ hu _ hv => D.member name hu hv

/-! ### Locations -/

theorem refers_name (p : Position) (id : String) : D.Refers s₀ enter enter' (.name p id) := by
  intro n n' hn s hs₀ hs
  rw [refer_step, refer_step]
  exact checked hn hs₀ hs fun t _ ht => D.resolve id ht

theorem refers_index (ha : D.Evaluates s₀ enter enter' a) (hra : D.Refers s₀ enter enter' a)
    (hb : D.Evaluates s₀ enter enter' b) : D.Refers s₀ enter enter' (.index p a b) := by
  intro n n' hn s hs₀ hs
  rw [refer_step, refer_step]
  refine checked hn hs₀ hs fun t hs₀t ht => ?_
  refine D.bind (ha (D.inside hn _) t hs₀t ht) fun c u _ hu htu hc => ?_
  have hs₀u := D.after_trans hs₀t htu
  refine D.bind (hb (D.inside hn _) u hs₀u hu) fun i u' _ hu' huu' hi => ?_
  refine D.bind (D.slot hu' (D.val_after huu' hc) hi) fun o w _ hw hu'w ho => ?_
  cases o with
  | some r => exact D.pure hw (ho r rfl)
  | none =>
    -- what is no container may be a text, whose location is found anew
    dsimp only
    split
    · have hs₀w := D.after_trans hs₀u (D.after_trans huu' hu'w)
      refine D.bind (hra (D.inside hn _) w hs₀w hw) fun r w' _ hw' hww' hr => ?_
      refine D.bind (D.index hw' (D.val_after (D.after_trans hu'w hww') hi)) ?_
      exact fun j x _ hx hw'x _ => D.pure hx (D.ref_character (D.ref_after hw'x hr))
    · exact D.raise hw _

theorem refers_member (he : D.Evaluates s₀ enter enter' e) :
    D.Refers s₀ enter enter' (.member p e access name) := by
  intro n n' hn s hs₀ hs
  rw [refer_step, refer_step]
  refine checked hn hs₀ hs fun t hs₀t ht => ?_
  dsimp only
  split
  · exact D.raise ht _
  · refine D.bind (he (D.inside hn _) t hs₀t ht) fun v u _ hu _ hv => ?_
    refine D.bind (D.field name hu hv) fun o w _ hw _ ho => ?_
    cases o with
    | some r => exact D.pure hw (ho r rfl)
    | none => exact D.raise hw _

theorem refers_other (h : e.mayDenote = false) : D.Refers s₀ enter enter' e := by
  intro n n' hn s hs₀ hs
  rw [refer_step, refer_step]
  refine checked hn hs₀ hs fun t _ ht => ?_
  cases e with
  | name | index | member => cases h
  | _ => exact D.raise ht _

/-! ### Several expressions -/

theorem evaluatesAll_nil : D.EvaluatesAll s₀ enter enter' [] := by
  intro n n' hn s hs₀ hs
  rw [evalAll, evalAll]
  exact D.pure hs ⟨rfl, List.forall_mem_nil _⟩

theorem evaluatesAll_cons (he : D.Evaluates s₀ enter enter' e)
    (hes : D.EvaluatesAll s₀ enter enter' es) :
    D.EvaluatesAll s₀ enter enter' (e :: es) := by
  intro n n' hn s hs₀ hs
  rw [evalAll, evalAll]
  refine D.bind (he hn s hs₀ hs) fun v t _ ht hst hv => ?_
  refine D.bind (hes hn t (D.after_trans hs₀ hst) ht) fun vs u _ hu htu hvs => ?_
  refine D.pure hu ⟨by rw [List.length_cons, List.length_cons, hvs.1], ?_⟩
  intro w hw
  rcases List.mem_cons.mp hw with rfl | hw
  · exact D.val_after htu hv
  · exact hvs.2 w hw

theorem bindsArgs_nil : D.BindsArgs s₀ enter enter' [] := by
  intro n n' hn params frame s _ _ hs hfr
  rw [bindArgs.eq_def, bindArgs.eq_def]
  exact D.pure hs hfr

theorem bindsArgs_cons (he : D.Evaluates s₀ enter enter' e) (hr : D.Refers s₀ enter enter' e)
    (hes : D.BindsArgs s₀ enter enter' es) : D.BindsArgs s₀ enter enter' (e :: es) := by
  intro n n' hn params frame s hpars hs₀ hs hfr
  rw [bindArgs.eq_def, bindArgs.eq_def]
  cases params with
  | nil => exact D.pure hs hfr
  | cons param params =>
    have hpars' : ∀ p ∈ params, p.type.isReference = true → D.Free p.name :=
      fun p hp => hpars p (List.mem_cons_of_mem param hp)
    -- the rest of the arguments, once the first parameter is bound
    have hrest : ∀ r t, D.After s t → D.Good t → D.Ref t r → D.Binds param.name r →
        D.Rel t D.FrameOk
          (bindArgs m enter n params es
          (if param.name.isEmpty then frame else Frame.bind param.name r frame))
          (bindArgs m' enter' n' params es
            (if param.name.isEmpty then frame else Frame.bind param.name r frame)) := by
      intro r t hst ht hrt hb
      refine hes hn params _ t hpars' (D.after_trans hs₀ hst) ht ?_
      split
      · exact hfr.after hst
      · exact (hfr.after hst).bind hrt hb
    dsimp only
    split
    · next href =>
      refine D.bind (bindWith hs param.type e (hr (D.inside hn _) s hs₀ hs)
        (he (D.inside hn _) s hs₀ hs)) ?_
      intro r t _ ht hst hrt
      exact hrest r t hst ht hrt (D.binds_free (hpars param List.mem_cons_self href))
    · refine D.bind (copyInto param.type (he hn s hs₀ hs)) ?_
      intro r t _ ht hst hrt
      exact hrest r t hst ht hrt.1 (hrt.2 _)

/-! ### Calls -/

/-- The function that a call enters is one of the program. -/
theorem selectOverload {overloads : List Function} (hs : D.Good s)
    (h : m.linked.overloads? id = some overloads) (count : Nat) :
    D.Rel s (fun _ f => m.linked.Has f) (selectOverload id overloads count)
      (selectOverload id overloads count) := by
  rw [SmallCpp.selectOverload]
  split
  · exact D.raise hs _
  · next f hfind =>
    split
    · exact D.pure hs (Linked.has_of_overloads? h (List.mem_of_find?_eq_some hfind))
    · exact D.raise hs _

theorem selectLibrary (hs : D.Good s) (name : String) :
    D.Rel s anyway (selectLibrary m.linked name) (selectLibrary m'.linked name) := by
  rw [SmallCpp.selectLibrary, SmallCpp.selectLibrary, D.similar.library]
  split
  · exact D.pure hs trivial
  · exact D.raise hs _

theorem callsLibrary (hes : D.EvaluatesAll s₀ enter enter' es) (hn : N n n') (hs₀ : D.After s₀ s)
    (hs : D.Good s) (name : String) :
    D.Rel s D.Val (SmallCpp.selectLibrary m.linked name >>= fun f => evalAll m enter n es >>=
    callVisible f)
      (SmallCpp.selectLibrary m'.linked name >>= fun f =>
        evalAll m' enter' n' es >>= callVisible f) := by
  refine D.bind (selectLibrary hs name) fun f t _ ht hst _ => ?_
  exact D.bind (hes hn t (D.after_trans hs₀ hst) ht) fun vs u _ hu _ hvs => D.library f hu hvs.2

theorem evaluates_call_name (hl : m.linked.EveryFunction D.Allows D.Free)
    (henter : D.Enters s₀ enter enter') (hes : D.EvaluatesAll s₀ enter enter' es)
    (hargs : D.BindsArgs s₀ enter enter' es) :
    D.Evaluates s₀ enter enter' (.call p (.name q id) es) := by
  intro n n' hn s hs₀ hs
  rw [eval_step, eval_step]
  refine checked hn hs₀ hs fun t hs₀t ht => ?_
  rcases D.similar.cases id es.length with ⟨ho, ho'⟩ | ⟨overloads, _, ho, ho', hselect⟩
  · simp only [ho, ho']
    exact callsLibrary hes (D.inside hn 4) hs₀t ht id
  · simp only [ho, ho', hselect]
    refine D.bind (selectOverload ht ho es.length) fun f u _ hu htu hf => ?_
    have hs₀u := D.after_trans hs₀t htu
    have hemp : D.FrameOk u [] := nofun
    refine D.bind (hargs (D.inside hn _) _ [] u (hl f hf).signature hs₀u hu hemp) ?_
    intro frame w _ hw huw hfr
    exact henter.rel (D.inside hn _) f frame w hf (D.after_trans hs₀u huw) hw hfr

/-- A call of a member function of a value that is found first. -/
theorem evaluates_call_member (htame : D.Tame enter)
    (hp : D.Allows (.call p (.member q object access name) es))
    (ho : D.Evaluates s₀ enter enter' object)
    (hro : D.Refers s₀ enter enter' object) (hes : D.EvaluatesAll s₀ enter enter' es)
    (hscope : access ≠ .scope) :
    D.Evaluates s₀ enter enter' (.call p (.member q object access name) es) := by
  intro n n' hn s hs₀ hs
  rw [eval, eval]
  · refine checked hn hs₀ hs fun t hs₀t ht => ?_
    refine D.bind (ho (D.inside hn _) t hs₀t ht) fun owner u hown hu htu howner => ?_
    have hs₀u := D.after_trans hs₀t htu
    refine D.bind (hes (D.inside hn _) u hs₀u hu) fun vs w hargs hw huw hvs => ?_
    cases owner with
    | vector loc =>
      dsimp only
      split
      · next method hmethod =>
        exact D.vectorCall hp hscope hmethod hw (D.val_after huw howner) hvs.2
      · exact D.raise hw _
    | map loc =>
      dsimp only
      split
      · next method hmethod =>
          exact D.mapCall method name hp hscope hw (D.val_after huw howner) hvs.2
      · exact D.raise hw _
    | text text =>
      dsimp only
      split
      · next change hchange =>
        -- the location is looked for after the arguments were evaluated
        refine D.bind (hro (D.inside hn _) w (D.after_trans hs₀u huw) hw)
          fun r x hr hx hwx hrx => ?_
        have hrel := D.textChange htame hp hchange ht hown hu htu hargs hw huw hvs.2 hr hx hwx hrx
        exact D.bind hrel fun _ y _ hy _ _ => D.pure hy (D.val_simple rfl)
      · split
        · exact D.textCall text name hw hvs.2
        · exact D.raise hw _
    | _ => exact D.raise hw _
  · exact fun _ _ _ => hscope
  · exact hscope
  · exact fun _ _ _ => hscope
  · exact hscope

theorem evaluates_call_scope (hes : D.EvaluatesAll s₀ enter enter' es) :
    D.Evaluates s₀ enter enter' (.call p (.member q object .scope name) es) := by
  intro n n' hn s hs₀ hs
  rw [eval_step, eval_step]
  refine checked hn hs₀ hs fun t hs₀t ht => ?_
  cases object with
  | name _ space =>
    dsimp only
    split
    · exact callsLibrary hes (D.inside hn _) hs₀t ht name
    · exact D.raise ht _
  | _ => exact D.raise ht _

theorem evaluates_call_other {f : Expr} (hname : ∀ q id, f ≠ .name q id)
    (hmember : ∀ q o access name, f ≠ .member q o access name) :
    D.Evaluates s₀ enter enter' (.call p f es) := by
  intro n n' hn s hs₀ hs
  rw [eval_step, eval_step]
  refine checked hn hs₀ hs fun t _ ht => ?_
  cases f with
  | name q id => exact absurd rfl (hname q id)
  | member q o access name => exact absurd rfl (hmember q o access name)
  | _ => exact D.raise ht _

/-! ### Every expression -/

variable (D s₀ enter enter') in
/-- The discipline holds of every expression of the program. -/
structure Expressions : Prop where
  evaluates : ∀ {e : Expr}, e.Every D.Allows → D.Evaluates s₀ enter enter' e
  refers : ∀ {e : Expr}, e.Every D.Allows → D.Refers s₀ enter enter' e

section Every

variable (hl : m.linked.EveryFunction D.Allows D.Free) (henter : D.Enters s₀ enter enter')

include hl henter

/-- **The discipline holds of every expression**, as far as it holds of entering a function.  The
object of a member that is called stands one level further inside than the callee, so the induction
carries along what holds of the object of a member. -/
theorem both (e : Expr) (he : e.Every D.Allows) :
    (D.Evaluates s₀ enter enter' e ∧ D.Refers s₀ enter enter' e) ∧
      ∀ q o access name, e = .member q o access name →
        D.Evaluates s₀ enter enter' o ∧ D.Refers s₀ enter enter' o := by
  induction e using Expr.rec
    (motive_2 := fun es => Expr.EveryOf D.Allows es →
      D.EvaluatesAll s₀ enter enter' es ∧ D.BindsArgs s₀ enter enter' es) with
  | literal p l => exact ⟨⟨evaluates_literal p l, refers_other rfl⟩, nofun⟩
  | name p id => exact ⟨⟨evaluates_name p id, refers_name p id⟩, nofun⟩
  | unary p op e ih =>
    have h := (ih he.2).1
    exact ⟨⟨evaluates_unary h.1 h.2, refers_other rfl⟩, nofun⟩
  | step p op e ih => exact ⟨⟨evaluates_step (ih he.2).1.2, refers_other rfl⟩, nofun⟩
  | binary p op a b iha ihb =>
    exact ⟨⟨evaluates_binary (iha he.2.1).1.1 (ihb he.2.2).1.1, refers_other rfl⟩, nofun⟩
  | assign p op a b iha ihb =>
    exact ⟨⟨evaluates_assign he.1 (iha he.2.1).1.2 (ihb he.2.2).1.1, refers_other rfl⟩, nofun⟩
  | call p f es ihf ihes =>
    obtain ⟨hp, hef, hees⟩ := he
    obtain ⟨hes, hargs⟩ := ihes hees
    refine ⟨⟨?_, refers_other rfl⟩, nofun⟩
    cases f with
    | name q id => exact evaluates_call_name hl henter hes hargs
    -- a method is called on the object of the member, so the induction speaks of that as well
    | member q o access name =>
      obtain ⟨ho, hro⟩ := (ihf hef).2 q o access name rfl
      by_cases hscope : access = .scope
      · subst hscope
        exact evaluates_call_scope hes
      · exact evaluates_call_member henter.tame hp ho hro hes hscope
    | _ => exact evaluates_call_other nofun nofun
  | member p e access name ih =>
    have h := (ih he.2).1
    refine ⟨⟨evaluates_member h.1, refers_member h.1⟩, ?_⟩
    intro q o access' name' heq
    cases heq
    exact h
  | index p a b iha ihb =>
    have ha := (iha he.2.1).1
    have hb := (ihb he.2.2).1
    exact ⟨⟨evaluates_index ha.1 hb.1, refers_index ha.1 ha.2 hb.1⟩, nofun⟩
  | new p t =>
    refine ⟨⟨?_, refers_other rfl⟩, nofun⟩
    intro n n' hn s hs₀ hs
    rw [eval_step, eval_step]
    refine checked hn hs₀ hs fun t' _ ht => ?_
    exact D.weaken (D.default t ht) fun _ _ _ h => D.fits_val h
  | newArray p t e ih => exact ⟨⟨evaluates_newArray (ih he.2).1.1, refers_other rfl⟩, nofun⟩
  | braces p es ih => exact ⟨⟨evaluates_braces he.1 (ih he.2).1, refers_other rfl⟩, nofun⟩
  | endl p =>
    refine ⟨⟨?_, refers_other rfl⟩, nofun⟩
    intro n n' hn s hs₀ hs
    rw [eval_step, eval_step]
    exact checked hn hs₀ hs fun t' _ ht => D.pure ht (D.val_simple rfl)
  | nil => exact ⟨evaluatesAll_nil, bindsArgs_nil⟩
  | cons e es ihe ihes hall =>
    have h := (ihe hall.1).1
    obtain ⟨hes, hargs⟩ := ihes hall.2
    exact ⟨evaluatesAll_cons h.1 hes, bindsArgs_cons h.1 h.2 hargs⟩

theorem evaluates (he : e.Every D.Allows) : D.Evaluates s₀ enter enter' e :=
  (both hl henter e he).1.1

theorem refers (he : e.Every D.Allows) : D.Refers s₀ enter enter' e :=
  (both hl henter e he).1.2

theorem all (hes : ∀ e ∈ es, e.Every D.Allows) :
    D.EvaluatesAll s₀ enter enter' es ∧ D.BindsArgs s₀ enter enter' es := by
  induction es with
  | nil => exact ⟨evaluatesAll_nil, bindsArgs_nil⟩
  | cons e es ih =>
    have he := hes e List.mem_cons_self
    obtain ⟨hall, hargs⟩ := ih fun e' he' => hes e' (List.mem_cons_of_mem e he')
    exact ⟨evaluatesAll_cons (evaluates hl henter he) hall,
      bindsArgs_cons (evaluates hl henter he) (refers hl henter he) hargs⟩

theorem expressions : D.Expressions s₀ enter enter' :=
  ⟨evaluates hl henter, refers hl henter⟩

end Every

/-! ### Declarations -/

section Declarations

theorem arrayInitializers {v : Value} (hs : D.Good s) (hv : D.Val s v) (name : String) :
    D.Rel s D.Items (arrayInitializers name v) (arrayInitializers name v) := by
  unfold SmallCpp.arrayInitializers
  split
  · next items => exact D.pure hs (D.val_items hv)
  · split
    · next text _ =>
      refine D.pure hs fun w hw => D.val_item (D.val_simple ?_)
      rcases List.mem_append.mp hw with hw | hw
      · obtain ⟨c, -, rfl⟩ := List.mem_map.mp hw
        rfl
      · rw [List.mem_singleton.mp hw]
        rfl
    · exact D.raise hs _

variable (hd : d.Every D.Allows D.Free) (h : D.Expressions s₀ enter enter') (hn : N n n')
  (hs₀ : D.After s₀ s) (hs : D.Good s)

include hd h hn hs₀ hs

theorem declaredElements :
    D.Rel s D.Items (declaredElements (eval m enter n) d)
    (declaredElements (eval m' enter' n') d) := by
  rw [SmallCpp.declaredElements, SmallCpp.declaredElements]
  split
  · exact D.pure hs nofun
  · next e he =>
    refine D.bind (h.evaluates (hd.initializer e he) hn s hs₀ hs) fun v t _ ht _ hv => ?_
    exact arrayInitializers ht hv d.name

theorem declaredSize (count : Nat) :
    D.Rel s anyway (declaredSize (eval m enter n) d count)
    (declaredSize (eval m' enter' n') d count) := by
  rw [SmallCpp.declaredSize, SmallCpp.declaredSize]
  split
  · next e he =>
    refine D.bind (h.evaluates (hd.size e he) hn s hs₀ hs) fun v t _ ht _ hv => ?_
    exact D.index ht hv
  · exact D.pure hs trivial

theorem buildArray :
    D.Rel s (fun u v => D.Fits u (.of .vector [d.type]) v)
      (buildArray m.limits (eval m enter n) d) (buildArray m'.limits (eval m' enter' n') d) := by
  rw [SmallCpp.buildArray, SmallCpp.buildArray]
  refine D.bind (declaredElements hd h hn hs₀ hs) fun vs t _ ht hst hvs => ?_
  refine D.bind (declaredSize hd h hn (D.after_trans hs₀ hst) ht vs.length) ?_
  intro size u _ hu htu _
  dsimp only
  split
  · exact raise_bind hu _
  · split
    · exact raise_bind hu _
    · next hle => exact D.array d.type size hu (by omega) (hvs.after htu)

theorem declaredLocation :
    D.Rel s (fun u r => D.Ref u r ∧ D.Binds d.name r) (declaredLocation m enter n d)
      (declaredLocation m' enter' n' d) := by
  have hnew : ∀ {t : TypeExpr} {v : Value} {u : State}, D.Good u → D.Fits u t v →
      D.Rel u (fun w r => D.Ref w r ∧ D.Binds d.name r) (newVariable v t) (newVariable v t) :=
    fun hu hv => D.weaken (D.newCell hu hv) fun _ _ _ hr => ⟨hr.1, hr.2 _⟩
  rw [SmallCpp.declaredLocation, SmallCpp.declaredLocation]
  split
  · split
    · exact D.bind (D.default d.type hs) fun v t _ ht _ hv => hnew ht hv
    · next e he =>
      have hev := h.evaluates (hd.initializer e he)
      split
      · next href =>
        have hbind := bindWith hs d.type e (h.refers (hd.initializer e he) (D.inside hn 1) s hs₀ hs)
          (hev (D.inside hn 1) s hs₀ hs)
        exact D.weaken hbind fun _ _ _ hr => ⟨hr, D.binds_free (hd.reference href)⟩
      · exact D.weaken (copyInto d.type (hev hn s hs₀ hs)) fun _ _ _ hr => ⟨hr.1, hr.2 _⟩
  · exact D.bind (buildArray hd h (D.inside hn 1) hs₀ hs) fun v t _ ht _ hv => hnew ht hv

end Declarations

end Evaluation

end SmallCpp
