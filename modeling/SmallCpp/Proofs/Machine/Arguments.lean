import SmallCpp.Proofs.Heap.Gain
import SmallCpp.Proofs.Machine.Guard
import SmallCpp.Proofs.Machine.Scope

/-!
# Quiet arguments

Evaluating an expression without assignments, steps and calls changes nothing but maps that it
reads: by subscript, or through the name of a reference to an element.  Such a read adds the entry
of its subscript, with a default.  Binding the values of quiet arguments to parameters adds new
variables.

## Main results

* `readsOnly_of_every` — **a quiet expression adds only what it reads.**
* `guards_arguments` — **so do quiet arguments of parameters that are no references.**
-/

namespace SmallCpp

variable {e : Expr} {es : List Expr} {p : Position} {s : State} {M : Nat → Value → Prop}

/-! ### What an expression reads -/

namespace Expr

/-- The expression itself changes no location: it is no step, no assignment and no call. -/
def isQuiet : Expr → Bool
  | unary _ .increment _ | unary _ .decrement _ | step _ _ _ | assign _ _ _ _ | call _ _ _ => false
  | literal _ _ | name _ _ | unary _ _ _ | binary _ _ _ _ | member _ _ _ _ | index _ _ _ | new _ _
  | newArray _ _ _ | braces _ _ | endl _ => true

/-- The expression and those inside it change no location. -/
def Quiet (e : Expr) : Prop :=
  e.Every fun e => e.isQuiet = true

end Expr

/-- The evaluation of the expression in the state reads the map at `loc` by the subscript
`index`. -/
inductive Consults (m : Machine) (enter : Enter) : Nat → Expr → State → Nat → Value → Prop
  | element {n p object subscript s u t loc index}
      (ho : eval m enter (n + 2) object s = .ok (.map loc) u)
      (hi : eval m enter (n + 2) subscript u = .ok index t) :
      Consults m enter n (.index p object subscript) s loc index
  | reference {n p id s r loc index} (hr : s.lookup? id = some r)
      (hslot : r.place.slot? = some (loc, index)) : Consults m enter n (.name p id) s loc index
  | operand {n p op e s loc index} (h : Consults m enter (n + 2) e s loc index) :
      Consults m enter n (.unary p op e) s loc index
  | left {n p op a b s loc index} (h : Consults m enter (n + 2) a s loc index) :
      Consults m enter n (.binary p op a b) s loc index
  /-- Inside the right operand, if it is evaluated. -/
  | right {n p op a b s u v loc index} (ha : eval m enter (n + 2) a s = .ok v u)
      (hand : op = .logicalAnd → v.condition = .ok true)
      (hor : op = .logicalOr → v.condition = .ok false)
      (h : Consults m enter (n + 2) b u loc index) :
      Consults m enter n (.binary p op a b) s loc index
  /-- Inside the object that a subscript follows. -/
  | object {n p object subscript s loc index} (h : Consults m enter (n + 2) object s loc index) :
      Consults m enter n (.index p object subscript) s loc index
  | subscript {n p object subscript s u v loc index} (ho : eval m enter (n + 2) object s = .ok v u)
      (h : Consults m enter (n + 2) subscript u loc index) :
      Consults m enter n (.index p object subscript) s loc index
  | member {n p e access field s loc index} (hacc : access ≠ .scope)
      (h : Consults m enter (n + 2) e s loc index) :
      Consults m enter n (.member p e access field) s loc index
  | size {n p type e s loc index} (h : Consults m enter (n + 2) e s loc index) :
      Consults m enter n (.newArray p type e) s loc index
  | item {n p before e after s u vs loc index} (hbefore : evalAll m enter (n + 2) before s =
    .ok vs u)
      (h : Consults m enter (n + 2) e u loc index) :
      Consults m enter n (.braces p (before ++ e :: after)) s loc index

/-- Binding the arguments to the parameters reads the map at `loc` by the subscript `index`. -/
def ArgumentsRead (m : Machine) (enter : Enter) (n : Nat) (params : List Param) (args : List Expr)
    (s : State) (loc : Nat) (index : Value) : Prop :=
  ∃ before arg after frame u, args = before ++ arg :: after ∧
    bindArgs m enter n params before [] s = .ok frame u ∧ Consults m enter n arg u loc index

/-! ### Expanded states -/

/-- Nothing has happened but new variables, new containers, and new entries for subscripts that `M`
allows. -/
structure Expanded (M : Nat → Value → Prop) (s t : State) : Prop where
  heap : Gained M s.heap t.heap
  cells : ∀ {i : Nat} {c}, s.cells[i]? = some c → t.cells[i]? = some c
  names : SameNames s t

instance (M : Nat → Value → Prop) : IsPreorder State (Expanded M) where
  refl s := ⟨.refl _, id, .refl s⟩
  trans _ _ _ h h' :=
    ⟨h.heap.trans h'.heap, fun hc => h'.cells (h.cells hc), h.names.trans h'.names⟩

section Expanding

variable {C : Custody} {M : Nat → Value → Prop} {s t : State}

theorem Expanded.later (h : Expanded M s t) : Later s t :=
  ⟨h.heap.grown.kept, fun hc => ⟨_, h.cells hc, rfl⟩⟩

/-- The relation allows what reading does: maps gain entries for subscripts that `M` allows, and if
`A` holds, steps are counted for arrays. -/
structure Admits (A : Prop) (M : Nat → Value → Prop) (R : State → State → Prop) : Prop where
  gain : ∀ {s : State} {h : Heap}, Gained M s.heap h → R s { s with heap := h }
  count : A → ∀ (s : State) (k : Int), R s { s with steps := k }
  kept : ∀ {s t : State}, R s t → Kept s.heap t.heap

theorem admits_expanded (A : Prop) (M : Nat → Value → Prop) : Admits A M (Expanded M) where
  gain h := ⟨h, id, ⟨rfl, rfl, rfl⟩⟩
  count _ _ _ := ⟨.refl _, id, ⟨rfl, rfl, rfl⟩⟩
  kept h := h.heap.grown.kept

variable {A : Prop} {R : State → State → Prop}

theorem Admits.val (hR : Admits A M R) (h : R s t) {v : Value} (hv : C.Val s.heap v) :
    C.Val t.heap v :=
  hv.kept (hR.kept h)

namespace Guards

variable {α : Type} {T : Nat → Prop} {Q : Heap → α → Prop}

/-- An operation that reads maps by subscripts that `M` allows. -/
theorem expanding (hR : Admits A M R) {op : HeapM α} (hop : Gives C s.steps T s.heap Q op)
    (hgain : C.Inv s.steps s.heap s.values → Gained M s.heap (heapAfter op s.heap)) :
    Guards R C s (fun t a => Q t.heap a) (onHeap op) :=
  (moving hop Custody.Guarded.inv fun hs _ => hR.gain (hgain hs.inv)).weaken fun _ _ _ _ h => h.2

theorem leaving (hR : Admits A M R) {op : HeapM α}
    (hop : Gives C s.steps (fun _ => False) s.heap Q op) :
    Guards R C s (fun t a => Q t.heap a) (onHeap op) :=
  expanding hR hop fun hi => .of_moves hi hop

/-- An operation that makes a value and leaves the containers alone. -/
theorem creating (hR : Admits A M R) {τ : Option TypeExpr} {op : HeapM Value}
    (hop : Makes C s.steps (fun _ => False) s.heap τ op) : Guards R C s (C.Loose · τ) (onHeap op) :=
  (moving hop Custody.Guarded.inv fun hs _ => hR.gain (.of_moves hs.inv hop)).weaken
    fun _ _ _ _ h => ⟨h.2, h.1⟩

theorem checked [IsPreorder State R] {Q : State → α → Prop} {c : Run α} (limits : Limits) (n : Nat)
    (hc : Guards R C s Q c) : Guards R C s Q (checkNesting limits n >>= fun _ => c) := by
  rw [checkNesting]
  split
  · exact hc
  · exact .throw fun _ h => by cases h

end Guards

/-- Reading a location adds the entry of an element of a map at most. -/
theorem gained_placeValue (hs : C.Guarded s) {p : Place} (hp : C.Site s p)
    (hM : ∀ loc index, p.slot? = some (loc, index) → M loc index) :
    Gained M s.heap (heapAfter (placeValue s.cells p) s.heap) := by
  have hgives : ∀ {p T}, C.Site s p → (∀ slot ∈ p.slot?, T slot.1) →
      Gives C s.steps T s.heap (fun h v => C.Val h v) (placeValue s.cells p) := fun hp hT =>
    Gives.imp (gives_placeValue hs hp hT) fun _ _ _ h => h.1.1
  induction p with
  | «variable» | vectorSlot | pairField | entryField => exact .of_moves hs.inv (hgives hp nofun)
  | mapSlot loc key =>
    obtain ⟨⟨-, κ, t, hshape⟩, hkey⟩ := hp
    exact gained_mapGet hs.inv hshape hkey (hM loc key rfl)
  | character text i ih =>
    refine .bind (ih hp hM) fun {v h} hv => ?_
    have hi := ((hgives (p := text) (T := fun _ => True) hp fun _ _ => trivial).ok hs.inv hv).2.1
    exact .of_moves hi (gives_characterAt v i)

theorem guards_reading (hR : Admits A M R) {r : Reference} (hr : C.Target s r)
    (hM : ∀ loc index, r.place.slot? = some (loc, index) → M loc index) :
    Guards R C s (fun t v => C.Val t.heap v ∧ C.Kind (r.place.type s) v) r.read :=
  .assuming fun hs => .congr (readPlace_apply r.place s) <| Guards.expanding hR (T := fun _ => True)
    (Gives.imp (gives_placeValue hs hr.site fun _ _ => trivial) fun _ _ _ h => h.1)
    fun _ => gained_placeValue hs hr.site hM

end Expanding

/-! ### Quiet expressions -/

def Expr.isArray : Expr → Bool
  | newArray _ _ _ => true
  | _ => false

section Quiet

variable {A : Prop} {C : Custody} {m : Machine} {enter : Enter}

variable (A C m enter) in
/-- The evaluation of the expression adds only what it reads. -/
def ReadsOnly (e : Expr) : Prop :=
  ∀ {n s M R} [IsPreorder State R], Admits A M R →
    (∀ loc index, Consults m enter n e s loc index → M loc index) →
    Guards R C s (fun t v => C.Val t.heap v) (eval m enter n e)

variable (A C m enter) in
/-- The evaluation of the expressions, one after the other, adds only what they read. -/
def AllReadOnly (es : List Expr) : Prop :=
  ∀ {n s M R} [IsPreorder State R], Admits A M R →
    (∀ before e after vs u, es = before ++ e :: after →
      evalAll m enter n before s = .ok vs u → ∀ loc index, Consults m enter n e u loc index →
      M loc index) →
    Guards R C s (fun t vs => ∀ v ∈ vs, C.Val t.heap v) (evalAll m enter n es)

theorem allReadOnly_nil : AllReadOnly A C m enter [] := by
  intro n s M R _ _ _
  rw [evalAll]
  exact .pure (List.forall_mem_nil _)

theorem allReadOnly_cons (he : ReadsOnly A C m enter e)
    (hes : AllReadOnly A C m enter es) : AllReadOnly A C m enter (e :: es) := by
  intro n s M R _ hR hM
  rw [evalAll]
  refine .bind (he hR (hM [] e es [] s rfl rfl)) fun v t hv _ _ hval => ?_
  have hrest : ∀ before e' after vs u, es = before ++ e' :: after →
      evalAll m enter n before t = .ok vs u → ∀ loc index, Consults m enter n e' u loc index →
      M loc index := by
    intro before e' after vs u hes hvs
    refine hM (e :: before) e' after (v :: vs) u (by rw [hes]; rfl) ?_
    rw [evalAll, bind_of_ok hv, bind_of_ok hvs]
    rfl
  refine .bind (hes hR hrest) fun vs u _ _ htu hvals => .pure fun w hw => ?_
  rcases List.mem_cons.mp hw with rfl | hw
  · exact hR.val htu hval
  · exact hvals w hw

theorem readsOnly_binary {op : BinaryOp} {a b : Expr} (ha : ReadsOnly A C m enter a)
    (hb : ReadsOnly A C m enter b) : ReadsOnly A C m enter (.binary p op a b) := by
  intro n s M R _ hR hM
  have hleft := ha (n := n + 2) (s := s) hR fun loc index h => hM loc index (.left h)
  -- the right operand of a logical operator is evaluated if the left one does not decide
  have hright : ∀ {v u}, eval m enter (n + 2) a s = .ok v u →
      (op = .logicalAnd → v.condition = .ok true) → (op = .logicalOr → v.condition = .ok false) →
      Guards R C u (fun t w => C.Val t.heap w) (eval m enter (n + 2) b) :=
    fun hv hand hor => hb hR fun loc index h => hM loc index (.right hv hand hor h)
  have htruth : ∀ {u : State} {v : Value}, Guards R C u anyway (truth v) := fun {u v} =>
    (Guards.leaving hR (Q := fun _ _ => True)
      ((ReadOnly.orFail v.condition).gives fun _ _ _ => trivial)).weaken
      fun _ _ _ _ _ => trivial
  by_cases hop : op = .logicalAnd ∨ op = .logicalOr
  · rw [eval_logical hop]
    refine .checked _ _ (.bind hleft fun v u hv _ _ _ => .bind htruth fun c u' hc _ _ _ => ?_)
    obtain ⟨hcond, rfl⟩ := truth_eq_ok hc
    split
    · exact .pure (.of_isSimple rfl)
    · next hdecides =>
      have hopen := hcond.trans (congrArg Except.ok (Bool.eq_not_of_ne hdecides))
      refine .bind (hright hv (fun h => by subst h; exact hopen) fun h => by subst h; exact hopen)
        fun _ _ _ _ _ _ => ?_
      exact .bind htruth fun _ _ _ _ _ _ => .pure (.of_isSimple rfl)
  · rw [eval_binary hop]
    refine .checked _ _ (.bind hleft fun v u hv _ _ hval => ?_)
    refine .bind (hright hv (fun h => absurd (.inl h) hop) fun h => absurd (.inr h) hop)
      fun w t _ _ hut _ => ?_
    refine Guards.leaving hR
      (Gives.imp (gives_applyBinary op (hR.val hut hval).item) fun _ _ _ h => ?_)
    exact h.val

theorem readsOnly_index {object subscript : Expr} (ho : ReadsOnly A C m enter object)
    (hi : ReadsOnly A C m enter subscript) : ReadsOnly A C m enter (.index p object subscript) := by
  intro n s M R _ hR hM
  rw [eval_step]
  refine .checked _ _ ?_
  refine .bind (ho hR fun loc index h => hM loc index (.object h)) fun c u hc _ _ hcont => ?_
  refine .bind (hi hR fun loc index h => hM loc index (.subscript hc h))
    fun i t hidx _ hut hitem => ?_
  have hcont := hR.val hut hcont
  refine Guards.expanding hR (T := fun _ => True)
    (gives_elementOf hcont hitem.item fun _ _ => trivial) ?_
  intro hinv
  refine gained_elementOf hinv hcont hitem.item fun loc hloc => hM loc i (.element ?_ hidx)
  rw [hc, hloc]

/-- Lists and vectors may have any number of items. -/
structure Custody.Unbounded (C : Custody) : Prop where
  short : ∀ n, C.short n
  fit : ∀ k n, C.fit k n

/-- **A quiet expression adds only what it reads.**  Steps are counted only if it makes arrays. -/
theorem readsOnly_of_every (hC : C.Unbounded)
    (he : e.Every fun e => e.isQuiet = true ∧ (e.isArray = true → A)) :
    ReadsOnly A C m enter e := by
  induction e using Expr.rec (motive_2 := fun es =>
    Expr.EveryOf (fun e => e.isQuiet = true ∧ (e.isArray = true → A)) es →
    AllReadOnly A C m enter es) with
  | literal p l =>
    intro n s M R _ _ _
    rw [eval_step]
    exact .checked _ _ (.pure (Custody.Bare.of_isSimple l.isSimple_value).val)
  | name p id =>
    intro n s M R _ hR hM
    rw [eval_step]
    refine .checked _ _ (.bind (guards_resolve id) fun r t _ _ _ hr => ?_)
    obtain ⟨rfl, hlookup, htgt⟩ := hr
    refine (guards_reading hR htgt fun loc index hslot => ?_).weaken fun _ _ _ _ hv => hv.1
    exact hM loc index (.reference hlookup hslot)
  | endl p =>
    intro n s M R _ _ _
    rw [eval_step]
    exact .checked _ _ (.pure (.of_isSimple rfl))
  | new p type =>
    intro n s M R _ hR _
    rw [eval_step]
    exact .checked _ _ ((Guards.creating hR (makes_defaultOf type s.heap)).weaken fun _ _ _ _ h =>
      h.own.val)
  | newArray p type e ih =>
    intro n s M R _ hR hM
    rw [eval_step]
    refine .checked _ _ (.bind (ih he.2 hR fun loc index h => hM loc index (.size h)) ?_)
    intro v t _ _ _ _
    refine .bind (Guards.leaving hR (Q := fun _ _ => True)
      ((ReadOnly.asIndex v).gives fun _ _ _ => trivial)) ?_
    intro k u _ _ _ _
    dsimp only
    split
    · exact .bind (.raise (Q := anyway) _) fun _ _ h => nomatch h
    · refine .bind (guards_count m.limits (hR.count (he.1.2 rfl) u _)) fun _ w _ _ _ _ => ?_
      refine (Guards.creating hR
        (makes_filledVector ((moves_defaultItems type k.toNat (by simp)).weaken
        fun _ _ _ h => ⟨.refl _, ?_, h.2⟩) (hC.fit _ k.toNat))).weaken fun _ _ _ _ h => h.own.val
      simpa using h.1
  | unary p op e ih =>
    intro n s M R _ hR hM
    have hother : Guards R C s (fun t v => C.Val t.heap v)
        (eval m enter (n + 2) e >>= fun v => onHeap (applyUnary op v)) :=
      .bind (ih he.2 hR fun loc index h => hM loc index (.operand h)) fun v t _ _ _ hv =>
        Guards.leaving hR (Gives.imp (gives_applyUnary op hv.item) fun _ _ _ h => h.val)
    rw [eval_step]
    refine .checked _ _ ?_
    cases op with
    | increment | decrement => cases he.1.1
    | negate | plus | not | complement => exact hother
  | binary p op a b iha ihb => exact readsOnly_binary (iha he.2.1) (ihb he.2.2)
  | index p object subscript iho ihi => exact readsOnly_index (iho he.2.1) (ihi he.2.2)
  | member p e access field ih =>
    intro n s M R _ hR hM
    have hread : access ≠ .scope → Guards R C s (fun t v => C.Val t.heap v)
        (eval m enter (n + 2) e >>= fun v => onHeap (memberOf v field)) := fun hacc =>
      .bind (ih he.2 hR fun loc index h => hM loc index (.member hacc h)) fun v t _ _ _ hv =>
        Guards.leaving hR (gives_memberOf field hv)
    rw [eval_step]
    refine .checked _ _ ?_
    cases access with
    | scope => exact .raise _
    | dot | arrow => exact hread nofun
  | braces p es ih =>
    intro n s M R _ hR hM
    rw [eval_step]
    refine .checked _ _ (.bind (ih he.2 hR fun before e after vs u hes hvs loc index h => ?_) ?_)
    · subst hes
      exact hM loc index (.item hvs h)
    · intro vs t _ _ _ hvs
      exact .pure ⟨.list (hC.short _) fun v hv => (hvs v hv).item, nofun⟩
  -- what changes something is not quiet
  | step | assign | call => cases he.1.1
  | nil => exact allReadOnly_nil
  | cons e es ihe ihes he => exact allReadOnly_cons (ihe he.1) (ihes he.2)

/-! ### Quiet arguments -/

/-- A parameter that is no reference gets a variable of its own. -/
theorem guards_argument (type : TypeExpr) {c : Run Value}
    (hc : Guards (Expanded M) C s (fun t v => C.Val t.heap v) c) :
    Guards (Expanded M) C s C.Anew (copyInto type c) :=
  hc.copyInto (fun hv => Guards.creating (admits_expanded True M) (makes_coerce type _ _ hv.item))
    fun _ cell => ⟨.refl _, fun h => Custody.getElem?_newVariable h cell, ⟨rfl, rfl, rfl⟩⟩

/-- The bindings of a frame are variables of its own. -/
def Custody.OwnFrame (C : Custody) (s : State) (frame : Frame) : Prop :=
  ∀ b ∈ frame, C.Anew s b.2

theorem Custody.OwnFrame.expanded {t : State} {frame : Frame}
    (h : C.OwnFrame s frame) (hst : Expanded M s t) : C.OwnFrame t frame :=
  fun b hb => { h b hb with target := (h b hb).target.mono hst.later }

/-- **Quiet arguments of parameters that are no references add only what they read**, and new
variables. -/
theorem guards_arguments (hC : C.Unbounded) {args : List Expr}
    (hargs : ∀ e ∈ args, e.Quiet) {n : Nat} :
    ∀ {params : List Param} {frame : Frame} {s : State} {M : Nat → Value → Prop},
      (∀ p ∈ params, p.type.isReference = false) → C.OwnFrame s frame →
      (∀ before arg after frame' u, args = before ++ arg :: after →
        bindArgs m enter n params before frame s = .ok frame' u →
        ∀ loc index, Consults m enter n arg u loc index → M loc index) →
      Guards (Expanded M) C s C.OwnFrame (bindArgs m enter n params args frame) := by
  induction args with
  | nil =>
    intro params frame s M _ hfr _
    rw [bindArgs.eq_def]
    exact .pure hfr
  | cons arg args ih =>
    intro params frame s M hpars hfr hM
    cases params with
    | nil =>
      rw [bindArgs.eq_def]
      exact .pure hfr
    | cons param params =>
      have hval := hpars param List.mem_cons_self
      have hcons : ∀ args, bindArgs m enter n (param :: params) (arg :: args) frame =
          copyInto param.type (eval m enter n arg) >>= fun r => bindArgs m enter n params args
            (if param.name.isEmpty then frame else Frame.bind param.name r frame) := by
        intro args
        rw [bindArgs.eq_def]
        simp [hval]
      have harg : ReadsOnly True C m enter arg :=
        readsOnly_of_every hC ((hargs arg List.mem_cons_self).imp fun _ h => ⟨h, fun _ => trivial⟩)
      have hnone : bindArgs m enter n (param :: params) [] frame s = .ok frame s := by
        rw [bindArgs.eq_def]
        rfl
      -- nothing was bound before the first argument
      have hfirst := guards_argument param.type
        (harg (admits_expanded True M) (hM [] arg args frame s rfl hnone))
      rw [hcons]
      refine .bind hfirst fun r t hr _ hst hown => ?_
      refine ih (fun e he => hargs e (List.mem_cons_of_mem arg he))
        (fun p hp => hpars p (List.mem_cons_of_mem param hp)) ?_ ?_
      · split
        · exact hfr.expanded hst
        · intro b hb
          rcases Frame.mem_bind hb with rfl | hb
          · exact hown
          · exact hfr.expanded hst b hb
      · -- the state before a later argument is the one after the arguments before it
        intro before arg' after frame' u hsplit hbind
        refine hM (arg :: before) arg' after frame' u (by rw [hsplit]; rfl) ?_
        rw [hcons, bind_of_ok hr, hbind]

end Quiet

end SmallCpp
