import SmallCpp.Proofs.Machine.InPlace
import SmallCpp.Proofs.Machine.Ownership

/-!
# References to fields of pairs

A reference such as `int& r = p.first;` is bound to a field of the pair that the variable `p` holds
at that moment.  It stays with that pair.  The variable stays with it too, whatever is assigned to
its fields or through the reference, until something is assigned to the variable as a whole: that
puts a new pair there. From then on the reference and the variable have nothing to do with each
other any more, for the reference still stands for a field of the old pair:

    pair<int, int> p = {1, 2};
    int& r = p.first;
    p = {3, 4};
    cout << r << p.first;  // 13

## Main results

* `reference_to_field_until_assigned` — **how long a reference to a field goes with the variable.**
-/

namespace SmallCpp

variable {v w : Value} {op : AssignOp} {level n loc' i loc : Nat} {ss : List Stmt} {t s : State}
  {c : Cell} {name : String} {f : PairField} {m : Machine}

/-! ### Names of pairs and of fields -/

def Heap.fieldAt (h : Heap) (loc : Nat) : PairField → Value
  | .first => (h.pairAt loc).1
  | .second => (h.pairAt loc).2.1

/-- The name stands for a variable of a pair type, which holds a pair. -/
structure State.HoldsPair (s : State) (name : String) (i loc : Nat) : Prop where
  bound : ∃ t, t.isPair = true ∧ s.lookup? name = some ⟨.variable i, some t⟩
  held : ∃ c, s.cells[i]? = some c ∧ c.value = .pair loc

/-- The name stands for a field of a pair. -/
def State.NamesField (s : State) (name : String) (loc : Nat) (f : PairField) : Prop :=
  ∃ t, s.lookup? name = some ⟨.pairField loc f, t⟩

theorem State.HoldsPair.congr (h : s.HoldsPair name i loc)
    (hname : t.lookup? name = s.lookup? name) (hc : t.cells[i]? = some c)
    (hloc : c.value = .pair loc') :
    t.HoldsPair name i loc' :=
  ⟨hname ▸ h.bound, c, hc, hloc⟩

theorem State.HoldsPair.declaring (h : s.HoldsPair name i loc) {bound : List (String × Reference)}
    (hname : name ∉ bound.map Prod.fst) : (s.declaring bound).HoldsPair name i loc := by
  obtain ⟨c, hc, hloc⟩ := h.held
  refine h.congr (s.lookup?_declaring_of_not_mem hname) ?_ hloc
  rw [show (s.declaring bound).cells = s.cells by unfold State.declaring; split <;> rfl, hc]

theorem State.NamesField.congr (h : s.NamesField name loc f)
    (hname : t.lookup? name = s.lookup? name) :
    t.NamesField name loc f := by
  obtain ⟨type, hlookup⟩ := h
  exact ⟨type, hname.trans hlookup⟩

/-- The variable that a name stands for is of the type that is recorded for the name. -/
theorem State.HoldsPair.isPair {C : Custody} (h : s.HoldsPair name i loc) (hs : C.Guarded s)
    (hc : s.cells[i]? = some c) : c.type.isPair = true := by
  obtain ⟨type, htype, hlookup⟩ := h.bound
  have heq := (hs.lookup? hlookup).target.type_eq rfl hc
  rwa [← Option.some.inj heq]

theorem State.HoldsPair.unique (h : s.HoldsPair name i loc) (h' : s.HoldsPair name i loc') :
    loc = loc' := by
  obtain ⟨c, hc, hloc⟩ := h.held
  obtain ⟨c', hc', hloc'⟩ := h'.held
  obtain rfl : c = c' := Option.some.inj (hc.symm.trans hc')
  exact Value.pair.inj (hloc.symm.trans hloc')

/-! ### Reading -/

section Reading

variable {field : String} {access : Access} (enter : Enter) (p q : Position)

theorem onHeap_pairFieldValue (loc : Nat) (f : PairField) (s : State) :
    onHeap (pairFieldValue loc f) s = .ok (s.heap.fieldAt loc f) s := by
  cases f <;> rfl

theorem eval_of_namesField (h : s.NamesField name loc f) (hn : n ≤ m.limits.maxNesting) :
    eval m enter n (.name p name) s = .ok (s.heap.fieldAt loc f) s := by
  obtain ⟨type, hlookup⟩ := h
  exact (eval_name hn hlookup).trans (onHeap_pairFieldValue loc f s)

theorem eval_of_holdsPair (h : s.HoldsPair name i loc) (hn : n ≤ m.limits.maxNesting) :
    eval m enter n (.name p name) s = .ok (.pair loc) s := by
  obtain ⟨type, -, hlookup⟩ := h.bound
  obtain ⟨c, hc, hval⟩ := h.held
  refine (eval_name hn hlookup).trans ?_
  show EStateM.Result.ok ((s.cells[i]?.map Cell.value).getD .null) s = _
  rw [hc, Option.map_some, Option.getD_some, hval]

/-- The field of a variable is the field of the pair that it holds. -/
theorem eval_field (h : s.HoldsPair name i loc) (hf : PairField.ofName? field = some f)
    (hacc : access ≠ .scope) (hn : n + 2 ≤ m.limits.maxNesting) :
    eval m enter n (.member p (.name q name) access field) s = .ok (s.heap.fieldAt loc f) s := by
  have hval := eval_of_holdsPair enter q h hn
  have hmember : onHeap (memberOf (.pair loc) field) s = .ok (s.heap.fieldAt loc f) s := by
    unfold memberOf
    rw [hf]
    exact onHeap_pairFieldValue loc f s
  exact (eval_member hacc (by omega) hval).trans hmember

/-- A reference to the field of a variable is bound to the field of the pair that it holds. -/
theorem refer_field (h : s.HoldsPair name i loc) (hf : PairField.ofName? field = some f)
    (hacc : access ≠ .scope) (hn : n + 1 ≤ m.limits.maxNesting) :
    ∃ type, refer m enter n (.member p (.name q name) access field) s =
    .ok ⟨.pairField loc f, type⟩ s := by
  have hval := eval_of_holdsPair enter q h hn
  have hfld : ∃ type, fieldOf? (.pair loc) field s = .ok (some ⟨.pairField loc f, type⟩) s := by
    unfold fieldOf?
    rw [hf]
    exact ⟨_, rfl⟩
  obtain ⟨type, hfld⟩ := hfld
  refine ⟨type, ?_⟩
  rw [refer_step]
  refine (checked_of_le (by omega) _ s).trans ?_
  dsimp only
  rw [if_neg (by simpa using hacc)]
  exact (bind_of_ok hval).trans (bind_of_ok hfld)

end Reading

/-! ### Writing -/

section Writing

variable {C : Custody} {r : Reference}

theorem cells_of_readPlace {p : Place} (hrun : readPlace p s = .ok v t) : t.cells = s.cells := by
  rw [readPlace_apply] at hrun
  obtain ⟨h, -, rfl⟩ := onHeap_eq_ok hrun
  rfl

/-- **What is assigned to the variable as a whole is a pair that was not there before.** -/
theorem exists_pair_of_assign (hs : C.Guarded s) (hv : C.Item s.heap v)
    (hplace : r.place = .variable i)
    (htype : r.type = some c.type) (hpair : c.type.isPair = true) (hc : s.cells[i]? = some c)
    (hrun : r.assign v s = .ok () t) :
    ∃ c' loc', t.cells[i]? = some c' ∧ c'.value = .pair loc' ∧ C.keep loc' := by
  obtain ⟨w, u, hw, hrun⟩ := bind_eq_ok hrun
  obtain ⟨-, -, hloose⟩ := (Guards.making (makes_coerceTo r.type s.heap v hv)).ok hs hw
  obtain ⟨h, hop, rfl⟩ := onHeap_eq_ok hw
  rw [htype] at hop
  obtain ⟨loc', rfl⟩ := (coerce_pair_eq_ok hpair hop).2
  rw [Reference.write, hplace] at hrun
  cases hrun
  refine ⟨{ c with value := .pair loc' }, loc', ?_, rfl, hloose.own.keep rfl⟩
  dsimp only
  rw [Array.getElem?_modify, if_pos rfl, hc]
  rfl

/-- Whatever the operator is, something is assigned once, and the rest leaves the variables
alone. -/
theorem exists_assign_of_storeWith (hs : C.Guarded s) (hr : C.Target s r) (hv : C.Item s.heap v)
    (hrun : storeWith op r v s = .ok w t) :
    ∃ v' u u', u.cells = s.cells ∧ C.Guarded u ∧ C.Item u.heap v' ∧ r.assign v' u = .ok () u' ∧
      t.cells = u'.cells := by
  rw [storeWith] at hrun
  cases harithmetic : op.arithmetic? with
  | none =>
    rw [harithmetic] at hrun
    obtain ⟨v', u, hval, hrun⟩ := bind_eq_ok hrun
    cases hval
    obtain ⟨_, u', hassign, hback⟩ := bind_eq_ok hrun
    exact ⟨v, s, u', rfl, hs, hv, hassign, cells_of_readPlace hback⟩
  | some arithmetic =>
    rw [harithmetic] at hrun
    obtain ⟨old, x, hold, hrun⟩ := bind_eq_ok hrun
    obtain ⟨v', u, hval, hrun⟩ := bind_eq_ok hrun
    obtain ⟨_, u', hassign, hback⟩ := bind_eq_ok hrun
    obtain ⟨hx, -, hitem⟩ := (guards_read hr).ok hs hold
    obtain ⟨hu, -, hv'⟩ := (Guards.giving (gives_applyBinary arithmetic hitem.item)).ok hx hval
    have hcells : x.cells = s.cells := cells_of_readPlace hold
    obtain ⟨h, -, rfl⟩ := onHeap_eq_ok hval
    exact ⟨v', { x with heap := h }, u', hcells, hu, hv'.1, hassign, cells_of_readPlace hback⟩

/-- **What is stored and where.**  A variable of a pair type holds a pair that was not there before
if the location is the variable, and else what it held. -/
theorem cell_of_storeWith {k N : Nat} (hs : (Custody.since k N).Guarded s)
    (hr : (Custody.since k N).Target s r) (hv : (Custody.since k N).Item s.heap v)
    (hc : s.cells[i]? = some c) (hpair : c.type.isPair = true) (hloc : c.value = .pair loc)
    (hrun : storeWith op r v s = .ok w t) :
    ∃ c' loc', t.cells[i]? = some c' ∧ c'.value = .pair loc' ∧
      (r.place = .variable i → s.heap.objects.size ≤ loc') ∧
      (r.place ≠ .variable i → loc' = loc) := by
  by_cases hplace : r.place = .variable i
  · obtain ⟨v', u, u', hcells, hu, hitem, hassign, hback⟩ := exists_assign_of_storeWith
      (hs.sinceNow (H := fun _ => False) (A := fun _ => True) False.elim) hr.since hv.since hrun
    have hcu : u.cells[i]? = some c := by rw [hcells, hc]
    have htype := hr.type_eq hplace hc
    obtain ⟨c', loc', hc', hloc', hnew⟩ :=
      exists_pair_of_assign hu hitem hplace htype hpair hcu hassign
    exact ⟨c', loc', by rw [hback, hc'], hloc', fun _ => hnew, fun h => absurd hplace h⟩
  · -- the variable keeps its pair if the location spares it
    have hwatched := hs.sinceNow (H := (· = i)) (A := fun _ => False) fun hi =>
      ⟨⟨c, hi ▸ hc, hpair⟩, nofun, nofun⟩
    obtain ⟨-, hst, -⟩ :=
      (guards_storeWith op hr.since (fun j hj (hji : j = i) => hplace (hji ▸ hj)) hv.since).ok
      hwatched hrun
    obtain ⟨c', hc', hturns⟩ := hst.cells hc
    have hsame := (hturns.pair hpair).resolve_right fun h => h.1 rfl
    exact ⟨c', loc, hc', hsame.trans hloc, fun h => absurd h hplace, fun _ => rfl⟩

end Writing

/-! ### Statements and assignments -/

section Runs

variable {input : List String} {a : Moment} {p : String}

/-- The statements bind other names only. -/
theorem lookup?_of_runAll {x : String} (hx : x ∉ ss.flatMap Stmt.declaredNames)
    (hrun : runAll (exec m level) n ss s = .ok () t) : t.lookup? x = s.lookup? x := by
  obtain ⟨bound, hbd, hnames⟩ := (tidy_runAll (tidy_exec m (exec m level) level) n ss).binds s
  rw [hrun] at hbd hnames
  have hbd : bound.map Prod.fst = ss.flatMap Stmt.declaredNames := hbd
  exact (hnames.lookup?_eq x).trans (s.lookup?_declaring_of_not_mem (hbd ▸ hx))

/-- The pair that a variable holds after statements is the one from before, or a new one if the
variable is not to keep its pair. -/
theorem holdsPair_of_guarded {C : Custody} (ha : C.Guarded a.state)
    (hl : m.linked.EveryFunction C.Permits C.frees)
    (hp : a.state.HoldsPair p i loc) (hss : ∀ stmt ∈ ss, stmt.Every C.Permits C.frees)
    (hname : p ∉ ss.flatMap Stmt.declaredNames)
    (hrun : runAll (exec m level) n ss a.state = .ok () t) :
    ∃ l, t.HoldsPair p i l ∧ (l = loc ∨ ¬C.held i ∧ C.keep l) := by
  have hD : (custody C m).Adequate := adequate_custody
  have hrel := Discipline.runAll (hD.runs hl level a.state) n ss a.state hss (refl_of C.Within _) ha
  obtain ⟨-, hat, -⟩ := hD.ok hrel ha hrun
  obtain ⟨c, hc, hval⟩ := hp.held
  obtain ⟨c', hc', hturns⟩ := hat.cells hc
  have hlookup := lookup?_of_runAll hname hrun
  rcases hturns.pair (hp.isPair ha hc) with hsame | ⟨hfree, l, hl, hnew⟩
  · exact ⟨loc, hp.congr hlookup hc' (hsame.trans hval), .inl rfl⟩
  · exact ⟨l, hp.congr hlookup hc' hl, .inr ⟨hfree, hnew⟩⟩

/-- **The pair that a variable holds after statements** is the one from before, or a new one.  It is
the one from before if nothing is assigned to a name that may stand for the variable. -/
theorem holdsPair_of_runAll (ha : Visits m (fun _ => True) ⟨.start m.limits input, []⟩ a)
    (hp : a.state.HoldsPair p i loc) (hname : p ∉ ss.flatMap Stmt.declaredNames)
    (hrun : runAll (exec m level) n ss a.state = .ok () t) :
    ∃ l, t.HoldsPair p i l ∧ (l = loc ∨ a.state.heap.objects.size ≤ l) ∧
      ∀ A : String → Prop, a.state.Spares A i → m.linked.EveryFunction (Expr.AssignsOnly A)
      (fun x => ¬A x) →
        (∀ stmt ∈ ss, stmt.Every (Expr.AssignsOnly A) fun x => ¬A x) → l = loc := by
  have hs := ha.guarded_since
  obtain ⟨l, hl, hkept⟩ :=
    holdsPair_of_guarded (hs.sinceNow False.elim) m.linked.permits_since.functions hp
    (fun stmt _ => stmt.every_of_forall Custody.permits_since Custody.frees_since) hname hrun
  refine ⟨l, hl, hkept.imp_right And.right, fun A hspares hlinked hss => ?_⟩
  let C := Custody.since a.state.cells.size a.state.heap.objects.size (· = i) A
  have hpermits : ∀ e : Expr, e.AssignsOnly A → C.Permits e := fun e he =>
    ⟨(Custody.permits_since (c := 0) (N := 0) e).allows, False.elim, he⟩
  have hfrees : ∀ x, ¬A x → C.frees x := fun x hx hassigned => absurd hassigned hx
  obtain ⟨c, hc, -⟩ := hp.held
  have hC : C.Guarded a.state := hs.sinceNow fun hi => ⟨⟨c, hi ▸ hc, hp.isPair hs hc⟩, hi ▸ hspares⟩
  obtain ⟨l', hl', hsame | ⟨hfree, -⟩⟩ := holdsPair_of_guarded hC (hlinked.imp hpermits hfrees) hp
    (fun stmt hstmt => (hss stmt hstmt).imp hpermits hfrees) hname hrun
  · rw [hl.unique hl', hsame]
  · exact absurd rfl hfree

/-- **What an assignment does to a variable that holds a pair.**  If it is an assignment to the
variable as a whole, the variable holds a pair then that was not there before.  Else the variable
holds the pair that it held when the operands were evaluated. -/
theorem holdsPair_of_assign (ha : Visits m (fun _ => True) ⟨.start m.limits input, []⟩ a)
    (hp : a.state.HoldsPair p i loc) {q : Position} {target e : Expr}
    (hrun : eval m (invoke m (exec m level)) n (.assign q op target e) a.state = .ok w t) :
    ∃ r u v u' l l', refer m (invoke m (exec m level)) (n + 2) target a.state = .ok r u ∧
      eval m (invoke m (exec m level)) (n + 2) e u = .ok v u' ∧ u'.HoldsPair p i l ∧
      t.HoldsPair p i l' ∧
      (r.place = .variable i → u'.heap.objects.size ≤ l' ∧ l' ≠ loc) ∧
      (r.place ≠ .variable i → l' = l) := by
  have htidy := tidy_exec m (exec m level) level
  have hnames : SameNames a.state t := by
    have hkeeps := (tidy_eval htidy n (.assign q op target e)).keeps a.state
    rwa [hrun] at hkeeps
  rw [eval_step] at hrun
  obtain ⟨r, u, hr, hrest⟩ := bind_eq_ok (eq_ok_of_checked hrun)
  obtain ⟨v, u', hv, hstore⟩ := bind_eq_ok hrest
  have hnames' : SameNames a.state u' := by
    have hkeeps := (tidy_refer htidy (n + 2) target).keeps a.state
    have hkeeps' := (tidy_eval htidy (n + 2) e).keeps u
    rw [hr] at hkeeps
    rw [hv] at hkeeps'
    exact hkeeps.trans hkeeps'
  -- the operands leave a pair in the variable
  have hs := ha.guarded_since
  have hevery : ∀ e : Expr, e.Every (Custody.since 0 0).Permits := fun e =>
    e.every_of_forall Custody.permits_since
  obtain ⟨hu, hau, htgt⟩ := (guards_refer m.linked.permits_since level _ (hevery target)).ok hs hr
  obtain ⟨hu', huu', hval⟩ := (guards_eval m.linked.permits_since level _ (hevery e)).ok hu hv
  have hau' := trans_of (Custody.since 0 0).Within hau huu'
  obtain ⟨c₀, hc₀, hloc₀⟩ := hp.held
  obtain ⟨c, hc, hturns⟩ := hau'.cells hc₀
  have hpair : c.type.isPair = true := hturns.type ▸ hp.isPair hs hc₀
  obtain ⟨l, hl⟩ := hu'.pairs hc hpair
  obtain ⟨c', l', hc', hl', hstored⟩ :=
    cell_of_storeWith hu' (htgt.later huu') hval.item hc hpair hl hstore
  have hlt : loc < u'.heap.objects.size := by
    have hheld := hs.touchCell hc₀ trivial
    rw [hloc₀] at hheld
    exact Nat.lt_of_lt_of_le (hheld.item.backs.lt rfl) hau'.heap.kept.size_le
  refine ⟨r, u, v, u', l, l', hr, hv, hp.congr (hnames'.lookup?_eq p) hc hl,
    hp.congr (hnames.lookup?_eq p) hc' hl', fun hplace => ⟨hstored.1 hplace, ?_⟩, hstored.2⟩
  exact Nat.ne_of_gt (Nat.lt_of_lt_of_le hlt (hstored.1 hplace))

end Runs

/-! ### References -/

/-- **How long a reference to a field goes with the variable.**  At every moment of a run, a
reference to a field of a variable that holds a pair is bound to the field of that pair, by a
declaration as well as by a call.  After any statements that declare neither name again, the
reference still stands for the field of its pair, and the variable holds the pair that it held or a
new one; each of the two names is read as the field of its own pair.  So they are the same as long
as the variable holds the pair of the reference, and once it holds another one they never meet
again.  It holds the pair that it held if only names are assigned to that do not stand for the
variable.  An assignment gives the variable a new pair if and only if it is one to the variable as a
whole. -/
theorem reference_to_field_until_assigned {m : Machine} {input : List String} {a : Moment}
    {p field : String}
    {f : PairField} {i loc : Nat} (ha : Visits m (fun _ => True) ⟨.start m.limits input, []⟩ a)
    (hf : PairField.ofName? field = some f) (hp : a.state.HoldsPair p i loc) (q q' : Position)
    {access : Access} (hacc : access ≠ .scope) :
    (∀ level n (d : Declarator), d.Aliases (.member q (.name q' p) access field) →
      a.state.steps + 1 ≤ m.limits.maxSteps → n + 5 ≤ m.limits.maxNesting →
      ∃ t, exec m (level + 1) n (.declare d) a.state = .ok () t ∧ t.NamesField d.name loc f ∧
        (d.name ≠ p → t.HoldsPair p i loc)) ∧
    (∀ enter n (param : Param) params args frame, param.type.isReference = true →
      param.name.isEmpty = false → n + 2 ≤ m.limits.maxNesting →
      ∃ type, bindArgs m enter n (param :: params) (.member q (.name q' p) access field :: args)
      frame a.state =
        bindArgs m enter n params args (Frame.bind param.name ⟨.pairField loc f, type⟩ frame)
        a.state) ∧
    (∀ r loc' level n ss t, a.state.NamesField r loc' f → p ∉ ss.flatMap Stmt.declaredNames →
      r ∉ ss.flatMap Stmt.declaredNames → runAll (exec m level) n ss a.state = .ok () t →
      ∃ l, t.HoldsPair p i l ∧ t.NamesField r loc' f ∧
      (l = loc ∨ a.state.heap.objects.size ≤ l ∧ l ≠ loc') ∧
        (∀ A : String → Prop, a.state.Spares A i → m.linked.EveryFunction (Expr.AssignsOnly A)
        (fun x => ¬A x) →
          (∀ stmt ∈ ss, stmt.Every (Expr.AssignsOnly A) fun x => ¬A x) → l = loc) ∧
        ∀ enter k, k + 2 ≤ m.limits.maxNesting →
        eval m enter k (.name q r) t = .ok (t.heap.fieldAt loc' f) t ∧
          eval m enter k (.member q (.name q' p) access field) t = .ok (t.heap.fieldAt l f) t) ∧
    ∀ level n op target e w t, eval m (invoke m (exec m level)) n (.assign q op target e) a.state =
    .ok w t →
      ∃ r u v u' l l', refer m (invoke m (exec m level)) (n + 2) target a.state = .ok r u ∧
        eval m (invoke m (exec m level)) (n + 2) e u = .ok v u' ∧ u'.HoldsPair p i l ∧
        t.HoldsPair p i l' ∧
        (r.place = .variable i → u'.heap.objects.size ≤ l' ∧ l' ≠ loc) ∧
        (r.place ≠ .variable i → l' = l) := by
  refine ⟨?_, ?_, ?_, ?_⟩
  · intro level n d hd hroom hn
    have hadvanced : (a.state.advanced 1).HoldsPair p i loc := ⟨hp.bound, hp.held⟩
    obtain ⟨type, hrefer⟩ := refer_field (invoke m (exec m level)) q q' hadvanced hf hacc hn
    refine ⟨_, exec_declare_of_le hd hroom hrefer, ⟨type, State.lookup?_declaring _ _ _⟩,
      fun hname => ?_⟩
    exact hadvanced.declaring (by simpa using hname.symm)
  · intro enter n param params args frame href hname hn
    obtain ⟨type, hrefer⟩ := refer_field enter q q' hp hf hacc hn
    refine ⟨type, ?_⟩
    rw [bindArgs.eq_def]
    simp only [href, hname, if_true]
    exact bind_of_ok hrefer
  · intro r loc' level n ss t hr hpname hrname hrun
    obtain ⟨l, hl, hpair, hkept⟩ := holdsPair_of_runAll ha hp hpname hrun
    have hr' := hr.congr (lookup?_of_runAll hrname hrun)
    refine ⟨l, hl, hr', hpair.imp_right fun hnew => ⟨hnew, ?_⟩, hkept, fun enter k hk => ⟨?_, ?_⟩⟩
    · -- the pair of the reference was there before
      obtain ⟨type, hlookup⟩ := hr
      have hlt := (ha.guarded_since.lookup? hlookup).target.site.2.lt rfl
      exact Nat.ne_of_gt (Nat.lt_of_lt_of_le hlt hnew)
    · exact eval_of_namesField enter q hr' (by omega)
    · exact eval_field enter q q' hl hf hacc hk
  · intro level n op target e w t hrun
    exact holdsPair_of_assign ha hp hrun

/-- A pair, a reference to its first field, and two statements: one assigns to the reference, the
other one to the variable. -/
theorem reference_to_field_until_assigned_parting :
    let pos : Position := ⟨1, 1⟩
    let int : TypeExpr := .of .int []
    let pair : TypeExpr := .of .pair [int, int]
    let number (n : Int) : Expr := .literal pos (.int n "")
    let m : Machine := ⟨{}, ⟨100, 10⟩⟩
    let s : State := {
      heap := { room := 1388, objects := #[.pair (.int 1) (.int 2) (some int) (some int)] }
      cells := #[⟨.pair 0, pair⟩]
      globals := [("p", ⟨.variable 0, some pair⟩), ("r", ⟨.pairField 0 .first, some int⟩)] }
    let throughReference : Stmt := .evaluate pos (.assign pos .assign (.name pos "r") (number 5))
    let whole :
      Stmt := .evaluate pos (.assign pos .assign (.name pos "p") (.braces pos [number 3, number 4]))
    let after (ss : List Stmt) : State := stateAfter (runAll (exec m 6) 0 ss) s
    let read (e : Expr) (t : State) : Option Int :=
      match eval m (invoke m (exec m 6)) 0 e t with
      | .ok (.int n) _ => some n
      | _ => none
    Visits m (fun _ => True) ⟨.start m.limits [], []⟩ ⟨s, []⟩ ∧ s.HoldsPair "p" 0 0 ∧
    s.NamesField "r" 0 .first ∧
      (∀ ss ∈ [[throughReference], [throughReference, whole]], ∃ l, (after ss).HoldsPair "p" 0 l ∧
        (after ss).NamesField "r" 0 .first ∧ (l = 0 ∨ 1 ≤ l ∧ l ≠ 0)) ∧
      (after [throughReference]).HoldsPair "p" 0 0 ∧
      (read (.name pos "r") (after [throughReference]) = some 5 ∧
        read (.member pos (.name pos "p") .dot "first") (after [throughReference]) = some 5) ∧
      read (.name pos "r") (after [throughReference, whole]) = some 5 ∧
        read (.member pos (.name pos "p") .dot "first") (after [throughReference, whole]) =
        some 3 := by
  intro pos int pair number m s throughReference whole after read
  let d : Declarator := ⟨pos, pair, "p", some (.braces pos [number 1, number 2]), .single⟩
  let d' : Declarator := ⟨pos, { int with isReference := true }, "r",
    some (.member pos (.name pos "p") .dot "first"), .single⟩
  have hvisits : Visits m (fun _ => True) ⟨.start m.limits [], []⟩ ⟨s, []⟩ :=
    .declared (.declared (.refl _) 5 0 (d.every_of_forall (fun _ => trivial) fun _ => trivial)
        (t := { s with globals := [] }) (r := ⟨.variable 0, some pair⟩) rfl)
      5 0 (d'.every_of_forall (fun _ => trivial) fun _ => trivial)
      (t := { s with globals := [("p", ⟨.variable 0, some pair⟩)] })
      (r := ⟨.pairField 0 .first, some int⟩) rfl
  have hp : s.HoldsPair "p" 0 0 := ⟨⟨pair, rfl, rfl⟩, ⟨.pair 0, pair⟩, rfl, rfl⟩
  have hr : s.NamesField "r" 0 .first := ⟨some int, rfl⟩
  have hfld : PairField.ofName? "first" = some PairField.first := rfl
  have hacc : Access.dot ≠ .scope := nofun
  have hmain := (reference_to_field_until_assigned hvisits hfld hp pos pos hacc).2.2.1 "r" 0 6 0
  have hstays : ∀ ss : List Stmt, ss ∈ [[throughReference], [throughReference, whole]] →
      ("p" ∉ ss.flatMap Stmt.declaredNames ∧ "r" ∉ ss.flatMap Stmt.declaredNames) ∧
        Ending.isOk (runAll (exec m 6) 0 ss s) = true := by
    decide +kernel
  have hafter : ∀ ss ∈ [[throughReference], [throughReference, whole]], _ := fun ss hss =>
    hmain ss _ hr (hstays ss hss).1.1 (hstays ss hss).1.2 (Ending.eq_ok_of_isOk (hstays ss hss).2)
  refine ⟨hvisits, hp, hr, fun ss hss => ?_, ?_, by decide +kernel⟩
  · obtain ⟨l, hl, hr', hpair, -⟩ := hafter ss hss
    exact ⟨l, hl, hr', hpair⟩
  · -- only `r` is assigned to, which is not the variable
    have hspares : s.Spares (· = "r") 0 := ⟨by simp [s], by simp [s]⟩
    obtain ⟨l, hl, -, -, hkept, -⟩ := hafter [throughReference] List.mem_cons_self
    have hsame : l = 0 := by
      apply hkept (· = "r") hspares
      · rintro f ⟨entry, hent, -⟩
        cases hent
      · intro stmt hstmt
        obtain rfl := List.mem_singleton.mp hstmt
        exact ⟨rfl, trivial, trivial⟩
    rwa [hsame] at hl

end SmallCpp
