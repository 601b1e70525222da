import SmallCpp.Proofs.Machine.WriteRead

/-!
# Adding one

The statements `++e;`, `e++;` and `e += 1;` look for the location of `e` once, read it, add one and
assign the sum.  Two of them read the location once more, which gives the assigned value and changes
nothing, so the three do the same, whatever `e` is.

The statement `e = e + 1;` looks for the location and evaluates `e` then.  Its value may be that of
another location: a comparison of two maps in `e` may have another answer, because looking for the
location has added an entry to one of them.  If `e` is steady, the value is the one at the location.

## Main results

* `update_forms_agree` — **the ways to add one agree.**
-/

namespace SmallCpp

variable {C : Custody} {s t u : State} {r : Reference} {e : Expr} {m : Machine} {enter : Enter}
  {n k level : Nat}

/-! ### The value at a location that has been found -/

/-- **A steady expression has the value at its location** where the location has been found. -/
theorem eval_of_found (hC : C.Unbounded) (he : e.OnlyReads) (hs : C.Guarded s)
    (hsteady : e.Steady m enter n s)
    (hr : refer m enter (n + 1) e s = .ok r t) (hmarks : t.heap.marks = s.heap.marks) :
    eval m enter n e t = r.read t := by
  have hn := Nat.le_of_succ_le (le_of_refer hr)
  cases e with
  | name p id =>
    obtain ⟨hlookup, rfl⟩ := refer_name_eq_ok hr
    rw [eval_name hn hlookup]
  | index p o i =>
    obtain ⟨c, u, j, w, hc, hj, hloc⟩ := read_of_refer_index hr
    obtain ⟨hu, hsu, -⟩ := (guards_eval_of_isRead hC he.2.1).ok hs hc
    obtain ⟨hw, huw, -⟩ := (guards_eval_of_isRead hC he.2.2).ok hu hj
    -- the parts are found where they were
    have hagain : w.heap.marks = s.heap.marks →
        u.heap.marks = s.heap.marks ∧ eval m enter n (.index p o i) w =
        onHeap (elementOf c j) w := by
      intro hmarks
      obtain ⟨hmarks₁, hmarks₂⟩ := hsu.marks_eq huw hmarks
      have hobj := eval_again hC he.2.1 ⟨hs, hsteady.1, hc, hmarks₁, Nat.le_refl _, huw⟩
      have hidx := eval_again hC he.2.2
        ⟨hu, hsteady.2 c u hc, hj, hmarks₂, Nat.le_refl _, refl_of Enriched w⟩
      exact ⟨hmarks₁, eval_index hn hobj hidx⟩
    rcases hloc with ⟨rfl, hread⟩ | ⟨q, x, i', htext, hq, hk, rfl⟩
    · rw [hread]
      exact (hagain hmarks).2
    · obtain ⟨h, hidx, rfl⟩ := onHeap_eq_ok hk
      obtain rfl := ((Oblivious.asIndex j).again hidx).1
      obtain ⟨-, hwx, -⟩ := (guards_refer_of_isRead hC he.2.1).ok hw hq
      obtain ⟨hmarks₁, heval⟩ := hagain ((trans_of Enriched hsu huw).marks_eq hwx hmarks).1
      obtain ⟨rfl, hread⟩ :=
        refer_again hC he.2.1 ⟨hs, hsteady.1, hc, hmarks₁, Nat.le_succ _, huw⟩ hq
      refine heval.trans ((bind_of_ok hread).trans ?_).symm
      rw [elementOf_of_text htext hidx]
  | member p o access field =>
    obtain ⟨c, hacc, hc, hread⟩ := read_of_refer_member hr
    have hagain := eval_again hC he.2 ⟨hs, hsteady, hc, hmarks, Nat.le_refl _, refl_of Enriched t⟩
    rw [hread]
    exact eval_member hacc hn hagain
  | _ =>
    rw [refer_step] at hr
    cases eq_ok_of_checked hr

/-- Looking for the location ends in the same way if fewer evaluations are in progress. -/
theorem refer_of_le (hC : C.Unbounded) (he : e.OnlyReads) (hs : C.Guarded s)
    (hsteps : s.steps ≤ m.limits.maxSteps) (hn : n ≤ k)
    (hdeep : ∀ t, refer m (invoke m (exec m level)) k e s ≠ .error .tooDeep t) :
    refer m (invoke m (exec m level)) n e s = refer m (invoke m (exec m level)) k e s := by
  have hread : Guards Enriched C s (fun t r => C.Target t r)
      (refer m (invoke m (exec m level)) k e) :=
    guards_refer_of_isRead hC he
  have hroom : (stateAfter (refer m (invoke m (exec m level)) k e) s).steps + (0 : Nat) ≤
      m.limits.maxSteps := by
    rw [(hread.stateAfter hs).2.rest]
    simpa using hsteps
  obtain ⟨g, rfl, hsame⟩ := ((slack_expression m level 0 e).refers hn).same s _ rfl hroom
    fun stop t hrun hspared => hdeep t (hrun.trans (congrArg (EStateM.Result.error · t) hspared))
  simp only [Int.natCast_zero, Int.add_zero] at hsame
  exact hsame.trans (mapState_counters _)

/-! ### Statements -/

/-- One is added at a location. -/
def increase (r : Reference) : Run Unit := do
  let old ← r.read
  let new ← onHeap (applyBinary .add old (.int 1))
  r.assign new

/-- A sum with a number is a number. -/
theorem number_of_sum {v w : Value} {h k : Heap} (hv : v.isTextual)
    (hrun : applyBinary .add v (.int 1) h = .ok w k) :
    unwrap? w = some w ∧ w.isCharacter = false := by
  cases v with
  | char s =>
    obtain ⟨m, h₁, -, hrun⟩ := bind_eq_ok hrun
    obtain ⟨n, h₂, -, hrun⟩ := bind_eq_ok hrun
    obtain ⟨x, h₃, -, hrun⟩ := bind_eq_ok hrun
    unfold newNumber at hrun
    split at hrun
    · cases hrun
      exact ⟨rfl, rfl⟩
    · unfold newReal at hrun
      split at hrun <;> cases hrun <;> exact ⟨rfl, rfl⟩
  | text s => cases hrun
  | _ => exact absurd rfl hv

theorem read_of_increase (hs : C.Guarded s) (hr : C.Target s r) (hrun : increase r s = .ok () t) :
    ∃ w, r.read t = .ok w t := by
  obtain ⟨old, s₁, hold, hrest⟩ := bind_eq_ok hrun
  obtain ⟨new, s₂, hnew, hassign⟩ := bind_eq_ok hrest
  obtain ⟨hs₁, h01, ⟨hval, -⟩, htext⟩ := (guards_readPlace hr.site).ok hs hold
  obtain ⟨hs₂, h12, -⟩ := (Guards.giving (gives_applyBinary .add hval.item)).ok hs₁ hnew
  obtain ⟨w, h, hcoerce, -, hread, -⟩ := written_of_assign hs₂ ((hr.later h01).later h12) hassign
  refine ⟨w, hread.mpr fun hchar => ?_⟩
  -- the new value is a number, so it is converted to a character of one code point
  rw [hr.type_of_isCharacter hchar] at hcoerce
  obtain ⟨k, hsum, -⟩ := onHeap_eq_ok hnew
  obtain ⟨hunwrap, hnum⟩ := number_of_sum (htext hchar) hsum
  obtain ⟨hw, hone | hsame⟩ :=
    (answers_coerce_character (t := { base := .char }) rfl new).of_ok hcoerce
  · exact hone
  · cases hunwrap.symm.trans hsame
    cases hnum.symm.trans hw

/-- The value of a computation is not used, and the location is read behind it. -/
theorem discard_read {c : Run Unit} (h : ∀ t, c s = .ok () t → ∃ w, r.read t = .ok w t) :
    (discard (c >>= fun _ => r.read) : Run Unit) s = c s := by
  show EStateM.map _ _ s = _
  rw [EStateM.map]
  cases hc : c s with
  | ok a t =>
    obtain ⟨w, hw⟩ := h t hc
    rw [bind_of_ok hc, hw]
  | error stop t => rw [bind_of_error hc]

/-- What a statement does that looks for a location and adds one there. -/
def increased (m : Machine) (level n : Nat) (p : Position) (e : Expr) : Run Unit := do
  tick m.limits
  locating p do
    checkNesting m.limits (n + 3)
    let r ← refer m (invoke m (exec m level)) (n + 5) e
    increase r

theorem exec_eq_increased (p : Position) {E : Expr} {f : Reference → Run Value}
    (hE : eval m (invoke m (exec m level)) (n + 3) E =
      checkNesting m.limits (n + 3) >>= fun _ => refer m (invoke m (exec m level)) (n + 5) e >>= f)
    (hf : ∀ r t, s.steps + 1 ≤ m.limits.maxSteps →
      refer m (invoke m (exec m level)) (n + 5) e (s.advanced 1) = .ok r t →
      (discard (f r) : Run Unit) t = increase r t) :
    exec m (level + 1) n (.evaluate p E) s = increased m level n p e s := by
  have hexec : exec m (level + 1) n (.evaluate p E) =
    tick m.limits >>= fun _ =>
    locating p (discard (eval m (invoke m (exec m level)) (n + 3) E)) := rfl
  rw [hexec, hE, increased]
  cases ht : tick m.limits s with
  | error stop t => rw [bind_of_error ht, bind_of_error ht]
  | ok a t =>
    obtain ⟨hsteps, hle⟩ := tick_eq_ok ht
    rw [hsteps] at hle
    rw [bind_of_ok (tick_of_le hle), bind_of_ok (tick_of_le hle), locating_apply, locating_apply]
    refine congrArg (located p) ?_
    show EStateM.map _ _ _ = _
    rw [EStateM.map]
    -- both check the nesting before they look for the location
    by_cases hn : n + 3 ≤ m.limits.maxNesting
    · rw [checked_of_le hn, checked_of_le hn]
      cases hr : refer m (invoke m (exec m level)) (n + 5) e (s.advanced 1) with
      | ok r t =>
        rw [bind_of_ok hr, bind_of_ok hr]
        exact hf r t hle hr
      | error stop t => rw [bind_of_error hr, bind_of_error hr]
    · rw [checkNesting, if_neg hn]
      rfl

theorem discard_stepReference (r : Reference) :
    (discard (stepReference r 1) : Run Unit) = increase r := by
  show (fun _ => ()) <$> stepReference r 1 = increase r
  simp [stepReference, increase]

theorem storeWith_add (r : Reference) : storeWith .add r (.int 1) = increase r >>= fun _ =>
    r.read := by
  simp [storeWith, increase, AssignOp.arithmetic?]

theorem storeWith_assign (r : Reference) :
    ((r.read >>= fun old => onHeap (applyBinary .add old (.int 1))) >>= fun v =>
      storeWith .assign r v) =
      increase r >>= fun _ => r.read := by
  simp [storeWith, increase, AssignOp.arithmetic?]

theorem discard_bind_of_eq {c d : Run Value} {f : Value → Run Value} (h : c s = d s) :
    (discard (c >>= f) : Run Unit) s = (discard (d >>= f) : Run Unit) s := by
  show EStateM.map _ (EStateM.bind c f) s = EStateM.map _ (EStateM.bind d f) s
  rw [EStateM.map, EStateM.map, EStateM.bind, EStateM.bind, h]

/-- **The ways to add one agree.**  At every moment of a run, `++e;`, `e++;` and `e += 1;` do the
same: they leave the same state or end with the same error.  So does `e = e + 1;`, if `e` is made of
constants, names, operators that store nothing, elements and fields, and is steady, and if looking
for its location three levels deeper is not too deep and makes no new non-number. -/
theorem update_forms_agree {m : Machine} {input : List String} {a : Moment}
    (ha : Visits m (fun _ => True) ⟨.start m.limits input, []⟩ a) (level n : Nat) (p q : Position)
    (text : String) (e : Expr) :
    let enter := invoke m (exec m level)
    let s := a.state.advanced 1
    let run (e : Expr) := exec m (level + 1) n (.evaluate p e) a.state
    let one : Expr := .literal q (.int 1 text)
    run (.unary q .increment e) = run (.step q .increment e) ∧
      run (.assign q .add e one) = run (.step q .increment e) ∧
      ((e.Every fun e => e.isRead = true) → e.Steady m enter (n + 7) s →
        (∀ t, refer m enter (n + 8) e s ≠ .error .tooDeep t) →
        (∀ r t, refer m enter (n + 8) e s = .ok r t → t.heap.marks = s.heap.marks) →
        run (.assign q .assign e (.binary q .add e one)) = run (.step q .increment e)) := by
  intro enter s run one
  have hs : (Custody.since 0 0).Guarded s := ha.guarded_since.count 1
  have he : e.Every (Custody.since 0 0).Permits := e.every_of_forall Custody.permits_since
  have hread : ∀ {r t}, refer m enter (n + 5) e s = .ok r t → ∀ u, increase r t = .ok () u →
      ∃ w, r.read u = .ok w u := by
    intro r t hr u hu
    obtain ⟨ht, -, htgt⟩ := (guards_refer m.linked.permits_since level (n + 5) he).ok hs hr
    exact read_of_increase ht htgt hu
  have hstep : run (.step q .increment e) = increased m level n p e a.state := by
    refine exec_eq_increased p (f := fun r => stepReference r 1) (by rw [eval_step]; rfl)
      fun r t _ _ => ?_
    rw [discard_stepReference]
  rw [hstep]
  refine ⟨?_, ?_, fun hisRead hsteady hdeep hmarks => ?_⟩
  · refine exec_eq_increased p (by rw [eval_step]) fun r t _ hr => ?_
    rw [discard_stepReference]
    exact discard_read (hread hr)
  · refine exec_eq_increased p (by rw [eval_step]) fun r t _ hr => ?_
    have hone : eval m enter (n + 5) one t = (pure (.int 1) : Run Value) t :=
      eval_literal (.int 1 text) (le_of_refer hr) t
    rw [discard_bind_of_eq hone, pure_bind, storeWith_add]
    exact discard_read (hread hr)
  · refine exec_eq_increased p (by rw [eval_step]) fun r t hle hr => ?_
    -- the second evaluation of `e` is nested three levels deeper than the search for its location
    have hfound : refer m enter (n + 8) e s = .ok r t :=
      (refer_of_le ⟨fun _ => trivial, fun _ _ => trivial⟩ hisRead hs hle (by omega)
      hdeep).symm.trans hr
    have hlimit := le_of_refer hfound
    have hval := eval_of_found ⟨fun _ => trivial, fun _ _ => trivial⟩ hisRead hs hsteady hfound
      (hmarks r t hfound)
    have hsum : eval m enter (n + 5) (.binary q .add e one) t =
        (r.read >>= fun old => onHeap (applyBinary .add old (.int 1))) t := by
      rw [eval_step]
      refine (checked_of_le (by omega) _ t).trans ?_
      cases hold : r.read t with
      | error stop u => exact (bind_of_error (hval.trans hold)).trans (bind_of_error hold).symm
      | ok old u =>
        rw [bind_of_ok hold]
        exact (bind_of_ok (hval.trans hold)).trans
          (bind_of_ok (eval_literal (.int 1 text) (by omega) u))
    rw [discard_bind_of_eq hsum, storeWith_assign]
    exact discard_read (hread hr)

/-- An entry that the map does not have yet. -/
theorem update_forms_agree_entry :
    let pos : Position := ⟨1, 1⟩
    let m : Machine := ⟨{}, ⟨100, 10⟩⟩
    let one : Expr := .literal pos (.int 1 "1")
    let e : Expr := .index pos (.name pos "m") one
    let run (e : Expr) := exec m 7 0 (.evaluate pos e) (mapState m.limits (.of .int []) [])
    run (.unary pos .increment e) = run (.step pos .increment e) ∧
      run (.assign pos .add e one) = run (.step pos .increment e) ∧
      run (.assign pos .assign e (.binary pos .add e one)) = run (.step pos .increment e) := by
  intro pos m one e run
  let s := (mapState m.limits (.of .int []) []).advanced 1
  have hsteady : e.Steady m (invoke m (exec m 6)) 7 s :=
    ⟨fun r hr => by cases hr; trivial, fun _ _ _ => trivial⟩
  have hfound : refer m (invoke m (exec m 6)) 8 e s =
    .ok ⟨.mapSlot 0 (.int 1), some (.of .int [])⟩ s := rfl
  obtain ⟨hunary, hsum, hassign⟩ := update_forms_agree (visits_mapState m _) 6 0 pos pos "1" e
  refine ⟨hunary, hsum, hassign ⟨rfl, rfl, rfl⟩ hsteady (fun t ht => ?_) fun r t hr => ?_⟩
  · cases hfound.symm.trans ht
  · cases hfound.symm.trans hr
    rfl

/-- A program that declares a vector `v` of the numbers 1 and 2 and two maps `m` and `k`, and
updates the element `v[(m == k) + m[5]]` of the vector. -/
def updatesElement (update : Expr → Expr) : Program :=
  let pos : Position := ⟨1, 1⟩
  let int : TypeExpr := .of .int []
  let name (id : String) : Expr := .name pos id
  let number (n : Int) : Expr := .literal pos (.int n "")
  let declared (type : TypeExpr) (id : String) (value : Option Expr) : Stmt :=
    .declare ⟨pos, type, id, value, .single⟩
  ⟨"", [
    declared (.of .vector [int]) "v" (some (.braces pos [number 1, number 2])),
    declared (.of .map [int, int]) "m" none,
    declared (.of .map [int, int]) "k" none,
    .evaluate pos (update
    (.index pos (name "v") (.binary pos .add (.binary pos .eq (name "m") (name "k"))
      (.index pos (name "m") (number 5)))))]⟩

/-- The maps are equal when the location is looked for, and not any more when the sum is formed: the
second number becomes 3 in the one way and 2 in the other. -/
theorem update_forms_part :
    let pos : Position := ⟨1, 1⟩
    let one : Expr := .literal pos (.int 1 "1")
    let isThree (l : Option TypeExpr × Value) : Bool := l.2 matches .int 3
    ((updatesElement (.step pos .increment)).run [] ⟨100, 10⟩ #[]).state.locations.any
    isThree = true ∧
      ((updatesElement fun e => .assign pos .assign e (.binary pos .add e one)).run [] ⟨100, 10⟩
        #[]).state.locations.any isThree = false := by
  decide +kernel

end SmallCpp
