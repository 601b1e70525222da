import SmallCpp.Proofs.Machine.Scope
import SmallCpp.Proofs.Machine.Slack

/-!
# Strings that are changed in place

A statement such as `v[i++].push_back('x');` changes the string at the location that an expression
denotes. The expression is evaluated for the string, and then once more for the location.  So the
statement does what three other ones do together:

    v[i++];
    string& r = v[i++];
    r.push_back('x');

The first of them may be left out if the second evaluation finds the location of the first one and
leaves the state as it is, but not in general.

## Main results

* `TextEdit.eval_of` — **the two evaluations of the operand**, one after the other.
* `exec_edit_as_reference` — **a change in place, written with a reference.**
-/

namespace SmallCpp

variable {r : Reference} {v : Value} {s t u : State} {α : Type} {limits : Limits} {p : Position}
  {id name : String} {enter : Enter} {x : CodeText} {m : Machine} {n k level n' : Nat} {o e : Expr}

/-! ### Changes of a string -/

/-- Names that are bound and steps that are counted have nothing to do with containers and
variables. -/
theorem apart_declaring (bound : List (String × Reference)) (k : Nat) :
    Unrelated fun t => (t.declaring bound).advanced k where
  setHeap s heap := by
    unfold State.declaring
    cases hframes : s.frames <;> simp [State.advanced]
  setCells s cells := by
    unfold State.declaring
    cases hframes : s.frames <;> simp [State.advanced]

/-- A change of a string, its operands constants, with the positions that it is written at. -/
inductive TextEdit where
  | append (call member operand : Position) (c : Char) (spelled : String)
  /-- A character is put in the place of another: `e[index] = c`. -/
  | replace (assignment element subscript operand : Position) (index : Int) (digits : String)
    (c : Char)
    (spelled : String)

namespace TextEdit

/-- The change of the string that an expression denotes, as an expression. -/
def of (e : Expr) : TextEdit → Expr
  | append p q o c spelled => .call p (.member q e .dot "push_back") [.literal o (.char c spelled)]
  | replace p q i o index digits c spelled =>
    .assign p .assign (.index q e (.literal i (.int index digits))) (.literal o (.char c spelled))

/-- The change of the string at a location. -/
def change (r : Reference) : TextEdit → Run Value
  | append _ _ _ c _ => do
    changeText .append "push_back" [.char [.ofChar c]] r
    return .null
  | replace _ _ _ _ index _ c _ => storeWith .assign (characterOf r index) (.char [.ofChar c])

theorem commutes_change {f : State → State} (h : Unrelated f) (edit : TextEdit) (r : Reference) :
    Commutes f (edit.change r) := by
  have hstore := Commutes.store h
  cases edit with
  | append p q o c spelled =>
    exact Commutes.bind (hstore.changeText .append "push_back" _ r) fun _ _ => rfl
  | replace p q i o index digits c spelled => exact hstore.storeWith .assign _ _

/-- A change starts by reading the string, so it is the same once the string has been read. -/
theorem change_of_read (hread : r.read s = .ok v t) (hagain : r.read t = .ok v t)
    (edit : TextEdit) :
    edit.change r s = edit.change r t := by
  have hbind : ∀ {α : Type} (g : Value → Run α), (r.read >>= g) s = (r.read >>= g) t := by
    intro α g
    rw [bind_of_ok hread, bind_of_ok hagain]
  cases edit with
  | append p q o c spelled =>
    have hchange : changeText .append "push_back" [.char [.ofChar c]] r s =
        changeText .append "push_back" [.char [.ofChar c]] r t := hbind _
    show EStateM.bind _ _ s = EStateM.bind _ _ t
    rw [EStateM.bind, EStateM.bind, hchange]
  | replace p q i o index digits c spelled =>
    -- the conversion of a character to a character does not touch the heap
    have hassign : (characterOf r index).assign (.char [.ofChar c]) s =
        (characterOf r index).assign (.char [.ofChar c]) t := hbind _
    show EStateM.bind _ _ s = EStateM.bind _ _ t
    rw [EStateM.bind, EStateM.bind, hassign]

end TextEdit

/-- **The two evaluations of the operand.** The string is looked for first; then the operand is
evaluated once more, for the location, and the change is made there. -/
theorem TextEdit.eval_of (hval : eval m enter (n + 3) e s = .ok (.text x) t)
    (hloc : refer m enter (n + 3) e t = .ok r u) (edit : TextEdit) :
    eval m enter n (edit.of e) s = edit.change r u := by
  have hdeep := le_of_eval hval
  have hle : ∀ k, k ≤ 3 → n + k ≤ m.limits.maxNesting := by
    intro k hk
    omega
  cases edit with
  | append p q o c spelled =>
    have hargs : evalAll m enter (n + 3) [.literal o (.char c spelled)] t =
        .ok [.char [.ofChar c]] t := by
      rw [evalAll, evalAll]
      exact bind_of_ok (eval_literal (.char c spelled) hdeep t)
    rw [TextEdit.of, eval]
    · refine (checked_of_le (hle 0 (by omega)) _ s).trans ?_
      refine (bind_of_ok hval).trans ((bind_of_ok hargs).trans ?_)
      exact bind_of_ok hloc
    · rintro _ _ - ⟨⟩
    · rintro ⟨⟩
  | replace p q i o index digits c spelled =>
    have htgt : refer m enter (n + 2) (.index q e (.literal i (.int index digits))) s =
        .ok (characterOf r index) u := by
      rw [refer_step]
      refine (checked_of_le (hle 2 (by omega)) _ s).trans ?_
      refine (bind_of_ok hval).trans
        ((bind_of_ok (eval_literal (.int index digits) hdeep t)).trans ?_)
      exact bind_of_ok hloc
    rw [TextEdit.of, eval_step]
    refine (checked_of_le (hle 0 (by omega)) _ s).trans ?_
    exact (bind_of_ok htgt).trans (bind_of_ok (eval_literal (.char c spelled) (hle 2 (by omega)) u))

/-! ### Operands -/

/-- The location of an element is read as the element is, unless it is that of a character. -/
theorem read_of_refer_index {i : Expr} (hrun : refer m enter n (.index p o i) s = .ok r t) :
    ∃ c u j w, eval m enter (n + 1) o s = .ok c u ∧ eval m enter (n + 1) i u = .ok j w ∧
      (t = w ∧ r.read = onHeap (elementOf c j) ∨
        ∃ q x k, c.asText? ≠ none ∧ refer m enter (n + 1) o w = .ok q x ∧
        onHeap (asIndex j) x = .ok k t ∧
          r = characterOf q k) := by
  obtain ⟨c, u, j, w, hc, hj, hr⟩ := refer_index_eq_ok hrun
  refine ⟨c, u, j, w, hc, hj, ?_⟩
  rcases hr with ⟨loc, rfl, rfl, rfl⟩ | ⟨loc, rfl, rfl, rfl⟩ | htext
  · exact .inl ⟨rfl, rfl⟩
  · exact .inl ⟨rfl, rfl⟩
  · exact .inr htext

theorem read_of_refer_member {access : Access}
    (hrun : refer m enter n (.member p o access name) s = .ok r t) :
    ∃ c, access ≠ .scope ∧ eval m enter (n + 1) o s = .ok c t ∧
    r.read = onHeap (memberOf c name) := by
  obtain ⟨c, field, hacc, hc, hfld, hr⟩ := refer_member_eq_ok hrun
  refine ⟨c, hacc, hc, ?_⟩
  unfold memberOf
  rw [hfld]
  rcases hr with ⟨loc, rfl, rfl⟩ | ⟨loc, key, mark, rfl, rfl⟩
  · rfl
  · rfl

/-- **An expression that denotes a location has the value at the location**, unless the location is
that of a character, which is looked for in another way. -/
theorem eval_of_refer (hrun : refer m (invoke m (exec m level)) n e s = .ok r t)
    (hread : r.read t = .ok v u) (hwhole : ∀ text i, r.place ≠ .character text i) (hn : n' < n)
    (hroom : t.steps ≤ m.limits.maxSteps) : eval m (invoke m (exec m level)) n' e s = .ok v u := by
  have hdeep : n' ≤ m.limits.maxNesting := Nat.le_trans (Nat.le_of_lt hn) (le_of_refer hrun)
  -- what is evaluated one level below the location is evaluated two levels below the value
  have hinner : ∀ {o : Expr} {w : Value} {s t : State}, eval m (invoke m (exec m level)) (n + 1) o
    s = .ok w t →
      t.steps ≤ m.limits.maxSteps → eval m (invoke m (exec m level)) (n' + 2) o s = .ok w t := by
    intro o w s t heval hle
    have hlevel : n' + 2 ≤ n + 1 := by omega
    simpa using eval_advanced (k := 0) heval hlevel (by simpa using hle)
  cases e with
  | name p id =>
    obtain ⟨hlookup, rfl⟩ := refer_name_eq_ok hrun
    rw [eval_name hdeep hlookup]
    exact hread
  | index p o i =>
    obtain ⟨c, u₁, j, w, hc, hj, ⟨rfl, hread_eq⟩ | ⟨q, x, k, -, -, -, rfl⟩⟩ :=
      read_of_refer_index hrun
    case inr => exact absurd rfl (hwhole q.place k)
    have hc := hinner hc (Int.le_trans (steps_le_of_eval hj) hroom)
    rw [eval_index hdeep hc (hinner hj hroom), ← hread_eq]
    exact hread
  | member p o access name =>
    obtain ⟨c, hacc, hc, hread_eq⟩ := read_of_refer_member hrun
    rw [eval_member hacc hdeep (hinner hc hroom), ← hread_eq]
    exact hread
  | _ =>
    rw [refer_step] at hrun
    cases eq_ok_of_checked hrun

/-- Looked for in the state `s`, the expression denotes the location `r`, which holds the string `x`
and is not a character of another one.  The state is `t` once the string has been read. -/
structure Expr.HoldsText (m : Machine) (enter : Enter) (n : Nat) (e : Expr) (s : State)
    (r : Reference)
    (x : CodeText) (t : State) : Prop where
  found : ∃ u, refer m enter n e s = .ok r u ∧ r.read u = .ok (.text x) t
  kept : r.read t = .ok (.text x) t
  whole : ∀ text i, r.place ≠ .character text i

namespace Expr.HoldsText

variable {r' : Reference} {y : CodeText}

theorem steps_eq_of_read (hread : r.read s = .ok v t) : t.steps = s.steps := by
  have hsteps := (Uncounted.store.readPlace r.place).steps_eq s
  rwa [stateAfter, show readPlace r.place s = .ok v t from hread] at hsteps

theorem steps_le (h : e.HoldsText m (invoke m (exec m level)) n s r x t) : s.steps ≤ t.steps := by
  obtain ⟨u, hrefer, hread⟩ := h.found
  rw [steps_eq_of_read hread]
  exact steps_le_of_refer hrefer

theorem eval_eq (h : e.HoldsText m (invoke m (exec m level)) n s r x t) (hn : n' < n)
    (hroom : t.steps ≤ m.limits.maxSteps) :
    eval m (invoke m (exec m level)) n' e s = .ok (.text x) t := by
  obtain ⟨u, hrefer, hread⟩ := h.found
  rw [steps_eq_of_read hread] at hroom
  exact eval_of_refer hrefer hread h.whole hn hroom

/-- The change is made at the location that the second evaluation finds. -/
theorem eval_edit (h : e.HoldsText m (invoke m (exec m level)) (n + 4) s r x t)
    (h' : e.HoldsText m (invoke m (exec m level)) (n + 4) t r' y u)
    (hroom : u.steps ≤ m.limits.maxSteps)
    (edit : TextEdit) : eval m (invoke m (exec m level)) n (edit.of e) s = edit.change r' u := by
  have hval := h.eval_eq (Nat.lt_succ_self (n + 3)) (Int.le_trans h'.steps_le hroom)
  obtain ⟨w, hrefer, hread⟩ := h'.found
  rw [steps_eq_of_read hread] at hroom
  have hloc := refer_advanced (k := 0) hrefer (Nat.le_succ (n + 3)) (by simpa using hroom)
  simp only [State.advanced_zero] at hloc
  rw [edit.eval_of hval hloc]
  exact edit.change_of_read hread h'.kept

end Expr.HoldsText

/-- A string is changed in the same way through a name that stands for its location. -/
theorem TextEdit.eval_of_name
    (hn : n + 3 ≤ m.limits.maxNesting) (hread : r.read s = .ok (.text x) t) (edit : TextEdit) :
    eval m enter n (edit.of (.name p name)) ((s.declaring [(name, r)]).advanced k) =
      Ending.mapState (fun t => (t.declaring [(name, r)]).advanced k) (edit.change r t) := by
  have hapart := apart_declaring [(name, r)] k
  have hlookup : ∀ w : State, ((w.declaring [(name, r)]).advanced k).lookup? name = some r :=
    fun w => State.lookup?_declaring w name r
  have hval : eval m enter (n + 3) (.name p name) ((s.declaring [(name, r)]).advanced k) =
      .ok (.text x) ((t.declaring [(name, r)]).advanced k) := by
    have hcommutes := (Commutes.store hapart).readPlace r.place s
    rw [show readPlace r.place s = .ok (.text x) t from hread] at hcommutes
    rw [eval_name hn (hlookup s)]
    exact hcommutes
  rw [edit.eval_of hval (refer_name hn (hlookup t))]
  exact edit.commutes_change hapart r t

/-! ### Statements -/

/-- The declaration binds a reference to an expression: `T& name = e`. -/
structure Declarator.Aliases (d : Declarator) (e : Expr) : Prop where
  isReference : d.type.isReference = true
  single : d.extent = .single
  initializer : d.initializer = some e

section Statements

variable {f : State → State}

theorem tick_of_le (hroom : s.steps + 1 ≤ limits.maxSteps) :
    tick limits s = .ok () (s.advanced 1) := by
  rw [tick, charge_apply, if_pos Int.one_pos, if_neg (Int.not_lt.mpr hroom)]
  rfl

theorem exec_of_le (hroom : s.steps + 1 ≤ m.limits.maxSteps) (stmt : Stmt) :
    exec m (level + 1) n stmt s =
      located stmt.position
      (perform m (exec m level) (atMost level) (n + 2) stmt (s.advanced 1)) := by
  rw [exec, ← locating_apply]
  exact bind_of_ok (tick_of_le hroom)

theorem exec_evaluate_of_le (hroom : s.steps + 1 ≤ m.limits.maxSteps) (p : Position) (e : Expr) :
    exec m (level + 1) n (.evaluate p e) s =
      located p ((discard (eval m (invoke m (exec m level)) (n + 3) e) : Run Unit)
      (s.advanced 1)) :=
  exec_of_le hroom (.evaluate p e)

/-- A reference is bound to the location that its initializer denotes. -/
theorem exec_declare_of_le {d : Declarator} (hd : d.Aliases e)
    (hroom : s.steps + 1 ≤ m.limits.maxSteps)
    (hrefer : refer m (invoke m (exec m level)) (n + 4) e (s.advanced 1) = .ok r t) :
    exec m (level + 1) n (.declare d) s = .ok () (t.declaring [(d.name, r)]) := by
  have hdenotes : e.mayDenote = true := by
    cases e with
    | name | index | member => rfl
    | _ =>
      rw [refer_step] at hrefer
      cases eq_ok_of_checked hrefer
  have hloc : declaredLocation m (invoke m (exec m level)) (n + 3) d (s.advanced 1) = .ok r t := by
    rw [declaredLocation, hd.single, hd.initializer]
    dsimp only
    rw [if_pos hd.isReference, bindReference, bindWith, if_pos hdenotes]
    exact hrefer
  rw [exec_of_le hroom]
  have hdecl : declareVariable m (invoke m (exec m level)) (n + 3) d (s.advanced 1) =
      .ok () (t.declaring [(d.name, r)]) := (bind_of_ok hloc).trans (declareName_apply d.name r t)
  rw [perform.eq_def]
  exact congrArg (located _) hdecl

theorem discard_mapState {c c' : Run α} (h : c s = Ending.mapState f (c' t)) :
    (discard c : Run Unit) s = Ending.mapState f ((discard c' : Run Unit) t) := by
  show EStateM.map _ c s = Ending.mapState f (EStateM.map _ c' t)
  rw [EStateM.map, EStateM.map, h]
  cases c' t <;> rfl

theorem State.steps_declaring (s : State) (bound : List (String × Reference)) :
    (s.declaring bound).steps = s.steps := by
  unfold State.declaring
  split <;> rfl

theorem State.declaring_advanced (s : State) (bound : List (String × Reference)) (k : Nat) :
    (s.advanced k).declaring bound = (s.declaring bound).advanced k := by
  unfold State.declaring
  cases hframes : s.frames <;> simp [State.advanced, hframes]

/-- A change that an expression makes at a location is also made through a name for that
location. -/
theorem exec_edit_of_name {edit : TextEdit} {w : State}
    (hedit : eval m (invoke m (exec m level)) (n + 3) (edit.of e) (s.advanced 1) = edit.change r u)
    (hread : r.read w = .ok (.text x) u) (hn : n + 6 ≤ m.limits.maxNesting)
    (hroom : s.steps + 1 ≤ m.limits.maxSteps) (hroom' : w.steps + k + 1 ≤ m.limits.maxSteps)
    (name : String) (p o : Position) :
    exec m (level + 1) n (.evaluate p (edit.of (.name o name)))
    ((w.declaring [(name, r)]).advanced k) =
      Ending.mapState (fun t => (t.declaring [(name, r)]).advanced (k + 1))
        (exec m (level + 1) n (.evaluate p (edit.of e)) s) := by
  have hsteps : ((w.declaring [(name, r)]).advanced k).steps + 1 ≤ m.limits.maxSteps := by
    rw [State.advanced, State.steps_declaring]
    exact hroom'
  rw [exec_evaluate_of_le hsteps, exec_evaluate_of_le hroom, State.advanced_advanced,
    ← located_mapState]
  refine congrArg (located p) (discard_mapState ?_)
  rw [hedit]
  exact edit.eval_of_name hn hread

end Statements

/-- **A change in place, written with a reference.**  The operand of the change is evaluated exactly
twice: the statement does what evaluating the operand, binding a reference to it and making the
change through the reference do, with the same error if there is one.  If the second evaluation
finds the location of the first one and changes nothing, then binding the reference and making the
change do the same. -/
theorem exec_edit_as_reference {m : Machine} {level n : Nat} {e : Expr} {s s₁ s₂ : State}
    {r r' : Reference}
    {x y : CodeText} {d : Declarator} (hd : d.Aliases e)
    (hfirst : e.HoldsText m (invoke m (exec m level)) (n + 7) (s.advanced 1) r x s₁)
    (hsecond : e.HoldsText m (invoke m (exec m level)) (n + 7) s₁ r' y s₂)
    (hroom : s₂.steps + 2 ≤ m.limits.maxSteps) (edit : TextEdit) (p q o : Position) :
    runAll (exec m (level + 1)) n
    [.evaluate q e, .declare d, .evaluate p (edit.of (.name o d.name))] s =
      Ending.mapState (fun t => (t.declaring [(d.name, r')]).advanced 2)
        (exec m (level + 1) n (.evaluate p (edit.of e)) s) ∧
    (r' = r → s₂ = s₁ →
      runAll (exec m (level + 1)) n [.declare d, .evaluate p (edit.of (.name o d.name))] s =
        Ending.mapState (fun t => (t.declaring [(d.name, r)]).advanced 1)
          (exec m (level + 1) n (.evaluate p (edit.of e)) s)) := by
  have hsteps₁ := hfirst.steps_le
  have hsteps₂ := hsecond.steps_le
  have hticked : s.steps + 1 ≤ m.limits.maxSteps := by
    simp only [State.advanced] at hsteps₁
    omega
  have hedit := hfirst.eval_edit hsecond (n := n + 3) (by omega) edit
  obtain ⟨u₁, hrefer₁, hread₁⟩ := hfirst.found
  obtain ⟨u₂, hrefer₂, hread₂⟩ := hsecond.found
  have heq₁ := Expr.HoldsText.steps_eq_of_read hread₁
  have heq₂ := Expr.HoldsText.steps_eq_of_read hread₂
  have hn : n + 6 ≤ m.limits.maxNesting := Nat.le_of_succ_le (le_of_refer hrefer₁)
  -- nothing is left to do behind the last statement
  have hlast : ∀ c : Run Unit, (c >>= fun _ => runAll (exec m (level + 1)) n []) = c :=
    fun c => bind_pure_unit
  constructor
  · -- the operand for its value, then for its location
    have hval : exec m (level + 1) n (.evaluate q e) s = .ok () s₁ := by
      have hlevel : n + 3 < n + 7 := by omega
      rw [exec_evaluate_of_le hticked]
      show located q (EStateM.map _ _ _) = _
      rw [EStateM.map, hfirst.eval_eq hlevel (by omega)]
      rfl
    have hbd : exec m (level + 1) n (.declare d) s₁ =
        .ok () ((u₂.declaring [(d.name, r')]).advanced 1) := by
      rw [← State.declaring_advanced]
      exact exec_declare_of_le hd (by omega) (refer_advanced hrefer₂ (by omega) (by omega))
    refine (bind_of_ok hval).trans ((bind_of_ok hbd).trans ((congrFun (hlast _) _).trans ?_))
    exact exec_edit_of_name hedit hread₂ hn hticked (by omega) d.name p o
  -- the second look-up has found the same, so the first one can be spared
  · intro hr hs
    subst hr hs
    have hbd : exec m (level + 1) n (.declare d) s =
        .ok () ((u₁.declaring [(d.name, r')]).advanced 0) := by
      rw [State.advanced_zero]
      exact exec_declare_of_le hd hticked
        (by simpa using refer_advanced (k := 0) hrefer₁ (by omega) (by omega))
    refine (bind_of_ok hbd).trans ((congrFun (hlast _) _).trans ?_)
    exact exec_edit_of_name hedit hread₁ hn hticked (by omega) d.name p o

/-- The subscript of the operand counts.  The change is made to the second string and counts twice;
made through a reference it is made to the first one and counts once. -/
theorem exec_edit_as_reference_counting :
    let pos : Position := ⟨1, 1⟩
    let string : TypeExpr := .of .string []
    let strings : TypeExpr := .of .vector [string]
    let e : Expr := .index pos (.name pos "v") (.step pos .increment (.name pos "i"))
    let d : Declarator := ⟨pos, { string with isReference := true }, "r", some e, .single⟩
    let edit : TextEdit := .append pos pos pos 'x' "'x'"
    let m : Machine := ⟨{}, ⟨100, 10⟩⟩
    let enter : Enter := invoke m (exec m 5)
    let word (cs : List Char) : CodeText := cs.map CodePoint.ofChar
    let state (steps i : Int) : State := {
      heap := { objects := #[.vector (some string) #[.text (word ['a']), .text (word ['b'])]] }
      cells := #[⟨.vector 0, strings⟩, ⟨.int i, .of .int []⟩]
      globals := [("v", ⟨.variable 0, some strings⟩), ("i", ⟨.variable 1, some (.of .int [])⟩)]
      steps }
    let slot (i : Int) : Reference := ⟨.vectorSlot 0 (.int i), some string⟩
    let words (r : Ending Unit) : List (Option CodeText) :=
      (r.state.heap.vectorAt 0).2.toList.map Value.asText?
    let count (r : Ending Unit) : Option Int :=
      r.state.cells[1]?.bind fun c => match c.value with | .int n => some n | _ => none
    let changed : Ending Unit := exec m 6 0 (.evaluate pos (edit.of e)) (state 0 0)
    let aliased : Ending Unit :=
      runAll (exec m 6) 0 [.declare d, .evaluate pos (edit.of (.name pos "r"))] (state 0 0)
    d.Aliases e ∧ e.HoldsText m enter 7 (state 1 0) (slot 0) (word ['a']) (state 1 1) ∧
      e.HoldsText m enter 7 (state 1 1) (slot 1) (word ['b']) (state 1 2) ∧
      runAll (exec m 6) 0 [.evaluate pos e, .declare d, .evaluate pos (edit.of (.name pos "r"))]
      (state 0 0) =
        Ending.mapState (fun t => (t.declaring [("r", slot 1)]).advanced 2) changed ∧
      (words changed = [some (word ['a']), some (word ['b', 'x'])] ∧ count changed = some 2) ∧
      words aliased = [some (word ['a', 'x']), some (word ['b'])] ∧ count aliased = some 1 := by
  intro pos string strings e d edit m enter word state slot words count changed aliased
  have hd : d.Aliases e := ⟨rfl, rfl, rfl⟩
  have hfirst : e.HoldsText m enter 7 (state 1 0) (slot 0) (word ['a']) (state 1 1) :=
    ⟨⟨state 1 1, rfl, rfl⟩, rfl, nofun⟩
  have hsecond : e.HoldsText m enter 7 (state 1 1) (slot 1) (word ['b']) (state 1 2) :=
    ⟨⟨state 1 2, rfl, rfl⟩, rfl, nofun⟩
  have hroom : (state 1 2).steps + 2 ≤ m.limits.maxSteps := by decide
  have htwice :=
    (exec_edit_as_reference (s := state 0 0) hd hfirst hsecond hroom edit pos pos pos).1
  exact ⟨hd, hfirst, hsecond, htwice, by decide +kernel⟩

end SmallCpp
