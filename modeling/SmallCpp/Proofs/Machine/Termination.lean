import SmallCpp.Proofs.Machine.Steps

/-!
# The budget of steps ends every run

The machine executes statements with a bound on the recursion, which only serves to define it.  Here
the equations of the language are stated without any bound: a statement counts its step and then
does what it does with the statements inside it, and a loop is its first round followed by the
loop.  They have exactly one solution, and it is what the machine computes.  The reason is that each
statement and each round of a loop is reached with fewer steps left, and nothing gives steps back.

## Main results

* `Interprets.eq_execute` — **they have no other one.**
* `interpretation_well_founded` — **every run ends, under the budget of steps alone.**
-/

namespace SmallCpp

variable {l : Limits} {s t w : State} {k : Int} {round : Run Unit → Run Unit} {α : Type}
  {level : Nat}

/-! ### Guarded rounds -/

/-- From `k` steps on, a computation takes no step back. -/
def KeepsSteps {α : Type} (k : Int) (c : Run α) : Prop :=
  ∀ s, k ≤ s.steps → s.steps ≤ (stateAfter c s).steps

/-- From `k` steps on, a round of a loop takes no step back, and it depends on the rest of the loop
only in the states with fewer steps left. -/
def Guarded (l : Limits) (k : Int) (round : Run Unit → Run Unit) : Prop :=
  ∀ again again' s, k ≤ s.steps →
    (∀ w, l.left w < l.left s → w.steps ≤ (stateAfter again w).steps ∧ again' w = again w) →
    s.steps ≤ (stateAfter (round again) s).steps ∧ round again' s = round again s

theorem steps_lt_of_left_lt (h : l.left w < l.left s) : s.steps < w.steps := by
  rw [Limits.left, Limits.left] at h
  omega

/-- The rounds of a guarded loop: with more rounds than steps left, their number does not matter. -/
theorem atMost_eq_of_guarded (h : Guarded l k round) (j : Nat) :
    ∀ j' s, k ≤ s.steps → l.left s < j → l.left s < j' →
      s.steps ≤ (stateAfter (atMost j round) s).steps ∧ atMost j' round s = atMost j round s := by
  induction j with
  | zero => exact fun j' s _ hj => absurd hj (Nat.not_lt_zero _)
  | succ j ih =>
    intro j' s hk hj hj'
    obtain ⟨i, rfl⟩ : ∃ i, j' = i + 1 := ⟨j' - 1, by omega⟩
    refine h (atMost j round) (atMost i round) s hk fun w hw => ?_
    have hlt := steps_lt_of_left_lt hw
    exact ih i w (by omega) (by omega) (by omega)

/-- A loop without a bound: the budget leaves no more rounds than steps. -/
def untilDone (l : Limits) : RunLoop := fun round s =>
  atMost (l.left s + 1) round s

/-- A guarded loop is its first round followed by the loop. -/
theorem untilDone_eq (h : Guarded l k round) (hk : k ≤ s.steps) :
    untilDone l round s = round (untilDone l round) s := by
  have hrest : ∀ w, l.left w < l.left s → w.steps ≤ (stateAfter (atMost (l.left s) round) w).steps ∧
      untilDone l round w = atMost (l.left s) round w := by
    intro w hw
    have hlt := steps_lt_of_left_lt hw
    exact atMost_eq_of_guarded h _ _ w (by omega) hw (Nat.lt_succ_self _)
  exact (h (atMost (l.left s) round) (untilDone l round) s hk hrest).2.symm

/-! ### The equations of the language -/

/-- The equations of the language for ways to run statements and loops, without any bound on the
recursion. -/
structure Interprets (m : Machine) (run : RunStmt) (loop : RunLoop) : Prop where
  /-- A statement counts its step, and then does what it does. -/
  stmt : ∀ n stmt, run n stmt =
    (tick m.limits >>= fun _ => locating stmt.position (perform m run loop (n + 2) stmt))
  /-- A loop is its first round followed by the loop. -/
  loop : ∀ {k round s}, Guarded m.limits k round → k ≤ s.steps → loop round s = round (loop round) s

/-- A statement without a bound on the recursion. -/
def execute (m : Machine) : RunStmt := fun n stmt s =>
  exec m (m.limits.left s + 1) n stmt s

/-! ### Runs under one budget -/

section OneBudget

variable (lax : Prop) (m : Machine)

/-- The discipline of two runs under the same budget. -/
def sameBudget : Discipline m m :=
  budget lax m.similar (Int.le_refl m.limits.maxSteps) m.depth_eq

theorem allowed : m.linked.Every (sameBudget lax m).Allows (sameBudget lax m).Free :=
  m.linked.every_of_forall (fun _ => trivial) fun _ => trivial

variable {lax m}

theorem left_le_of_steps_le (h : s.steps ≤ t.steps) : l.left t ≤ l.left s := by
  rw [Limits.left, Limits.left]
  omega

theorem left_lt_of_tick (h : tick l s = .ok () t) : l.left t < l.left s := by
  obtain ⟨hone, hle⟩ := tick_eq_ok h
  rw [Limits.left, Limits.left]
  omega

theorem left_lt_of_past (h : (sameBudget lax m).Past s w) : m.limits.left w < m.limits.left s := by
  obtain ⟨t, u, hst, htick, huw⟩ := h
  calc m.limits.left w ≤ m.limits.left u := left_le_of_steps_le huw
    _ < m.limits.left t := left_lt_of_tick htick
    _ ≤ m.limits.left s := left_le_of_steps_le hst

theorem rel_congr {Q : State → α → Prop} {c d d' : Run α} (h : (sameBudget lax m).Rel s Q c d)
    (heq : d' s = d s) : (sameBudget lax m).Rel s Q c d' := by
  obtain ⟨hshadows, hQ⟩ := h
  refine ⟨⟨hshadows.steps_le, hshadows.exhausted, ?_, ?_, ?_⟩, hQ⟩
  · rw [heq]
    exact hshadows.same
  · rw [heq]
    exact hshadows.beyond
  · rw [heq]
    exact hshadows.equal

/-- In the lax form, computations that take no step back and do not differ are related. -/
theorem rel_of_eq {c d : Run α} (hsteps : s.steps ≤ (stateAfter c s).steps) (heq : d s = c s) :
    (sameBudget True m).Rel s anyway c d :=
  ⟨⟨hsteps, fun _ _ => trivial, fun _ => heq, fun h => absurd trivial h, fun _ => heq⟩,
    fun _ _ _ => trivial⟩

theorem runs_execute (h : m.limits.left s < level) :
    (sameBudget lax m).Runs s (exec m level) (execute m) := by
  refine ⟨trivial, fun n stmt t hstmt hst ht => ?_⟩
  have hleft := left_le_of_steps_le (l := m.limits) hst
  refine rel_congr
    ((Discipline.runs_exec (allowed lax m) level (m.limits.left t + 1) t ?_).rel n stmt t
    hstmt (Int.le_refl t.steps) ht) rfl
  exact ⟨by omega, Or.inr ⟨rfl, Nat.lt_succ_self _⟩⟩

theorem loops_untilDone {bound : Nat} (h : m.limits.left s < bound) :
    (sameBudget lax m).Loops s (atMost bound) (untilDone m.limits) := by
  intro round round' hround t hst ht
  have hleft := left_le_of_steps_le (l := m.limits) hst
  have hround' : (sameBudget lax m).Rounds t round round' := fun again again' u htu =>
    hround again again' u (Int.le_trans hst htu)
  refine rel_congr (Discipline.loops_atMost bound (m.limits.left t + 1) t ?_ round round' hround' t
    (Int.le_refl t.steps) ht) rfl
  exact ⟨by omega, Or.inr ⟨rfl, Nat.lt_succ_self _⟩⟩

theorem guarded_of_rounds {round' : Run Unit → Run Unit}
    (h : (sameBudget True m).Rounds s round round') :
    Guarded m.limits s.steps round' := by
  intro again again' t hst hrest
  have hsame := h again again t hst trivial fun w _ hpast _ =>
    rel_of_eq (hrest w (left_lt_of_past hpast)).1 rfl
  have hother := h again again' t hst trivial fun w _ hpast _ =>
    rel_of_eq (hrest w (left_lt_of_past hpast)).1 (hrest w (left_lt_of_past hpast)).2
  have heq : round' again t = round again t := hsame.1.equal rfl
  have heq' : round' again' t = round again t := hother.1.equal rfl
  refine ⟨?_, heq'.trans heq.symm⟩
  rw [stateAfter, heq]
  exact hsame.1.steps_le

end OneBudget

/-! ### Exactly one solution -/

variable {m : Machine}

/-- After its step, a statement does the same with and without a bound on the recursion. -/
theorem performs_execute {lax : Prop} (htick : tick m.limits s = .ok () t) (n : Nat) (stmt : Stmt) :
    (sameBudget lax m).Rel t anyway
      (locating stmt.position
      (perform m (exec m (m.limits.left s)) (atMost (m.limits.left s)) n stmt))
      (locating stmt.position (perform m (execute m) (untilDone m.limits) n stmt)) := by
  have hleft := left_lt_of_tick htick
  refine Discipline.locating _ _ (Discipline.perform (allowed lax m).functions (runs_execute hleft)
    (loops_untilDone hleft) n ?_ (Int.le_refl t.steps) trivial)
  exact stmt.every_of_forall (fun _ => trivial) fun _ => trivial

/-- **The equations of the language have a solution.** -/
theorem interprets_execute (m : Machine) : Interprets m (execute m) (untilDone m.limits) where
  stmt n stmt := by
    funext s
    have hrel : (sameBudget True m).Rel s anyway (exec m (m.limits.left s + 1) n stmt)
        (tick m.limits >>= fun _ =>
          locating stmt.position (perform m (execute m) (untilDone m.limits) (n + 2) stmt)) := by
      rw [exec]
      exact Evaluation.bind _ (Evaluation.charge _ 1 trivial) fun _ t htick _ _ _ =>
        performs_execute htick (n + 2) stmt
    exact (hrel.1.equal rfl).symm
  loop := untilDone_eq

namespace Interprets

variable {run : RunStmt} {loop : RunLoop}

theorem loops (h : Interprets m run loop) (bound : Nat) :
    ∀ s, m.limits.left s < bound → (sameBudget True m).Loops s (atMost bound) loop := by
  induction bound with
  | zero => exact fun s hs => absurd hs (Nat.not_lt_zero _)
  | succ bound ih =>
    intro s hs round round' hround t hst ht
    refine rel_congr (d := round' (loop round')) ?_ (h.loop (guarded_of_rounds hround) hst)
    refine hround (atMost bound round) (loop round') t hst ht fun w htw hpast hw => ?_
    have hw' : m.limits.left w < bound := by
      have hlt := left_lt_of_past hpast
      have hle := left_le_of_steps_le (l := m.limits) hst
      omega
    exact ih w hw' round round' (fun again again' u hwu =>
      hround again again' u (Int.le_trans hst (Int.le_trans htw hwu))) w (Int.le_refl w.steps) hw

theorem runs (h : Interprets m run loop) (level : Nat) :
    ∀ s, m.limits.left s < level → (sameBudget True m).Runs s (exec m level) run := by
  induction level with
  | zero => exact fun s hs => absurd hs (Nat.not_lt_zero _)
  | succ level ih =>
    intro s hs
    refine ⟨trivial, fun n stmt t hstmt hst ht => ?_⟩
    rw [exec, h.stmt]
    refine Evaluation.bind _ (Evaluation.charge _ 1 ht) fun _ u htick hu _ _ => ?_
    have hleft : m.limits.left u < level := by
      have hlt := left_lt_of_tick htick
      have hle := left_le_of_steps_le (l := m.limits) hst
      omega
    exact Discipline.locating _ _ (Discipline.perform (allowed True m).functions (ih u hleft)
      (h.loops level u hleft) (n + 2) hstmt (Int.le_refl u.steps) hu)

/-- **The equations of the language have no other solution.** -/
theorem eq_execute (h : Interprets m run loop) : run = execute m := by
  funext n stmt s
  have hstmt : stmt.Every (sameBudget True m).Allows (sameBudget True m).Free :=
    stmt.every_of_forall (fun _ => trivial) fun _ => trivial
  have hrel := h.runs (m.limits.left s + 1) s (Nat.lt_succ_self _) |>.rel n stmt s hstmt
    (Int.le_refl s.steps) trivial
  exact hrel.1.equal rfl

end Interprets

/-! ### Runs -/

/-- Every executed statement counts a step, however it ends. -/
theorem steps_lt_execute (m : Machine) (n : Nat) (stmt : Stmt) (s : State) :
    s.steps < (stateAfter (execute m n stmt) s).steps := by
  have hsteps : (stateAfter (tick m.limits) s).steps = s.steps + 1 := by
    rw [tick, stateAfter_charge, if_pos Int.one_pos]
  rw [stateAfter, execute, exec]
  cases htick : tick m.limits s with
  | error e t =>
    rw [stateAfter, htick] at hsteps
    rw [bind_of_error htick]
    exact Int.lt_of_lt_of_le (Int.lt_succ s.steps) (Int.le_of_eq hsteps.symm)
  | ok _ t =>
    rw [stateAfter, htick] at hsteps
    have hsteps' : t.steps = s.steps + 1 := hsteps
    have hrest : (sameBudget True m).Rel t anyway _ _ := performs_execute htick (n + 2) stmt
    have hle := hrest.1.steps_le
    rw [bind_of_ok htick]
    rw [stateAfter] at hle
    omega

theorem execute_not_exhausted (m : Machine) (n : Nat) (stmt : Stmt) (s t : State) :
    execute m n stmt s ≠ .error .exhausted t := by
  intro ht
  have hruns : (sameBudget False m).Runs s (exec m (m.limits.left s + 1)) (execute m) :=
    runs_execute (Nat.lt_succ_self _)
  have hrel := hruns.rel n stmt s (stmt.every_of_forall (fun _ => trivial) fun _ => trivial)
    (Int.le_refl s.steps) trivial
  exact hrel.1.exhausted t ht

/-- A run does not depend on the bound of the recursion, and does not run into it. -/
theorem runMain_execute (m : Machine) (h : m.limits.left s < level) :
    runMain m (exec m level) s = runMain m (execute m) s ∧
    ∀ t, runMain m (execute m) s ≠ .error .exhausted t := by
  have hrel : (sameBudget False m).Rel s anyway (runMain m (exec m level))
      (runMain m (execute m)) :=
    Discipline.runMain (allowed False m) (runs_execute h) trivial
  have heq : runMain m (execute m) s = runMain m (exec m level) s := hrel.1.equal rfl
  refine ⟨heq.symm, fun t ht => ?_⟩
  exact hrel.1.exhausted t (heq.symm.trans ht)

/-- The rounds of the loops of the language are guarded. -/
theorem guarded_rounds (l : Limits) {condition : Run Bool} {update body : Run Unit}
    (hc : KeepsSteps k condition) (hu : KeepsSteps k update) (hb : KeepsSteps k body) :
    Guarded l k (whileRound l condition body) ∧ Guarded l k (doRound l condition body) ∧
      Guarded l k (forRound l condition update body) := by
  let m : Machine := ⟨default, l⟩
  let s : State := { steps := k }
  have hthroughout : ∀ {α : Type} {c : Run α}, KeepsSteps k c →
      (sameBudget True m).Throughout s c c := fun h t hst _ => rel_of_eq (h t hst) rfl
  refine ⟨?_, ?_, ?_⟩
  · exact guarded_of_rounds (m := m) (s := s)
      (Discipline.rounds_while (hthroughout hc) (hthroughout hb))
  · exact guarded_of_rounds (m := m) (s := s)
      (Discipline.rounds_do (hthroughout hc) (hthroughout hb))
  · exact guarded_of_rounds (m := m) (s := s)
      (Discipline.rounds_for (hthroughout hc) (hthroughout hu) (hthroughout hb))

/-- **Every run ends under the budget of steps alone**, whatever the budget of nested calls.  The
rounds of all loops reach the rest of the loop with fewer steps left.  The equations of the
language, which know no bound, have exactly one solution; each statement counts a step in it, and
none ends for want of a bound.  The run of a program is the run under that solution. -/
theorem interpretation_well_founded (p : Program) (limits : Limits) :
    (∀ (k : Int) (condition : Run Bool) (update body : Run Unit), KeepsSteps k condition →
      KeepsSteps k update → KeepsSteps k body →
      Guarded limits k (whileRound limits condition body) ∧
      Guarded limits k (doRound limits condition body) ∧
        Guarded limits k (forRound limits condition update body)) ∧
    ∃ run loop, Interprets ⟨p.link, limits⟩ run loop ∧
      (∀ run' loop', Interprets ⟨p.link, limits⟩ run' loop' → run' = run) ∧
      (∀ n stmt s, s.steps < (stateAfter (run n stmt) s).steps ∧
      ∀ t, run n stmt s ≠ .error .exhausted t) ∧
      ∀ input lines, p.run input limits lines = p.runWith run input limits lines ∧
        ∀ t, runMain ⟨p.link, limits⟩ run (.start limits input) ≠ .error .exhausted t := by
  refine ⟨fun k condition update body => guarded_rounds limits, ?_⟩
  let m : Machine := ⟨p.link, limits⟩
  refine ⟨execute m, untilDone limits, interprets_execute m, fun _ _ h => h.eq_execute, ?_, ?_⟩
  · exact fun n stmt s => ⟨steps_lt_execute m n stmt s, execute_not_exhausted m n stmt s⟩
  · intro input lines
    have hlevel : limits.left (.start limits input) < limits.level := by
      rw [Limits.left, Limits.level, State.start, Int.sub_zero]
      exact Nat.lt_succ_self _
    obtain ⟨heq, hbd⟩ := runMain_execute m hlevel
    exact ⟨by rw [Program.run, Program.runWith, Program.runWith, heq], hbd⟩

end SmallCpp
