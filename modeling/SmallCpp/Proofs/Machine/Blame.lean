import SmallCpp.Proofs.Machine.Containment

/-!
# The statement that an error blames

An error is raised without a position.  On its way out it passes the statements that were in
progress: the first one, which is the innermost, records its position, and the others leave it as it
is.  So the position of an error is read off the statements in progress.

Which statements are in progress is said of computations.  A computation that is put together from
others executes the statements that its parts execute, as far as it gets to these parts; a statement
that is executed counts its step and then does what it has to, and an error then ends everything
around it. A declaration of several variables is one statement: its declarators have positions, but
none of them is executed as a statement.

## Main results

* `error_blames_innermost` — **an error is reported at the innermost statement in progress.**
-/

namespace SmallCpp

/-! ### Statements that are executed -/

/-- A statement that is executed in a state, with a number of evaluations in progress. -/
structure Execution where
  nesting : Nat
  stmt : Stmt
  start : State

/-- A computation, started in a state, comes to execute a statement. -/
inductive Executes (run : RunStmt) (x : Execution) : {α : Type} → Run α → State → Prop
  | now : Executes run x (run x.nesting x.stmt) x.start
  | first {α β : Type} {c : Run α} {f : α → Run β} {s : State} (h : Executes run x c s) :
      Executes run x (c >>= f) s
  /-- The first part gives a value, and the second part executes it. -/
  | second {α β : Type} {c : Run α} {f : α → Run β} {s t : State} {a : α} (hc : c s = .ok a t)
      (h : Executes run x (f a) t) : Executes run x (c >>= f) s
  | inScope {c : Run Unit} {s : State} (h : Executes run x c { s with frames := [] :: s.frames }) :
      Executes run x (inScope c) s
  | iterate {c : Run Unit} {s : State} (h : Executes run x c s) : Executes run x (iterate c) s
  /-- It is executed in the body of a function. -/
  | call {c : Run Unit} {frame : Frame} {s : State}
      (h : Executes run x c { s with frames := [frame], depth := s.depth + 1 }) :
      Executes run x (returning (calling frame c)) s
  /-- It is executed in the initialization of a program. -/
  | untilReturn {c : Run Unit} {hasMain : Bool} {s : State} (h : Executes run x c s) :
      Executes run x (untilReturn hasMain c) s

section

variable {run : RunStmt} {x : Execution} {α β : Type} {c : Run α} {s t : State} {e : RuntimeError}
  {p : Position}

/-- **A blamed error of a statement is the error of what executes it**: scopes and calls restore the
names, and only jumps are caught. -/
theorem Executes.passes_on (h : Executes run x c s)
    (hx : run x.nesting x.stmt x.start = .error (.failed e (some p)) t) :
    ∃ u, c s = .error (.failed e (some p)) u := by
  induction h with
  | now => exact ⟨t, hx⟩
  | first _ ih =>
    obtain ⟨u, hu⟩ := ih
    exact ⟨u, bind_of_error hu⟩
  | second hc _ ih =>
    obtain ⟨u, hu⟩ := ih
    exact ⟨u, (bind_of_ok hc).trans hu⟩
  | inScope _ ih =>
    obtain ⟨u, hu⟩ := ih
    exact ⟨_, by rw [inScope_apply, hu, restored]⟩
  | iterate _ ih =>
    obtain ⟨u, hu⟩ := ih
    exact ⟨u, by rw [SmallCpp.iterate, hu]⟩
  | call _ ih =>
    obtain ⟨u, hu⟩ := ih
    exact ⟨_, by rw [returning, calling_apply, hu, restored]⟩
  | untilReturn _ ih =>
    obtain ⟨u, hu⟩ := ih
    exact ⟨u, by rw [SmallCpp.untilReturn, hu]⟩

/-! ### Where blamed errors come from -/

/-- A blamed error of the computation is that of a statement which it executes. -/
def Traced (run : RunStmt) (c : Run α) : Prop :=
  ∀ s t e p, c s = .error (.failed e (some p)) t →
    ∃ x, Executes run x c s ∧ ∃ u, run x.nesting x.stmt x.start = .error (.failed e (some p)) u

/-- The computation blames no statement for its errors. -/
def Blameless (c : Run α) : Prop :=
  ∀ s t e p, c s ≠ .error (.failed e (some p)) t

theorem Blameless.traced (h : Blameless c) : Traced run c :=
  fun s t e p hc => absurd hc (h s t e p)

theorem traced_of_ok (h : ∀ s, ∃ a t, c s = .ok a t) : Traced run c := by
  intro s t e p hc
  obtain ⟨a, u, heq⟩ := h s
  rw [heq] at hc
  cases hc

theorem traced_throw (stop : Stop) (h : ∀ e p, stop ≠ .failed e p) :
    Traced run (throw stop : Run α) :=
  fun _ _ e p hc => absurd (EStateM.Result.error.inj hc).1 (h e (some p))

theorem blameless_raise (e : RuntimeError) : Blameless (raise e : Run α) := by
  intro s t e' p h
  have hstop : (if e.isWritable then .failed e none else .fault .tooManyDigits : Stop) =
      .failed e' (some p) := (EStateM.Result.error.inj h).1
  split at hstop
  · cases hstop
  · cases hstop

theorem blameless_onHeap (op : HeapM α) : Blameless (onHeap op) := by
  intro s t e p h
  rw [onHeap] at h
  dsimp only at h
  split at h
  · cases h
  · next failure heap _ =>
    have hstop : failure.stop = .failed e (some p) := (EStateM.Result.error.inj h).1
    cases failure <;> cases hstop

theorem blameless_charge (limits : Limits) (n : Int) : Blameless (charge limits n) := by
  intro s t e p h
  rw [charge_apply] at h
  split at h
  · split at h
    · exact blameless_raise _ _ _ _ _ h
    · cases h
  · cases h

/-- What a statement does is put together from operations that blame no statement. -/
theorem compatibleBody_traced (m : Machine) (run : RunStmt) :
    CompatibleBody m fun c _ => Traced run c where
  pure _ := traced_of_ok fun _ => ⟨_, _, rfl⟩
  after {_ _ c _ f _} hc hf := by
    intro s t e p h
    cases hcs : c s with
    | ok a u =>
      rw [bind_of_ok hcs] at h
      obtain ⟨x, hx, hfails⟩ := hf a s u hcs u t e p h
      exact ⟨x, .second hcs hx, hfails⟩
    | error stop u =>
      rw [bind_of_error hcs] at h
      cases h
      obtain ⟨x, hx, hfails⟩ := hc _ _ _ _ hcs
      exact ⟨x, .first hx, hfails⟩
  raise e := (blameless_raise e).traced
  tooDeep := traced_throw .tooDeep nofun
  charge n := (blameless_charge m.limits n).traced
  onHeap op := (blameless_onHeap op).traced
  look f hc := traced_of_ok fun s => ⟨_, _, hc s⟩
  lookup _ := traced_of_ok fun s => ⟨_, _, rfl⟩
  setCells _ := traced_of_ok fun _ => ⟨_, _, rfl⟩
  newVariable _ _ := traced_of_ok fun _ => ⟨_, _, rfl⟩
  throw stop hstop := traced_throw stop hstop
  declareName _ _ := traced_of_ok fun _ => ⟨_, _, rfl⟩
  pull := by
    intro s t e p h
    obtain ⟨heap, cells, globals, frames, depth, steps, input, output⟩ := s
    cases input <;> cases h
  emit _ := traced_of_ok fun _ => ⟨_, _, rfl⟩
  emitLineEnd := traced_of_ok fun _ => ⟨_, _, rfl⟩
  callsInProgress := traced_of_ok fun _ => ⟨_, _, rfl⟩
  inScope {c _} hc := by
    intro s t e p h
    rw [inScope_apply] at h
    cases hcs : c { s with frames := [] :: s.frames } with
    | ok a u =>
      rw [hcs] at h
      cases h
    | error stop u =>
      rw [hcs] at h
      cases h
      obtain ⟨x, hx, hfails⟩ := hc _ _ _ _ hcs
      exact ⟨x, .inScope hx, hfails⟩
  iterate {c _} hc := by
    intro s t e p h
    rw [iterate] at h
    split at h
    · cases h
    · cases h
    · cases h
    · next hcs =>
      cases h
      obtain ⟨x, hx, hfails⟩ := hc _ _ _ _ hcs
      exact ⟨x, .iterate hx, hfails⟩
  call {c _} frame hc := by
    intro s t e p h
    rw [returning, calling_apply] at h
    cases hcs : c { s with frames := [frame], depth := s.depth + 1 } with
    | ok a u =>
      rw [hcs] at h
      cases h
    -- an error passes through a call as it is, a jump becomes a new error without a place
    | error stop u =>
      rw [hcs, restored] at h
      cases stop with
      | failed e' p' =>
        cases h
        obtain ⟨x, hx, hfails⟩ := hc _ _ _ _ hcs
        exact ⟨x, .call hx, hfails⟩
      | broke | continued => exact absurd h (blameless_raise _ _ _ _ _)
      | fault | tooDeep | returned | exhausted => cases h
  untilReturn {c _} hasMain hc := by
    intro s t e p h
    rw [untilReturn] at h
    split at h
    · cases h
    · split at h
      · exact absurd h (blameless_raise _ _ _ _ _)
      · cases h
    · next hcs =>
      cases h
      obtain ⟨x, hx, hfails⟩ := hc _ _ _ _ hcs
      exact ⟨x, .untilReturn hx, hfails⟩

theorem traced_runs (run : RunStmt) : CompatibleBody.RunsAt (fun c _ => Traced run c) Eq run run :=
  fun n _ _ stmt s _ _ _ h => ⟨⟨n, stmt, s⟩, .now, _, h⟩

/-- **What a statement does is traced.** -/
theorem traced_perform (m : Machine) (run : RunStmt) (bound n : Nat) (stmt : Stmt) :
    Traced run (perform m run (atMost bound) n stmt) :=
  have h := compatibleBody_traced m run
  h.perform h.nests_eq (traced_runs run) bound rfl stmt

/-- **What a program does is traced.** -/
theorem traced_runMain (m : Machine) (run : RunStmt) : Traced run (runMain m run) :=
  (compatibleBody_traced m run).runMain (traced_runs run)

end

/-! ### Statements in progress -/

/-- A statement in progress: its step is counted, and it does what it has to. -/
structure Visit where
  level : Nat
  nesting : Nat
  stmt : Stmt
  start : State

namespace Visit

def body (m : Machine) (v : Visit) : Run Unit :=
  perform m (exec m v.level) (atMost v.level) (v.nesting + 2) v.stmt

/-- How the statement ends, with its own position in an error that has none. -/
def ending (m : Machine) (v : Visit) : Ending Unit :=
  located v.stmt.position (v.body m v.start)

end Visit

/-- A computation that executes statements at the given level, started in a state, makes the
visit. -/
def Opens (m : Machine) (level : Nat) {α : Type} (c : Run α) (s : State) (v : Visit) : Prop :=
  v.level + 1 = level ∧ ∃ t, Executes (exec m level) ⟨v.nesting, v.stmt, t⟩ c s ∧
    tick m.limits t = .ok () v.start

/-- The statements that are in progress when a computation fails with an error, outermost first: the
innermost one makes no visit that fails. -/
inductive InProgress (m : Machine) : {α : Type} → Nat → Run α → State → List Visit → Prop
  | nothing {α : Type} {level : Nat} {c : Run α} {s : State}
      (h : ∀ v, Opens m level c s v → ∀ e p t, v.body m v.start ≠ .error (.failed e p) t) :
      InProgress m level c s []
  /-- A statement is in progress, and others inside it. -/
  | inside {α : Type} {level : Nat} {c : Run α} {s : State} {v : Visit} {visits : List Visit}
      {e : RuntimeError} {p : Option Position} {t : State} (hopens : Opens m level c s v)
      (hfails : v.body m v.start = .error (.failed e p) t)
      (h : InProgress m v.level (v.body m) v.start visits) : InProgress m level c s (v :: visits)

section

variable {m : Machine} {level : Nat} {α : Type} {c : Run α} {s t : State} {v : Visit}
  {visits : List Visit} {e : RuntimeError} {p : Option Position}

theorem exec_of_tick {u : State} (h : tick m.limits u = .ok () v.start) :
    exec m (v.level + 1) v.nesting v.stmt u = v.ending m := by
  rw [exec, bind_of_ok h, locating_apply]
  rfl

theorem Visit.ending_of_failed (h : v.body m v.start = .error (.failed e p) t) :
    v.ending m = .error (.failed e (some (p.getD v.stmt.position))) t := by
  rw [Visit.ending, h]
  cases p <;> rfl

/-- The error of a visit is the error of the computation that makes it. -/
theorem Opens.passes_on (h : Opens m level c s v)
    (hfails : v.body m v.start = .error (.failed e p) t) :
    ∃ u, c s = .error (.failed e (some (p.getD v.stmt.position))) u := by
  obtain ⟨rfl, u, hexecutes, htick⟩ := h
  exact hexecutes.passes_on ((exec_of_tick htick).trans (Visit.ending_of_failed hfails))

/-- A blamed error comes from a visit: the step of a statement is not part of its visit, and its
error blames nothing. -/
theorem Traced.exists_opens (hc : Traced (exec m level) c) {position : Position}
    (h : c s = .error (.failed e (some position)) t) :
    ∃ v p u, Opens m level c s v ∧ v.body m v.start = .error (.failed e p) u := by
  obtain ⟨x, hexecutes, w, hfails⟩ := hc _ _ _ _ h
  cases level with
  | zero => cases hfails
  | succ level =>
    cases htick : tick m.limits x.start with
    | error stop u =>
      rw [exec, bind_of_error htick] at hfails
      cases hfails
      exact absurd htick (blameless_charge m.limits 1 _ _ _ _)
    | ok _ u =>
      let v : Visit := ⟨level, x.nesting, x.stmt, u⟩
      have hending : v.ending m = .error (.failed e (some position)) w :=
        (exec_of_tick (v := v) htick).symm.trans hfails
      have hopens : Opens m (level + 1) c s v := ⟨rfl, x.start, hexecutes, htick⟩
      cases hbody : v.body m v.start with
      | ok _ y =>
        rw [Visit.ending, hbody] at hending
        cases hending
      | error stop y =>
        rw [Visit.ending, hbody] at hending
        cases stop with
        | failed e' p' =>
          refine ⟨v, p', y, hopens, ?_⟩
          cases p' with
          | none => cases hending; exact hbody
          | some _ => cases hending; exact hbody
        | _ => cases hending

/-- An error that blames nothing was raised with no statement in progress. -/
theorem inProgress_of_unblamed (h : c s = .error (.failed e none) t) :
    InProgress m level c s [] := by
  refine .nothing fun v hopens e' p' t' hfails => ?_
  obtain ⟨u, hu⟩ := hopens.passes_on hfails
  rw [h] at hu
  cases hu

variable (m level c s) in
/-- There are always statements in progress, perhaps none: by induction on the level. -/
theorem exists_inProgress : ∃ visits, InProgress m level c s visits := by
  induction level generalizing α c s with
  | zero => exact ⟨[], .nothing fun v hopens => nomatch hopens.1⟩
  | succ level ih =>
    by_cases hfails : ∃ v e p t, Opens m (level + 1) c s v ∧
      v.body m v.start = .error (.failed e p) t
    · obtain ⟨v, e, p, t, hopens, hbody⟩ := hfails
      obtain rfl : v.level = level := Nat.succ.inj hopens.1
      obtain ⟨visits, hvisits⟩ := ih (v.body m) v.start
      exact ⟨v :: visits, .inside hopens hbody hvisits⟩
    · refine ⟨[], .nothing fun v hopens e p t hbody => hfails ?_⟩
      exact ⟨v, e, p, t, hopens, hbody⟩

/-- **The position of an error is that of the innermost statement in progress**, and every statement
in progress ends with this error.  The induction is on the statements in progress: what the
outermost one does is traced as the whole computation is. -/
theorem InProgress.position_eq (h : InProgress m level c s visits) (hc : Traced (exec m level) c)
    (hfails : c s = .error (.failed e p) t) :
    p = visits.getLast?.map (·.stmt.position) ∧
      ∀ v ∈ visits, ∃ u, v.ending m = .error (.failed e p) u := by
  induction h generalizing e p t with
  | nothing hnone =>
    cases p with
    | none => exact ⟨rfl, by simp⟩
    | some position =>
      obtain ⟨v, p', u, hopens, hbody⟩ := hc.exists_opens hfails
      exact absurd hbody (hnone v hopens _ _ _)
  | @inside α level c s v visits e' p' u hopens hbody _ ih =>
    obtain ⟨w, hw⟩ := hopens.passes_on hbody
    rw [hfails] at hw
    cases hw
    obtain ⟨hp', hvisits⟩ :=
      ih (traced_perform m (exec m v.level) v.level (v.nesting + 2) v.stmt) hbody
    have hlast : (v :: visits).getLast?.map (·.stmt.position) = some (p'.getD v.stmt.position) := by
      rw [List.getLast?_cons, hp']
      cases visits.getLast? <;> rfl
    refine ⟨hlast.symm, List.forall_mem_cons.mpr ⟨⟨u, Visit.ending_of_failed hbody⟩, ?_⟩⟩
    intro x hx
    -- A statement inside has recorded its position, so the outer one leaves the error alone.
    obtain ⟨y, hy⟩ := hvisits x hx
    have hsome : some (p'.getD v.stmt.position) = p' := by
      cases visits with
      | nil => cases hx
      | cons a visits =>
        rw [hp', List.getLast?_cons]
        rfl
    exact ⟨y, by rw [hsome, hy]⟩

theorem InProgress.eq_nil (h : InProgress m level c s visits)
    (hc : ∀ e p u, c s ≠ .error (.failed e p) u) : visits = [] := by
  cases h with
  | nothing => rfl
  | inside hopens hbody =>
    obtain ⟨u, hu⟩ := hopens.passes_on hbody
    exact absurd hu (hc _ _ _)

end

/-! ### Reported errors -/

/-- The error stands for a fault, or for too deep a nesting of evaluations. -/
def RuntimeError.isConverted : RuntimeError → Bool
  | stray _ | nestingBudget => true
  | _ => false

/-- What an error of a run was before it was reported: it was raised, or a jump got out. -/
theorem stop_of_isConverted {file : String} {lines : Array String} {stop : Stop} {error : Error}
    {e : RuntimeError} (h : stop.failure file lines = .error error)
    (hcause : error.cause = .runtime e)
    (hraised : e.isConverted = false) :
    (∃ position, stop = .failed e position) ∨
      (∀ e position, stop ≠ .failed e position) ∧ error = { cause := .runtime e } := by
  cases stop with
  | failed e' position =>
    cases h
    cases hcause
    exact .inl ⟨position, rfl⟩
  | broke | continued | returned =>
    cases h
    cases hcause
    exact .inr ⟨nofun, rfl⟩
  | tooDeep | exhausted =>
    cases h
    cases hcause
    cases hraised
  | fault f =>
    cases f with
    | unshownKey | outOfMemory => cases h
    | _ =>
      cases h
      cases hcause
      cases hraised

/-- **An error is reported at the innermost statement in progress**, with its line, or without a
place if no statement was in progress; and every statement in progress ends with what is then
reported.  This is so for every error but those that stand for a fault or for too deep a nesting. -/
theorem error_blames_innermost (p : Program) (input : List String) (limits : Limits)
    (lines : Array String) {error : Error} {e : RuntimeError}
    (h : (p.run input limits lines).result = .error (.error error))
    (hcause : error.cause = .runtime e)
    (hraised : e.isConverted = false) :
    let m : Machine := ⟨p.link, limits⟩
    let run := runMain m (exec m limits.level)
    (∃ visits, InProgress m limits.level run (.start limits input) visits) ∧
    ∀ visits, InProgress m limits.level run (.start limits input) visits →
      error.location = visits.getLast?.map (fun v => v.stmt.position.inFile p.file) ∧
      error.sourceLine = visits.getLast?.bind (fun v => Source.lineAt? lines v.stmt.position.line) ∧
      ∀ v ∈ visits, ∃ stop t, v.ending m = .error stop t ∧
      stop.failure p.file lines = .error error := by
  intro m run
  refine ⟨exists_inProgress m limits.level run (.start limits input), fun visits hvisits => ?_⟩
  obtain ⟨stop, t, hrun, hfail⟩ := exists_stop_of_run h
  rcases stop_of_isConverted hfail hcause hraised with ⟨position, rfl⟩ | ⟨hjump, rfl⟩
  · obtain ⟨rfl, hendings⟩ := hvisits.position_eq (traced_runMain m _) hrun
    refine ⟨?_, ?_, fun v hv => ?_⟩
    · cases hfail
      rw [Option.map_map]
      rfl
    · cases hfail
      rw [Option.bind_map]
      rfl
    · obtain ⟨u, hu⟩ := hendings v hv
      exact ⟨_, u, hu, hfail⟩
  · have hnone : ∀ e p u, run (.start limits input) ≠ .error (.failed e p) u := by
      intro e p u hfailed
      cases hrun.symm.trans hfailed
      exact hjump e p rfl
    rw [hvisits.eq_nil hnone]
    exact ⟨rfl, rfl, by simp⟩

/-- A name without a binding in a function that is called: the statement of the function is blamed,
not the one that calls it. -/
theorem error_blames_innermost_called :
    let inner : Stmt := .evaluate ⟨2, 3⟩ (.name ⟨2, 3⟩ "y")
    let outer : Stmt := .evaluate ⟨4, 1⟩ (.call ⟨4, 1⟩ (.name ⟨4, 1⟩ "f") [])
    let p : Program :=
      ⟨"demo", [.define ⟨⟨1, 1⟩, .of .void [], "f", [], []⟩ ⟨1, 10⟩ [inner], outer]⟩
    let lines := #["void f() \x7b", "  y;", "\x7d", "f();"]
    let m : Machine := ⟨p.link, ⟨10, 10⟩⟩
    let start : State := .start ⟨10, 10⟩ []
    ∃ error v w, (p.run [] ⟨10, 10⟩ lines).result = .error (.error error) ∧
      error.cause = .runtime (.unboundName "y") ∧
      (RuntimeError.unboundName "y").isConverted = false ∧
      InProgress m 11 (runMain m (exec m 11)) start [v, w] ∧ v.stmt = outer ∧ w.stmt = inner ∧
      error.location = some ⟨"demo", 2, 3⟩ ∧ error.sourceLine = some "  y;" := by
  intro inner outer p lines m start
  let error : Error := ⟨.runtime (.unboundName "y"), some ⟨"demo", 2, 3⟩, none, some "  y;"⟩
  let v : Visit := ⟨10, 12, outer, { start with steps := 1 }⟩
  let w : Visit := ⟨9, 21, inner, { start with steps := 2, frames := [[]], depth := 1 }⟩
  have hrun : (p.run [] ⟨10, 10⟩ lines).result = .error (.error error) := rfl
  have hv : Opens m 11 (runMain m (exec m 11)) start v :=
    ⟨rfl, start, .first (.untilReturn (.first .now)), rfl⟩
  have hbody : v.body m =
      discard (eval m (invoke m (exec m 10)) 15 (.call ⟨4, 1⟩ (.name ⟨4, 1⟩ "f") [])) :=
    rfl
  have hw : Opens m 10 (v.body m) v.start w := by
    refine ⟨rfl, { start with steps := 1, frames := [[]], depth := 1 }, ?_, rfl⟩
    rw [hbody, discard_eq_bind, eval_step]
    refine .first (.second rfl (.second rfl (.second rfl ?_)))
    exact .second rfl (.first (.call (.first .now)))
  have hprogress : InProgress m 11 (runMain m (exec m 11)) start [v, w] :=
    .inside hv rfl (.inside hw rfl (inProgress_of_unblamed rfl))
  obtain ⟨hloc, hline, -⟩ :=
    (error_blames_innermost p [] ⟨10, 10⟩ lines hrun rfl rfl).2 _ hprogress
  exact ⟨error, v, w, hrun, rfl, rfl, hprogress, rfl, rfl, hloc, hline⟩

/-- The declaration of `b` fails, and it has a position of its own, but it is part of a declaration
of two variables, which is the statement that is blamed. -/
theorem declarator_not_blamed :
    let z (column : Nat) : Expr := .name ⟨1, column⟩ "z"
    let zero : Stmt := .declare ⟨⟨1, 5⟩, .of .int [], "z", none, .single⟩
    let a : Declarator := ⟨⟨1, 12⟩, .of .int [], "a", some (z 16), .single⟩
    let b : Declarator :=
      ⟨⟨1, 19⟩, .of .int [], "b", some (.binary ⟨1, 23⟩ .div (z 23) (z 27)), .single⟩
    let p : Program := ⟨"demo", [zero, .declareAll ⟨1, 8⟩ [a, b]]⟩
    let m : Machine := ⟨p.link, ⟨10, 10⟩⟩
    let visited (stmt : Stmt) : Run Unit := perform m (exec m 10) (atMost 10) 14 stmt
    ∃ error s t u v, (p.run [] ⟨10, 10⟩ #[]).result = .error (.error error) ∧
      exec m 11 12 zero (.start ⟨10, 10⟩ []) = .ok () s ∧ tick m.limits s = .ok () t ∧
      visited (.declareAll ⟨1, 8⟩ [a]) t = .ok () u ∧
      visited (.declare b) u = .error (.failed .zeroDivision none) v ∧
      (Stmt.declare b).position = ⟨1, 19⟩ ∧ error.location = some ⟨"demo", 1, 8⟩ := by
  intro z zero a b p m visited
  let start : State := .start ⟨10, 10⟩ []
  let int : TypeExpr := .of .int []
  let s : State :=
    { start with
      cells := #[⟨.int 0, int⟩]
      globals := [("z", ⟨.variable 0, some int⟩)]
      steps := 1 }
  let t : State := { s with steps := 2 }
  let u : State :=
    { t with
      cells := #[⟨.int 0, int⟩, ⟨.int 0, int⟩]
      globals := [("z", ⟨.variable 0, some int⟩), ("a", ⟨.variable 1, some int⟩)] }
  let stop : Stop := .failed .zeroDivision (some ⟨1, 8⟩)
  let error : Error := ⟨.runtime .zeroDivision, some ⟨"demo", 1, 8⟩, none, none⟩
  have hzero : exec m 11 12 zero start = .ok () s := rfl
  have ha : visited (.declareAll ⟨1, 8⟩ [a]) t = .ok () u := rfl
  have hb : visited (.declare b) u = .error (.failed .zeroDivision none) u := rfl
  have hall : exec m 11 12 (.declareAll ⟨1, 8⟩ [a, b]) s = .error stop u := rfl
  have hbody : runAll (exec m 11) startNesting m.linked.init start = .error stop u :=
    (bind_of_ok hzero).trans (bind_of_error hall)
  have hinit : runInit m (exec m 11) start = .error stop u := by
    rw [runInit, untilReturn, hbody]
  have hrun : (p.run [] ⟨10, 10⟩ #[]).result = .error (.error error) := by
    have hfault : (⟨10, 10⟩ : Limits).fault? = none := rfl
    rw [run_of_no_fault hfault]
    exact congrArg (fun r => (reportOf "demo" #[] r).result) (bind_of_error hinit)
  exact ⟨error, s, t, u, u, hrun, hzero, rfl, ha, hb, rfl, rfl⟩

end SmallCpp
