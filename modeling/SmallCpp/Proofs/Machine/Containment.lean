import SmallCpp.Proofs.Machine.Budget
import SmallCpp.Proofs.Machine.CompatibleRun
import SmallCpp.Proofs.Parse.Fault

/-!
# Jumps and faults are contained

A jump is caught where it belongs: an exit of a loop by the loop, a return by the call.  So the
evaluation of an expression never ends with a jump, whatever the bodies of functions do, and a loop
never ends with an exit of a loop.  What a run ends with is reported as the output or as one error,
with three exceptions: limits that cannot be set, a missing key that cannot be shown, and memory
that is used up.

## Main results

* `jumps_and_faults_contained` — **jumps never get out, and faults only in three cases.**
-/

namespace SmallCpp

variable {e : Stop} {c : Run Unit} {α : Type} {kind : Stop → Bool} {stmt : Stmt} {limits : Limits}

namespace Stop

def isJump : Stop → Bool
  | broke | continued | returned _ => true
  | _ => false

/-- The stop is the exit of a loop or of its iteration. -/
def isLoopExit : Stop → Bool
  | broke | continued => true
  | _ => false

theorem isLoopExit_of_not_isJump (h : e.isJump = false) : e.isLoopExit = false := by
  cases e <;> first | rfl | cases h

end Stop

/-! ### Computations that avoid stops -/

/-- The computation never ends with a stop of the given kind. -/
def Avoids {α : Type} (kind : Stop → Bool) (c : Run α) : Prop :=
  ∀ s e t, c s = .error e t → kind e = false

namespace Avoids

variable {β : Type}

theorem of_ok {c : Run α} {f : State → α} {g : State → State} (h : ∀ s, c s = .ok (f s) (g s)) :
    Avoids kind c := by
  intro s e t heq
  rw [h] at heq
  cases heq

theorem throw (h : kind e = false) : Avoids kind (throw e : Run α) := by
  intro s e' t heq
  cases heq
  exact h

theorem bind {c : Run α} {f : α → Run β} (hc : Avoids kind c)
    (hf : ∀ a s t, c s = .ok a t → Avoids kind (f a)) : Avoids kind (c >>= f) := by
  intro s e t heq
  cases hcs : c s with
  | ok a u =>
    rw [bind_of_ok hcs] at heq
    exact hf a s u hcs u e t heq
  | error e' u =>
    rw [bind_of_error hcs] at heq
    cases heq
    exact hc s e t hcs

theorem imp {c : Run α} (h : Avoids Stop.isJump c) (hkind : ∀ e : Stop, e.isJump = false →
    kind e = false) :
    Avoids kind c :=
  fun s e t heq => hkind e (h s e t heq)

theorem raise (e : RuntimeError) : Avoids Stop.isJump (raise e : Run α) := by
  refine .throw ?_
  split <;> rfl

theorem inScope (h : Avoids kind c) : Avoids kind (inScope c) := by
  intro s e t heq
  rw [inScope_apply] at heq
  cases hcs : c { s with frames := [] :: s.frames } with
  | ok a u =>
    rw [hcs] at heq
    cases heq
  | error e' u =>
    rw [hcs] at heq
    cases heq
    exact h _ e u hcs

theorem locating (position : Position) (hkind : ∀ e p, kind (.failed e p) = false)
    (h : Avoids kind c) : Avoids kind (locating position c) := by
  intro s e t heq
  rw [locating_apply, located.eq_def] at heq
  split at heq
  · cases heq
    exact hkind _ _
  · exact h s e t heq

/-- An iteration takes the exits of the body and passes other stops on. -/
theorem iterate (h : ∀ s e t, c s = .error e t → kind e = false ∨ e.isLoopExit = true) :
    Avoids kind (iterate c) := by
  intro s e t heq
  change iterated (c s) = .error e t at heq
  cases hcs : c s with
  | ok a u => rw [hcs] at heq; cases heq
  | error e' u =>
    rw [hcs] at heq
    cases e' with
    | broke | continued => cases heq
    | _ =>
      cases heq
      exact (h s _ _ hcs).resolve_right nofun

/-- A call takes the return of the body, and makes errors of the exits of loops. -/
theorem returning (c : Run Unit) : Avoids Stop.isJump (returning c) := by
  intro s e t heq
  change returnedFrom (c s) = .error e t at heq
  cases hcs : c s with
  | ok a u => rw [hcs] at heq; cases heq
  | error e' u =>
    rw [hcs] at heq
    cases e' with
    | returned v => cases heq
    | broke | continued => exact Avoids.raise _ u e t heq
    | failed | fault | tooDeep | exhausted => cases heq; rfl

end Avoids

/-! ### Expressions -/

theorem avoids_onHeap (op : HeapM α) : Avoids Stop.isJump (onHeap op) := by
  intro s e t heq
  rw [onHeap] at heq
  dsimp only at heq
  split at heq
  · cases heq
  · next failure _ _ =>
    cases heq
    cases failure <;> rfl

theorem avoids_charge (limits : Limits) (n : Int) : Avoids Stop.isJump (charge limits n) := by
  intro s e t heq
  rw [charge_apply] at heq
  split at heq
  · split at heq
    · exact Avoids.raise _ _ e t heq
    · cases heq
  · cases heq

theorem avoids_pull : Avoids Stop.isJump pull := by
  refine .bind (.of_ok fun _ => rfl) fun s _ _ _ => ?_
  split
  · exact .raise _
  · exact .bind (.of_ok fun _ => rfl) fun _ _ _ _ => .of_ok fun _ => rfl

/-- The first computation avoids stops, whatever the second one does. -/
def FirstAvoids (kind : Stop → Bool) {α : Type} (c _ : Run α) : Prop :=
  Avoids kind c

/-- Avoiding stops that are jumps is passed on by everything that is no jump. -/
theorem compatible_avoids (m : Machine)
    (hkind : ∀ e : Stop, e.isJump = false → kind e = false) :
    CompatibleParts m (FirstAvoids kind) where
  pure _ := Avoids.of_ok fun _ => rfl
  after hc hf := Avoids.bind hc hf
  raise e := (Avoids.raise e).imp hkind
  tooDeep := Avoids.throw (hkind _ rfl)
  charge n := (avoids_charge m.limits n).imp hkind
  onHeap op := (avoids_onHeap op).imp hkind
  look _ hc := Avoids.of_ok hc
  lookup _ := Avoids.of_ok fun _ => rfl
  setCells _ := Avoids.of_ok fun _ => rfl
  newVariable _ _ := Avoids.of_ok fun _ => rfl
  exhausted := Avoids.throw (hkind _ rfl)
  pull := avoids_pull.imp hkind
  emit _ := Avoids.of_ok fun _ => rfl
  emitLineEnd := Avoids.of_ok fun _ => rfl
  iterate hc := Avoids.iterate fun s e t heq => .inl (hc s e t heq)

section Expressions

variable (m : Machine) (run : RunStmt)

/-- A call avoids jumps, whatever the statements of the function's body do. -/
theorem avoids_invoke (n : Nat) (f : Function) (frame : Frame) :
    Avoids Stop.isJump (invoke m run n f frame) := by
  have hbody : Avoids Stop.isJump
    (returning (calling frame (runAll run (n + 2) (f.body.getD []))) >>=
      fun v => onHeap (resultOf f.signature.returns v)) :=
    .bind (.returning _) fun v _ _ _ => avoids_onHeap _
  refine .bind (.of_ok fun _ => rfl) fun depth _ _ _ => ?_
  dsimp only
  split
  · exact .bind (.raise _) fun _ _ _ _ => hbody
  · exact hbody

theorem entering_avoids :
    Compatible.Entering (FirstAvoids Stop.isJump) (invoke m run) (invoke m run) :=
  avoids_invoke m run

theorem avoids_eval (n : Nat) (e : Expr) : Avoids Stop.isJump (eval m (invoke m run) n e) :=
  (compatible_avoids m fun _ => id).evaluates (entering_avoids m run) n e

theorem avoids_refer (n : Nat) (e : Expr) : Avoids Stop.isJump (refer m (invoke m run) n e) :=
  (compatible_avoids m fun _ => id).refers (entering_avoids m run) n e

theorem avoids_declareVariable (n : Nat) (d : Declarator) :
    Avoids Stop.isJump (declareVariable m (invoke m run) n d) :=
  Avoids.bind ((compatible_avoids m fun _ => id).declaredLocation (entering_avoids m run) n d)
    fun _ _ _ _ =>
    .of_ok fun _ => rfl

end Expressions

/-! ### Statements -/

def Stmt.isLoop : Stmt → Bool
  | whileLoop .. | doLoop .. | forLoop .. => true
  | _ => false

section Statements

variable {m : Machine} {run : RunStmt}

theorem avoids_ifPresent {f : α → Run Unit} (o : Option α)
    (h : ∀ x ∈ o, Avoids kind (f x)) : Avoids kind (ifPresent f o) := by
  cases o with
  | none => exact .of_ok fun _ => rfl
  | some x => exact h x rfl

/-- A statement that neither is a jump nor holds statements avoids jumps. -/
theorem avoids_perform (hstmt : stmt.mayJump = false) (loop : RunLoop) (n : Nat) :
    Avoids Stop.isJump (perform m run loop n stmt) := by
  have hparts := compatible_avoids m fun _ => id
  have hval : ∀ e, FirstAvoids Stop.isJump (eval m (invoke m run) (n + 1) e)
      (eval m (invoke m run) (n + 1) e) :=
    avoids_eval m run (n + 1)
  have hrefer : ∀ e, FirstAvoids Stop.isJump (refer m (invoke m run) (n + 1) e)
      (refer m (invoke m run) (n + 1) e) :=
    avoids_refer m run (n + 1)
  rw [perform.eq_def]
  cases stmt with
  | block | branch | whileLoop | doLoop | forLoop | leave | breakLoop | continueLoop => cases hstmt
  | directive | usingNamespace | prototype => exact .of_ok fun _ => rfl
  | define signature _ _ => exact .raise _
  | declare d => exact avoids_declareVariable m run _ d
  | declareAll _ ds =>
    exact hparts.forM (g := declareVariable m (invoke m run) (n + 3))
      (avoids_declareVariable m run _) ds
  | read _ targets => exact hparts.forM (fun e => hparts.bind (hrefer e) hparts.readInto) targets
  | print _ parts => exact hparts.forM (hparts.printPart hval) parts
  | evaluate _ e => exact hparts.discard (hval e)

theorem avoids_exec (hstmt : stmt.mayJump = false) (level n : Nat) :
    Avoids Stop.isJump (exec m level n stmt) := by
  cases level with
  | zero => exact .throw rfl
  | succ level =>
    exact (avoids_charge _ 1).bind fun _ _ _ _ =>
      .locating _ (fun _ _ => rfl) (avoids_perform hstmt (atMost level) (n + 2))

/-! ### Loops -/

/-- A loop avoids the exits of loops, whatever its body does. -/
theorem avoids_exec_loop (hloop : stmt.isLoop = true) (hstart : stmt.startsQuietly = true)
    (level n : Nat) : Avoids Stop.isLoopExit (exec m level n stmt) := by
  cases level with
  | zero => exact .throw rfl
  | succ level =>
    have hparts := compatible_avoids m fun _ => Stop.isLoopExit_of_not_isJump
    have hval : ∀ k e, FirstAvoids Stop.isLoopExit (eval m (invoke m (exec m level)) k e)
        (eval m (invoke m (exec m level)) k e) := fun k e =>
      (avoids_eval m _ k e).imp fun _ => Stop.isLoopExit_of_not_isJump
    -- the exits of the body are taken, so nothing need be known of it
    have hbody : ∀ c : Run Unit, FirstAvoids Stop.isLoopExit (iterate c) (iterate c) := fun c =>
      Avoids.iterate fun _ e _ _ => (Bool.eq_false_or_eq_true _).symm
    refine Avoids.bind (hparts.charge 1) fun _ _ _ _ => .locating _ (fun _ _ => rfl) ?_
    rw [perform.eq_def]
    cases stmt with
    | whileLoop _ condition body =>
      exact hparts.atMost (fun _ _ => hparts.whileRound (hparts.holds (hval _) condition)
        (hbody _)) level
    | doLoop _ body condition =>
      exact hparts.atMost (fun _ _ => hparts.doRound (hparts.holds (hval _) condition)
        (hbody _)) level
    | forLoop _ start condition update body =>
      refine .inScope (.bind (avoids_ifPresent start fun s hs => ?_) fun _ _ _ _ => ?_)
      · obtain rfl := Option.mem_def.mp hs
        exact (avoids_exec (Bool.not_eq_true' _ ▸ hstart) level _).imp fun _ =>
          Stop.isLoopExit_of_not_isJump
      · have hupdate : ∀ e, FirstAvoids Stop.isLoopExit
            (discard (eval m (invoke m (exec m level)) (n + 3) e) : Run Unit)
            (discard (eval m (invoke m (exec m level)) (n + 3) e)) := fun e =>
            hparts.discard (hval _ e)
        exact hparts.atMost (fun _ _ => hparts.forRound (hparts.goesOn (hval _) condition)
          (hparts.ifPresent hupdate update) (hbody _)) level
    | _ => cases hloop

end Statements

/-! ### Runs -/

theorem maxNesting_le_iff : limits.maxNesting ≤ largestNesting ↔ limits.fault? = none := by
  unfold Limits.fault?
  split
  · next h => exact iff_of_true h rfl
  · next h => exact iff_of_false h nofun

/-- What a stop amounts to: an error of the run, except for a key that cannot be shown and for
memory that is used up. -/
theorem Stop.failure_cases (file : String) (lines : Array String) (e : Stop) :
    (∃ error reason, e.failure file lines = .error error ∧ error.cause = .runtime reason) ∨
      (∃ reason, e = .fault (.unshownKey reason) ∧ e.failure file lines = .fault reason.fault) ∨
      e.failure file lines = .fault .outOfMemory := by
  cases e with
  | fault f =>
    cases f with
    | unshownKey reason => exact .inr (.inl ⟨reason, rfl, rfl⟩)
    | outOfMemory => exact .inr (.inr rfl)
    | _ => exact .inl ⟨_, _, rfl, rfl⟩
  | _ => exact .inl ⟨_, _, rfl, rfl⟩

theorem exists_stop_of_run {p : Program} {input : List String} {lines : Array String}
    {error : Error} (h : (p.run input limits lines).result = .error (.error error)) :
    ∃ stop t, runMain ⟨p.link, limits⟩ (exec ⟨p.link, limits⟩ limits.level) (.start limits input) =
    .error stop t ∧
      stop.failure p.file lines = .error error := by
  cases hfault : limits.fault? with
  | some fault =>
    rw [run_of_fault hfault] at h
    cases h
  | none =>
    rw [run_of_no_fault hfault] at h
    cases hmain : runMain ⟨p.link, limits⟩ (exec ⟨p.link, limits⟩ limits.level)
      (.start limits input) with
    | ok _ t =>
      rw [hmain] at h
      cases h
    | error stop t =>
      rw [hmain] at h
      exact ⟨stop, t, rfl, Except.error.inj h⟩

/-- **Jumps never get out, and faults only in three cases.**  The evaluation of an expression never
ends with a jump, nor does a loop with the exit of a loop, if it starts quietly, as every loop does
that is read from tokens.  A run whose limits can be set ends with output, with an error of the run,
with the fault of showing a key that is not in its map, or because the memory is used up; a run
whose limits cannot be set does not start. -/
theorem jumps_and_faults_contained (p : Program) (limits : Limits) :
    let m : Machine := ⟨p.link, limits⟩
    (∀ level n e, Avoids Stop.isJump (eval m (invoke m (exec m level)) n e) ∧
        Avoids Stop.isJump (refer m (invoke m (exec m level)) n e)) ∧
      (∀ level n f frame, Avoids Stop.isJump (invoke m (exec m level) n f frame)) ∧
      (∀ level n stmt, stmt.isLoop = true → stmt.startsQuietly = true →
        Avoids Stop.isLoopExit (exec m level n stmt)) ∧
      (∀ depth c stmt c', Parse.statement depth c = .ok stmt c' → stmt.startsQuietly = true) ∧
      ∀ input lines,
        (limits.maxNesting ≤ largestNesting → ∀ result, p.Ends input limits lines result →
          (∃ text, result = .ok text) ∨
            (∃ error reason, result = .error (.error error) ∧ error.cause = .runtime reason) ∨
            (∃ reason t, runMain m (exec m limits.level) (.start limits input) =
              .error (.fault (.unshownKey reason)) t ∧ result = .error (.fault reason.fault)) ∨
            result = .error (.fault .outOfMemory)) ∧
          (largestNesting < limits.maxNesting →
            (p.run input limits lines).result = .error (.fault .nestingLimitTooLarge)) := by
  intro m
  refine ⟨fun level n e => ⟨avoids_eval m _ n e, avoids_refer m _ n e⟩,
    fun level n f frame => avoids_invoke m _ n f frame,
    fun level n stmt hloop hstart => avoids_exec_loop hloop hstart level n,
    fun _ _ _ _ h => Parse.startsQuietly_of_statement h,
    fun input lines => ⟨fun hle result hends => ?_, fun hlt => ?_⟩⟩
  · cases hends with
    | memory => exact .inr (.inr (.inr rfl))
    | computed =>
      rw [run_of_no_fault (maxNesting_le_iff.mp hle)]
      cases hmain : runMain m (exec m limits.level) (.start limits input) with
      | ok _ t => exact .inl ⟨_, rfl⟩
      | error e t =>
        refine .inr ?_
        rcases e.failure_cases p.file lines with
          ⟨error, reason, hfail, hcause⟩ | ⟨reason, rfl, hfail⟩ | hfail
        · exact .inl ⟨error, reason, congrArg _ hfail, hcause⟩
        · exact .inr (.inl ⟨reason, t, rfl, congrArg _ hfail⟩)
        · exact .inr (.inr (congrArg _ hfail))
  · have hfault : limits.fault? = some .nestingLimitTooLarge := if_neg (Nat.not_le.mpr hlt)
    rw [run_of_fault hfault]

/-- A loop that is left at once, under limits that can be set and under limits that cannot. -/
theorem jumps_and_faults_contained_loop :
    let loop : Stmt := .whileLoop ⟨1, 1⟩ (.literal ⟨1, 8⟩ (.bool true)) (.breakLoop ⟨1, 14⟩)
    let p : Program := ⟨"", [loop]⟩
    (∀ level n, Avoids Stop.isLoopExit (exec ⟨p.link, ⟨100, 10⟩⟩ level n loop)) ∧
      (p.run [] ⟨100, 10⟩ #[]).result.isOk = true ∧
      (p.run [] ⟨100, 100000000⟩ #[]).result = .error (.fault .nestingLimitTooLarge) := by
  intro loop p
  refine ⟨fun level n => ?_, by decide +kernel, ?_⟩
  · exact (jumps_and_faults_contained p ⟨100, 10⟩).2.2.1 level n loop rfl rfl
  · exact ((jumps_and_faults_contained p ⟨100, 100000000⟩).2.2.2.2 [] #[]).2 (by decide)

end SmallCpp
