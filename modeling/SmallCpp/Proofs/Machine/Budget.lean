import SmallCpp.CommandLine
import SmallCpp.Proofs.Machine.Termination
import SmallCpp.Proofs.Number.Numeral

/-!
# Two budgets of steps

A budget of steps is a threshold and nothing else.  A run that needs no more steps than the smaller
of two budgets is the same under both, down to the state it leaves; a run that needs more is stopped
by the smaller budget with the error that names it.

## Main results

* `run_budget_threshold` — **what the smaller of two budgets does to a run.**
-/

namespace SmallCpp

open CommandLine

variable {p : Program} {input : List String} {limits : Limits} {lines : Array String}

/-- The message of the budget's error can be written if the budget does not have too many digits. -/
theorem isWritable_stepBudget {n : Int} (hn : 0 ≤ n) :
    (RuntimeError.stepBudget n).isWritable = true ↔ n < 10 ^ digitLimit := by
  have hint : (RuntimeError.stepBudget n).isWritable = (integerText? n).isSome := by
    rw [RuntimeError.isWritable, RuntimeError.integers, List.all_cons, List.all_nil, Bool.and_true]
  have habs : (n.natAbs : Int) = n := Int.natAbs_of_nonneg hn
  have hpow : ((10 ^ digitLimit : Nat) : Int) = 10 ^ digitLimit := Int.natCast_pow 10 digitLimit
  rw [hint, integerText?, Nat.pow_eq, ← hpow, ← habs, Int.ofNat_lt, Int.natAbs_natCast]
  generalize 10 ^ digitLimit = limit
  split
  · next h => exact iff_of_true rfl h
  · next h => exact iff_of_false nofun h

theorem reportOf_state (file : String) (lines : Array String) (r : Ending Unit) :
    (reportOf file lines r).state = r.state := by
  cases r <;> rfl

theorem run_of_fault {fault : Fault} (h : limits.fault? = some fault) :
    p.run input limits lines = ⟨.error (.fault fault), .start limits input⟩ := by
  rw [Program.run, Program.runWith, h]

theorem run_of_no_fault (h : limits.fault? = none) :
    p.run input limits lines =
      reportOf p.file lines
      (runMain ⟨p.link, limits⟩ (exec ⟨p.link, limits⟩ limits.level) (.start limits input)) := by
  rw [Program.run, Program.runWith, h]

/-- What the report of a run says that is over the budget of `n` steps. -/
theorem OverBudget.report {n : Int} (hn : 0 ≤ n) {r : Ending Unit} (h : OverBudget n r)
    (file : String) (lines : Array String) :
    ∃ e : Error, (reportOf file lines r).result = .error (.error e) ∧
      (n < 10 ^ digitLimit → e.cause = .runtime (.stepBudget n)) ∧
      (10 ^ digitLimit ≤ n → e.cause = .runtime (.stray .tooManyDigits)) := by
  cases h with
  | failed position s h =>
    have hlt := (isWritable_stepBudget hn).mp h
    exact ⟨_, rfl, fun _ => rfl, fun hle => absurd hlt (Int.not_lt.mpr hle)⟩
  | fault s h =>
    have hnot : ¬n < 10 ^ digitLimit := fun hlt => by
      rw [(isWritable_stepBudget hn).mpr hlt] at h
      cases h
    exact ⟨_, rfl, fun hlt => absurd hlt hnot, fun _ => rfl⟩

theorem shadows_runMain {linked linked' : Linked} (hlinked : linked.Similar linked') {l l' : Limits}
    (hsteps : l'.maxSteps ≤ l.maxSteps) (hdepth : l'.maxCallDepth = l.maxCallDepth) {s : State}
    (hs : s.steps = 0) :
    Shadows False l'.maxSteps l.maxSteps s (runMain ⟨linked, l⟩ (exec ⟨linked, l⟩ l.level))
      (runMain ⟨linked', l'⟩ (exec ⟨linked', l'⟩ l'.level)) := by
  have hlevel : ∀ l : Limits, l.left s < l.level := by
    intro l
    rw [Limits.left, Limits.level, hs, Int.sub_zero]
    exact Nat.lt_succ_self _
  let D := budget False hlinked hsteps hdepth
  have hl : linked.Every D.Allows D.Free :=
    linked.every_of_forall (fun _ => trivial) fun _ => trivial
  -- Under the large bound for both budgets first; then the bound of the small budget will do.
  have hrel : D.Rel s anyway (runMain ⟨linked, l⟩ (exec ⟨linked, l⟩ l.level))
      (runMain ⟨linked', l'⟩ (exec ⟨linked', l'⟩ l.level)) :=
    Discipline.runMain hl (Discipline.runs_exec hl l.level l.level s ⟨hlevel l, Or.inl rfl⟩) trivial
  have hbig : l'.left s < l.level := by
    have hlt := hlevel l'
    rw [Limits.level] at hlt ⊢
    omega
  have heq := (runMain_execute ⟨linked', l'⟩ hbig).1.trans
    (runMain_execute ⟨linked', l'⟩ (hlevel l')).1.symm
  refine ⟨hrel.1.steps_le, hrel.1.exhausted, ?_, ?_, ?_⟩
  · rw [← heq]
    exact hrel.1.same
  · rw [← heq]
    exact hrel.1.beyond
  · rw [← heq]
    exact hrel.1.equal

/-- A run that does more steps than the smaller budget allows fails on it. -/
theorem run_over_budget {small big depth : Int} (hsmall : 0 ≤ small) (hle : small ≤ big)
    (hsteps : small < (p.run input ⟨big, depth⟩ lines).state.steps) :
    ∃ e : Error, (p.run input ⟨small, depth⟩ lines).result = .error (.error e) ∧
      (small < 10 ^ digitLimit → e.cause = .runtime (.stepBudget small)) ∧
      (10 ^ digitLimit ≤ small → e.cause = .runtime (.stray .tooManyDigits)) := by
  have hshadows : Shadows False small big (.start ⟨big, depth⟩ input) _ _ :=
    @shadows_runMain _ _ (.refl p.link) ⟨big, depth⟩ ⟨small, depth⟩ hle rfl _ rfl
  cases hbig : (⟨big, depth⟩ : Limits).fault? with
  | some fault =>
    rw [run_of_fault hbig] at hsteps
    exact absurd hsteps (Int.not_lt.mpr hsmall)
  | none =>
    have hsame : (⟨small, depth⟩ : Limits).fault? = none := hbig
    rw [run_of_no_fault hbig, reportOf_state] at hsteps
    rw [run_of_no_fault hsame]
    exact (hshadows.beyond not_false hsmall hsteps).report hsmall p.file lines

/-! ### Budgets that can be given -/

/-- A budget that the environment sets can be named in a message. -/
theorem positiveSetting_lt {env : List (String × String)} {name : String} {n : Int}
    (h : Options.positiveSetting env name = some n) : n < 10 ^ digitLimit := by
  obtain ⟨text, -, h⟩ := Option.bind_eq_some_iff.mp h
  obtain ⟨k, hk, h⟩ := Option.bind_eq_some_iff.mp h
  split at h
  · cases h
    cases hread : readInteger text with
    | error e =>
      rw [hread] at hk
      cases hk
    | ok k =>
      rw [hread] at hk
      cases hk
      exact readInteger_lt hread
  · cases h

theorem fromEnv_maxSteps_lt (env : List (String × String)) :
    (Options.fromEnv env).maxSteps < 10 ^ digitLimit := by
  rw [Options.fromEnv]
  cases hset : Options.positiveSetting env Options.stepsSetting with
  | none => exact (by decide +kernel : (1000000 : Int) < 10 ^ digitLimit)
  | some n => exact positiveSetting_lt hset

theorem givenSteps?_lt {values : List String} {n : Int} (h : givenSteps? values = some (some n)) :
    n < 10 ^ digitLimit := by
  unfold givenSteps? at h
  split at h
  · cases h
  split at h
  · next hread =>
    split at h
    · cases h
      exact readInteger_lt hread
    · cases h
  · cases h

/-- Whatever the arguments and the environment say, the budget can be named in a message. -/
theorem maxSteps_lt_of_ofSplit? {s : Split} {i : Invocation} (h : Invocation.ofSplit? s = some i)
    (env : List (String × String)) :
    i.maxSteps.getD (Options.fromEnv env).maxSteps < 10 ^ digitLimit := by
  unfold Invocation.ofSplit? at h
  split at h
  · obtain ⟨given, hgiven, h⟩ := Option.bind_eq_some_iff.mp h
    cases h
    cases given with
    | none => exact fromEnv_maxSteps_lt env
    | some n => exact givenSteps?_lt hgiven
  · cases h

/-! ### The threshold -/

/-- **The budget of steps is a threshold.**  A run under the larger budget that ends with no more
steps than the smaller one has the same report under the smaller one: result, output, position of
the error, steps, unread input and variables.  A run that ends with more steps is stopped under the
smaller budget with the error that names it.  Only a budget with more digits than a message can hold
is not named: then the error is that of writing the message.  Whatever the arguments and the
environment say, a program is never run under such a budget. -/
theorem run_budget_threshold (p : Program) (input : List String) (lines : Array String)
    (small big depth : Int) (hsmall : 0 ≤ small) (hle : small ≤ big) :
    ((p.run input ⟨big, depth⟩ lines).state.steps ≤ small →
      p.run input ⟨small, depth⟩ lines = p.run input ⟨big, depth⟩ lines) ∧
    (small < (p.run input ⟨big, depth⟩ lines).state.steps →
      ∃ e : Error, (p.run input ⟨small, depth⟩ lines).result = .error (.error e) ∧
        (small < 10 ^ digitLimit → ∃ reason, e.cause = .runtime reason ∧ reason.kind = .budget ∧
          reason.message = s!"execution exceeded the budget of {small} steps") ∧
        (10 ^ digitLimit ≤ small → e.cause = .runtime (.stray .tooManyDigits))) ∧
    ∀ s i env, Invocation.ofSplit? s = some i →
      i.maxSteps.getD (Options.fromEnv env).maxSteps < 10 ^ digitLimit := by
  have hshadows : Shadows False small big (.start ⟨big, depth⟩ input) _ _ :=
    @shadows_runMain _ _ (.refl p.link) ⟨big, depth⟩ ⟨small, depth⟩ hle rfl _ rfl
  refine ⟨fun hsteps => ?_, fun hsteps => ?_, fun _ _ env h => maxSteps_lt_of_ofSplit? h env⟩
  · cases hbig : (⟨big, depth⟩ : Limits).fault? with
    | some fault =>
      -- Limits that cannot be set stop both runs before they start.
      have hsame : (⟨small, depth⟩ : Limits).fault? = some fault := hbig
      rw [run_of_fault hbig, run_of_fault hsame]
      rfl
    | none =>
      have hsame : (⟨small, depth⟩ : Limits).fault? = none := hbig
      rw [run_of_no_fault hbig, reportOf_state] at hsteps
      rw [run_of_no_fault hbig, run_of_no_fault hsame]
      exact congrArg _ (hshadows.same hsteps)
  · obtain ⟨e, hres, hshort, hlong⟩ := run_over_budget hsmall hle hsteps
    exact ⟨e, hres, fun h => ⟨_, hshort h, rfl, rfl⟩, hlong⟩

/-- An endless loop needs more steps than five, and a budget of three steps stops it too. -/
theorem run_budget_threshold_endless :
    let p : Program := ⟨"", [.whileLoop ⟨1, 1⟩ (.literal ⟨1, 8⟩ (.bool true)) (.block ⟨1, 14⟩ [])]⟩
    (p.run [] ⟨5, 1⟩ #[]).state.steps = 6 ∧
      ∃ e : Error, (p.run [] ⟨3, 1⟩ #[]).result = .error (.error e) ∧
        ∃ reason, e.cause = .runtime reason ∧ reason.kind = .budget ∧
          reason.message = s!"execution exceeded the budget of {(3 : Int)} steps" := by
  intro p
  have hsteps : (p.run [] ⟨5, 1⟩ #[]).state.steps = 6 := by decide +kernel
  refine ⟨hsteps, ?_⟩
  obtain ⟨e, hres, hreason, -⟩ :=
    (run_budget_threshold p [] #[] 3 5 1 (by decide) (by decide)).2.1 (by rw [hsteps]; decide)
  exact ⟨e, hres, hreason (by decide +kernel)⟩

end SmallCpp
