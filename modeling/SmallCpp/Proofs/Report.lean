import SmallCpp.Proofs.Parse.ErrorPlace

/-!
# Reports

A report has room for an output, an error and what is told of it, tokens and a program.  Which of
these parts are there is no accident: each phase fails with errors of its own phase only, and the
tokens and the program are there exactly if the phases that make them passed.  So the name of the
failed phase tells which parts a report has.

## Main results

* `report_consistent` — **every report ends in exactly one way.**
-/

namespace SmallCpp

open Parse

variable {source : Source} {tokens : List Token} {p : Program} {e : Error} {file text : String}
  {lines : Array String} {input : List String} {options : Options} {o outcome : Outcome}

/-! ### What the phases gave -/

/-- What each phase gave, up to the one that ended the processing. -/
inductive Processed (source : Source) (input : List String) (options : Options) : Outcome → Prop
  | lexical {e : Error} (htoks : source.tokenize = .error e) :
      Processed source input options { result := .error e }
  | grammar {tokens : List Token} {e : Error} (htoks : source.tokenize = .ok tokens)
      (hprog : Program.ofTokens? tokens source.file source.texts = .error (.error e)) :
      Processed source input options { tokens, result := .error e }
  | type {tokens : List Token} {p : Program} {e : Error} (htoks : source.tokenize = .ok tokens)
      (hprog : Program.ofTokens? tokens source.file source.texts = .ok p)
      (hchecks : options.checkLiterals = true) (hchk : checkPhase p = .ok (some e)) :
      Processed source input options { tokens, program := some p, result := .error e }
  | runtime {tokens : List Token} {p : Program} {e : Error} (htoks : source.tokenize = .ok tokens)
      (hprog : Program.ofTokens? tokens source.file source.texts = .ok p)
      (hrun : (p.run input options.limits source.texts).result = .error (.error e)) :
      Processed source input options { tokens, program := some p, result := .error e }
  | passed {tokens : List Token} {p : Program} {output : CodeText}
      (htoks : source.tokenize = .ok tokens)
      (hprog : Program.ofTokens? tokens source.file source.texts = .ok p)
      (hrun : (p.run input options.limits source.texts).result = .ok output) :
      Processed source input options { tokens, program := some p, result := .ok output }

theorem processed_of_runPhase (htoks : source.tokenize = .ok tokens)
    (hprog : Program.ofTokens? tokens source.file source.texts = .ok p)
    (h : runPhase tokens p source.texts input options.limits none = .ok outcome) :
    Processed source input options outcome := by
  rw [runPhase] at h
  split at h
  · next hrun =>
    cases h
    exact .passed htoks hprog hrun
  · next hrun =>
    cases h
    exact .runtime htoks hprog hrun
  · cases h

/-- **An outcome is what the phases gave.** -/
theorem processed_of_process (h : process text input options = .ok outcome) :
    Processed (Source.ofText text options.file) input options outcome := by
  unfold process at h
  dsimp only at h
  split at h
  · next htoks =>
    cases h
    exact .lexical htoks
  next tokens htoks =>
  split at h
  · cases h
  · next hprog =>
    cases h
    exact .grammar htoks hprog
  next p hprog =>
  cases hchecks : options.checkLiterals with
  | false =>
    rw [hchecks] at h
    exact processed_of_runPhase htoks hprog h
  | true =>
    rw [hchecks, if_pos rfl] at h
    cases hchk : checkPhase p with
    | error fault =>
      rw [hchk] at h
      cases h
    | ok complaint =>
      rw [hchk] at h
      cases complaint with
      | none => exact processed_of_runPhase htoks hprog h
      | some e =>
        cases h
        exact .type htoks hprog hchecks hchk

/-! ### The errors of the phases -/

theorem phase_of_ofTokens? (htoks : EndsOnce tokens)
    (h : Program.ofTokens? tokens file lines = .error (.error e)) : e.phase = .grammar := by
  obtain ⟨t, -, cause, hat, rfl⟩ := error_of_ofTokens? htoks h
  exact hat.phase

theorem phase_of_checkPhase (h : checkPhase p = .ok (some e)) : e.phase = .type := by
  unfold checkPhase at h
  split at h
  · cases h
  · cases h
  · cases h
    rfl
  · cases h

theorem phase_of_run {limits : Limits}
    (h : (p.run input limits lines).result = .error (.error e)) : e.phase = .runtime := by
  obtain ⟨stop, t, -, hfail⟩ := exists_stop_of_run h
  rcases stop.failure_cases p.file lines with ⟨error, reason, heq, hcause⟩ | ⟨reason, -, heq⟩ | heq
  · rw [heq] at hfail
    cases hfail
    rw [Error.phase, hcause]
    rfl
  · rw [heq] at hfail
    cases hfail
  · rw [heq] at hfail
    cases hfail

/-! ### The parts of a report -/

namespace Report

/-- The report is about an error, and has no output. -/
structure Fails (r : Report) (e : Error) : Prop where
  success : r.success = false
  output : r.output = []
  phase : r.phase = some e.phase.name
  message : r.message = some e.message
  diagnostic : r.diagnostic = some e.render
  error : r.error = some e

/-- The report is about no error. -/
structure Passes (r : Report) : Prop where
  success : r.success = true
  phase : r.phase = none
  message : r.message = none
  diagnostic : r.diagnostic = none
  error : r.error = none

/-- The parts of a report that ends with the failure of a phase, or with none; an initializer can be
rejected only if literals are checked. -/
def EndsIn (r : Report) (checks : Bool) : Option Phase → Prop
  | none => r.Passes ∧ r.program.isSome = true
  | some phase => (∃ e, r.Fails e ∧ e.phase = phase) ∧
    match phase with
    | .lexical => r.tokens = [] ∧ r.program = none
    | .grammar => r.tokens ≠ [] ∧ r.program = none
    | .type => checks = true ∧ r.tokens ≠ [] ∧ r.program.isSome = true
    | .runtime => r.tokens ≠ [] ∧ r.program.isSome = true
    | .internal => False

/-- A report ends in one way only: its error knows the phase. -/
theorem EndsIn.unique {r : Report} {checks : Bool} {a b : Option Phase} (ha : r.EndsIn checks a)
    (hb : r.EndsIn checks b) : a = b := by
  have hphase : ∀ {x : Option Phase}, r.EndsIn checks x → x = r.error.map Error.phase := by
    intro x hx
    cases x with
    | none => rw [hx.1.error, Option.map_none]
    | some phase =>
      obtain ⟨⟨e, hfails, rfl⟩, -⟩ := hx
      rw [hfails.error, Option.map_some]
  rw [hphase ha, hphase hb]

end Report

theorem Outcome.fails_report (h : o.result = .error e) : o.report.Fails e := by
  unfold Outcome.report
  rw [h]
  exact ⟨rfl, rfl, rfl, rfl, rfl, rfl⟩

theorem Outcome.passes_report {output : CodeText} (h : o.result = .ok output) :
    o.report.Passes := by
  unfold Outcome.report
  rw [h]
  exact ⟨rfl, rfl, rfl, rfl, rfl⟩

theorem Outcome.report_tokens (o : Outcome) : o.report.tokens = o.tokens := by
  unfold Outcome.report
  split <;> rfl

theorem Outcome.report_program (o : Outcome) : o.report.program = o.program := by
  unfold Outcome.report
  split <;> rfl

theorem ne_nil_of_tokenize (h : source.tokenize = .ok tokens) : tokens ≠ [] := by
  obtain ⟨front, rfl, -⟩ := Source.split_of_tokenize h
  simp

/-- The parts of the report, one phase after the other. -/
theorem Processed.exists_endsIn (h : Processed (.ofText text file) input options outcome) :
    ∃ ending, outcome.report.EndsIn options.checkLiterals ending := by
  cases h with
  | @lexical e htoks =>
    obtain ⟨_, hphase, -⟩ := Source.marks_of_tokenize htoks
    exact ⟨some .lexical, ⟨e, Outcome.fails_report rfl, hphase⟩, rfl, rfl⟩
  | @grammar tokens e htoks hprog =>
    have hphase := phase_of_ofTokens? (endsOnce_of_tokenize htoks) hprog
    exact ⟨some .grammar, ⟨e, Outcome.fails_report rfl, hphase⟩, ne_nil_of_tokenize htoks, rfl⟩
  | @type tokens p e htoks hprog hchecks hchk =>
    exact ⟨some .type, ⟨e, Outcome.fails_report rfl, phase_of_checkPhase hchk⟩, hchecks,
      ne_nil_of_tokenize htoks, rfl⟩
  | @runtime tokens p e htoks hprog hrun =>
    exact ⟨some .runtime, ⟨e, Outcome.fails_report rfl, phase_of_run hrun⟩,
      ne_nil_of_tokenize htoks, rfl⟩
  | passed htoks hprog hrun => exact ⟨none, Outcome.passes_report rfl, rfl⟩

/-- The tokens and the program of a source are kept if there are any. -/
theorem Processed.partial_results (h : Processed source input options outcome) :
    outcome.tokens = source.tokenize.toOption.getD [] ∧
      outcome.program = source.parse.toOption := by
  have hparse := source.parse_eq
  cases h with
  | lexical htoks =>
    rw [hparse, htoks]
    exact ⟨rfl, rfl⟩
  | grammar htoks hprog =>
    rw [htoks] at hparse
    rw [htoks, hparse.trans hprog]
    exact ⟨rfl, rfl⟩
  | type htoks hprog | runtime htoks hprog | passed htoks hprog =>
    rw [htoks] at hparse
    rw [htoks, hparse.trans hprog]
    exact ⟨rfl, rfl⟩

/-- **Every report ends in exactly one way**: with output and without an error, or with the failure
of one phase.  Then it has no output, whatever the program printed before, and tells of the error
what the error tells of itself.  The tokens and the program are there exactly if their phases
passed. -/
theorem report_consistent (h : process text input options = .ok outcome) :
    let r := outcome.report
    let source := Source.ofText text options.file
    (∃ ending, r.EndsIn options.checkLiterals ending ∧
      ∀ other, r.EndsIn options.checkLiterals other → other = ending) ∧
    (r.success = false → ∃ e, r.Fails e) ∧
    r.tokens = source.tokenize.toOption.getD [] ∧ r.program = source.parse.toOption := by
  intro r source
  have hprocessed := processed_of_process h
  obtain ⟨ending, hending⟩ := hprocessed.exists_endsIn
  obtain ⟨htoks, hprog⟩ := hprocessed.partial_results
  refine ⟨⟨ending, hending, fun other hother => hother.unique hending⟩, ?_, ?_, ?_⟩
  · intro hsuccess
    cases hres : outcome.result with
    | ok output =>
      rw [(Outcome.passes_report hres).success] at hsuccess
      cases hsuccess
    | error e => exact ⟨e, Outcome.fails_report hres⟩
  · rw [Outcome.report_tokens, htoks]
  · rw [Outcome.report_program, hprog]

/-- The program prints and then fails: its output is dropped, and the report ends in the run. -/
theorem report_consistent_after_output :
    ∃ outcome, process "cout << \"out\"; x;" [] {} = .ok outcome ∧
      let r := outcome.report
      let source := Source.ofText "cout << \"out\"; x;" "<input>"
      (∃ ending, r.EndsIn true ending ∧ ∀ other, r.EndsIn true other → other = ending) ∧
      (r.success = false → ∃ e, r.Fails e) ∧
      r.tokens = source.tokenize.toOption.getD [] ∧ r.program = source.parse.toOption ∧
      r.output = [] ∧ r.phase = some "runtime" := by
  have hlast : (process "cout << \"out\"; x;" [] {}).toOption.map
      (fun o => (o.report.output, o.report.phase)) = some ([], some "runtime") := by
    decide +kernel
  cases hproc : process "cout << \"out\"; x;" [] {} with
  | error fault =>
    rw [hproc] at hlast
    cases hlast
  | ok outcome =>
    rw [hproc] at hlast
    have hparts := Option.some.inj hlast
    obtain ⟨hending, hfails, htoks, hprog⟩ := report_consistent hproc
    exact ⟨outcome, rfl, hending, hfails, htoks, hprog, congrArg Prod.fst hparts,
      congrArg Prod.snd hparts⟩

end SmallCpp
