import SmallCpp.Pipeline
import SmallCpp.Proofs.Literal.Coverage
import SmallCpp.Proofs.Machine.Containment

/-!
# When a source has an outcome

Every phase reports its errors in the outcome.  A fault has no place there, and each phase after the
first can fail with one: reading, with a literal of too many digits; checking literals, with an
integer that is beyond the doubles; and the run, with limits that cannot be set or a key that cannot
be shown.  Besides, the memory may be used up.  These are the only reasons why a source has no
outcome.

## Main results

* `outcome_or_fault` — **a source has an outcome, or one of five faults.**
-/

namespace SmallCpp

open Lexical Parse

variable {text : String} {f : Fault} {a b : Number} {p : Program} {input : List String}
  {options : Options} {lines : Array String}

/-! ### Reading -/

/-- A number without a value is an integer of too many digits. -/
theorem numberLiteral_fault (h : IsNumber text.toList) (hfault : numberLiteral text = .error f) :
    (∀ d ∈ text.toList, Text.isDigit d = true) ∧ digitLimit < text.length ∧
      f = .literalTooLong text.length := by
  have hnone : ¬∃ value, numberLiteral text = .ok value := by
    rintro ⟨value, hval⟩
    rw [hval] at hfault
    cases hfault
  have hmark : text.toList.any isDecimalMark = false := by
    rw [Bool.eq_false_iff]
    exact fun hmark => hnone (exists_numberLiteral h (Or.inl hmark))
  have hlong : digitLimit < text.length :=
    Nat.lt_of_not_le fun hle => hnone (exists_numberLiteral h (Or.inr hle))
  obtain ⟨hne, hdigs⟩ := h.isDigit_of_not_mark hmark
  have hlit := numberLiteral_of_isDigit hne hdigs
  rw [String.ofList_toList, hfault, String.length_toList, if_neg (Nat.not_le.mpr hlong)] at hlit
  cases hlit
  exact ⟨hdigs, hlong, rfl⟩

/-- **The tokens of a source have only one fault**: a number of too many digits. -/
theorem tokenFault_of_cut {t : Token} (h : t.Cut) (hfault : TokenFault t f) :
    t.kind = .number ∧ (∀ d ∈ t.text.toList, Text.isDigit d = true) ∧ digitLimit < t.text.length ∧
      f = .literalTooLong t.text.length := by
  rcases hfault with hfault | hfault
  · cases hkind : t.kind with
    | number =>
      rw [literal?, hkind] at hfault
      cases hnum : numberLiteral t.text with
      | ok value =>
        rw [hnum] at hfault
        cases hfault
      | error g =>
        rw [hnum] at hfault
        cases hfault
        exact ⟨rfl, numberLiteral_fault (h.isNumber hkind) hnum⟩
    | _ =>
      rw [literal?, hkind] at hfault
      cases hfault
  · unfold Joint.ofToken? at hfault
    split at hfault
    · next hstr =>
      have hsymbol : (BinaryOp.ofSymbol? t.text).isSome = true := by
        rcases h.stream (by simpa using hstr) with htext | htext
        · rw [htext]; decide
        · rw [htext]; decide
      obtain ⟨op, hop⟩ := Option.isSome_iff_exists.mp hsymbol
      rw [hop] at hfault
      cases hfault
    · split at hfault
      · split at hfault <;> cases hfault
      · cases hfault

/-! ### Checking literals -/

theorem Number.toDouble_fault (h : a.toDouble = .error f) : f = .integerTooLarge := by
  unfold Number.toDouble at h
  split at h
  · cases h
  · split at h
    · cases h
    · cases h
      rfl

/-- An operation on two doubles that both come from numbers. -/
theorem toDouble_bind_fault {α : Type} {g : Float → Float → α}
    (h : (do let x ← a.toDouble; let y ← b.toDouble; return g x y) = .error f) :
    f = .integerTooLarge := by
  cases hx : a.toDouble with
  | error f' =>
    rw [hx] at h
    cases h
    exact Number.toDouble_fault hx
  | ok x =>
    cases hy : b.toDouble with
    | error f' =>
      rw [hx, hy] at h
      cases h
      exact Number.toDouble_fault hy
    | ok y =>
      rw [hx, hy] at h
      cases h

theorem Number.combine_fault {ints : Int → Int → Int} {reals : Float → Float → Float}
    (h : (Number.combine ints reals a b).map some = .error f) : f = .integerTooLarge := by
  unfold Number.combine at h
  split at h
  · cases h
  · cases hdoubles : (do
        let x ← a.toDouble; let y ← b.toDouble; return Number.real (reals x y)) with
    | ok x =>
      rw [hdoubles] at h
      cases h
    | error f' =>
      rw [hdoubles] at h
      cases h
      exact toDouble_bind_fault (g := fun x y => Number.real (reals x y)) hdoubles

theorem foldOperator?_fault {op : BinaryOp} (h : foldOperator? op a b = .error f) :
    f = .integerTooLarge := by
  unfold foldOperator? at h
  split at h
  · exact Number.combine_fault h
  · exact Number.combine_fault h
  · exact Number.combine_fault h
  · unfold divideConstants? at h
    split at h
    · cases h
    · split at h
      · cases h
      · exact toDouble_bind_fault (g := fun x y => some (Number.real (x / y))) h
  · cases h

theorem foldWithin_fault {depth : Nat} {e : Expr} (h : e.foldWithin depth = .error (.fault f)) :
    f = .integerTooLarge := by
  induction depth generalizing e with
  | zero => cases h
  | succ depth ih =>
    -- what folding an operand leaves for the operator
    have hbind : ∀ {operand : Expr} {k : Option Constant → Except FoldStop (Option Constant)},
        (operand.foldWithin depth >>= k) = .error (.fault f) →
        f = .integerTooLarge ∨ ∃ c, operand.foldWithin depth = .ok c ∧ k c = .error (.fault f) := by
      intro operand k hrun
      cases hfold : operand.foldWithin depth with
      | error stop =>
        rw [hfold] at hrun
        cases hrun
        exact Or.inl (ih hfold)
      | ok c =>
        rw [hfold] at hrun
        exact Or.inr ⟨c, rfl, hrun⟩
    unfold Expr.foldWithin at h
    split at h
    · cases h
    · cases h
    · cases h
    · rcases hbind h with hf | ⟨c, -, hrun⟩
      · exact hf
      · cases hrun
    · rcases hbind h with hf | ⟨c, -, hrun⟩
      · exact hf
      · cases hrun
    · split at h
      · rcases hbind h with hf | ⟨a, -, hrun⟩
        · exact hf
        rcases hbind hrun with hf | ⟨b, -, hrun⟩
        · exact hf
        split at hrun
        · split at hrun
          · cases hrun
          · next hop =>
            cases hrun
            exact foldOperator?_fault hop
        · cases hrun
      · cases h
    · cases h

theorem Declaration.check_fault {d : Declaration} (h : d.check = some (.fault f)) :
    f = .integerTooLarge := by
  unfold Declaration.check Declarator.checkIn at h
  split at h
  · cases h
  split at h
  · cases h
  split at h
  · unfold Expr.foldIn at h
    split at h
    · next heq =>
      split at heq
      · cases heq
      · next hfold =>
        cases heq
        cases h
        exact foldWithin_fault hfold
      · cases heq
    · unfold Declarator.verdict at h
      split at h
      · split at h <;> cases h
      · split at h <;> cases h
  · cases h

/-- **Checking literals has only one fault**: an integer beyond the doubles. -/
theorem check_fault (h : p.check.stop = some (.fault f)) : f = .integerTooLarge := by
  obtain ⟨d, -, hd⟩ := p.exists_of_stop h
  exact d.check_fault hd

/-! ### All phases -/

/-- How a source failed to have an outcome on some input, with the reason for the fault. -/
inductive Faults (text : String) (input : List String) (options : Options) : Fault → Prop
  | literal {tokens : List Token} {t : Token}
      (htoks : (Source.ofText text options.file).tokenize = .ok tokens) (ht : t ∈ tokens)
      (hkind : t.kind = .number) (hdigs : ∀ d ∈ t.text.toList, Text.isDigit d = true)
      (hlong : digitLimit < t.text.length) :
      Faults text input options (.literalTooLong t.text.length)
  /-- An initializer that is checked holds an integer beyond the doubles. -/
  | check {p : Program} (hp : (Source.ofText text options.file).parse = .ok p)
      (hchecks : options.checkLiterals = true)
      (hchk : p.check.stop = some (.fault .integerTooLarge)) :
      Faults text input options .integerTooLarge
  | limits (hlarge : largestNesting < options.limits.maxNesting) :
      Faults text input options .nestingLimitTooLarge
  /-- The run looks for a key that is not in its map and that cannot be shown. -/
  | key {p : Program} (hp : (Source.ofText text options.file).parse = .ok p) {reason : Unshown}
    {t : State}
      (hrun : runMain ⟨p.link, options.limits⟩ (exec ⟨p.link, options.limits⟩ options.limits.level)
        (.start options.limits input) = .error (.fault (.unshownKey reason)) t) :
      Faults text input options reason.fault
  | memory : Faults text input options .outOfMemory

theorem Source.parse_eq (source : Source) :
    source.parse = match source.tokenize with
      | .error e => .error (.error e)
      | .ok tokens => Program.ofTokens? tokens source.file source.texts := by
  unfold Source.parse Source.parseWith
  cases source.tokenize <;> rfl

/-- The fault of a run, with its reason. -/
theorem faults_of_run (hp : (Source.ofText text options.file).parse = .ok p)
    (h : (p.run input options.limits lines).result = .error (.fault f)) :
    Faults text input options f := by
  cases hfault : options.limits.fault? with
  | some fault =>
    have hlarge : largestNesting < options.limits.maxNesting := by
      refine Nat.lt_of_not_le fun hle => ?_
      rw [maxNesting_le_iff.mp hle] at hfault
      cases hfault
    have hname : options.limits.fault? = some .nestingLimitTooLarge :=
      if_neg (Nat.not_le.mpr hlarge)
    rw [run_of_fault hname] at h
    cases h
    exact .limits hlarge
  | none =>
    rw [run_of_no_fault hfault] at h
    cases hmain :
      runMain ⟨p.link, options.limits⟩ (exec ⟨p.link, options.limits⟩ options.limits.level)
        (.start options.limits input) with
    | ok _ t =>
      rw [hmain] at h
      cases h
    | error e t =>
      rw [hmain] at h
      have hfail : e.failure p.file lines = .fault f := Except.error.inj h
      rcases e.failure_cases p.file lines with ⟨error, reason, heq, -⟩ | ⟨reason, rfl, heq⟩ | heq
      · rw [heq] at hfail
        cases hfail
      · rw [heq] at hfail
        cases hfail
        exact .key hp hmain
      · rw [heq] at hfail
        cases hfail
        exact .memory

theorem checkPhase_fault (h : checkPhase p = .error f) :
    f = .integerTooLarge ∧ p.check.stop = some (.fault .integerTooLarge) := by
  unfold checkPhase at h
  split at h
  · cases h
  · cases h
  · cases h
  · next hstop =>
    cases h
    obtain rfl := check_fault hstop
    exact ⟨rfl, hstop⟩

/-- The outcome after the check, with or without a complaint. -/
def runPhase (tokens : List Token) (p : Program) (lines : Array String) (input : List String)
    (limits : Limits) : Option Error → Except Fault Outcome
  | some e => return { tokens, program := some p, result := .error e }
  | none =>
    match (p.run input limits lines).result with
    | .ok output => return { tokens, program := some p, result := .ok output }
    | .error (.error e) => return { tokens, program := some p, result := .error e }
    | .error (.fault fault) => throw fault

theorem faults_of_runPhase (hp : (Source.ofText text options.file).parse = .ok p)
    {tokens : List Token}
    {complaint : Option Error} (h : runPhase tokens p lines input options.limits complaint =
      .error f) :
    Faults text input options f := by
  unfold runPhase at h
  split at h
  · cases h
  split at h
  · cases h
  · cases h
  · next hres =>
    cases h
    exact faults_of_run hp hres

theorem faults_of_process (hproc : process text input options = .error f) :
    Faults text input options f := by
  unfold process at hproc
  dsimp only at hproc
  split at hproc
  · cases hproc
  next tokens htoks =>
  have hparse : (Source.ofText text options.file).parse =
      Program.ofTokens? tokens (Source.ofText text options.file).file
        (Source.ofText text options.file).texts := by
    rw [Source.parse_eq, htoks]
  split at hproc
  · next hfault =>
    cases hproc
    have hcut := Source.cut_of_tokenize htoks
    -- a fault of the parser has a token to it, and the token is an overlong number
    obtain ⟨t, ht, htoken⟩ := fault_of_ofTokens? (endsOnce_of_tokenize htoks) hfault
    obtain ⟨hkind, hdigs, hlong, rfl⟩ := tokenFault_of_cut (hcut t ht) htoken
    exact .literal htoks ht hkind hdigs hlong
  · cases hproc
  next p hprog =>
  rw [hprog] at hparse
  cases hchecks : options.checkLiterals with
  | false =>
    rw [hchecks] at hproc
    have hrun : runPhase tokens p (Source.ofText text options.file).texts input
      options.limits none =
        .error f := hproc
    exact faults_of_runPhase hparse hrun
  | true =>
    rw [hchecks] at hproc
    cases hchk : checkPhase p with
    | error g =>
      rw [if_pos rfl, hchk] at hproc
      cases hproc
      obtain ⟨rfl, hstop⟩ := checkPhase_fault hchk
      exact .check hparse hchecks hstop
    | ok complaint =>
      rw [if_pos rfl, hchk] at hproc
      exact faults_of_runPhase hparse hproc

/-- **A source has an outcome, or one of five faults**, whatever its text, its input and its options
are, and however the work on it ends. -/
theorem outcome_or_fault (text : String) (input : List String) (options : Options)
    (result : Except Fault Outcome) (h : ProcessEnds text input options result) :
    (∃ outcome, result = .ok outcome) ∨ ∃ f, result = .error f ∧ Faults text input options f := by
  cases h with
  | memory => exact .inr ⟨_, rfl, .memory⟩
  | computed =>
    cases hproc : process text input options with
    | ok outcome => exact .inl ⟨outcome, rfl⟩
    | error f => exact .inr ⟨f, rfl, faults_of_process hproc⟩

/-- An empty source, with a limit on calls that cannot be set. -/
theorem outcome_or_fault_limits :
    let options : Options := { maxCallDepth := 53687067 }
    ProcessEnds "" [] options (.error .nestingLimitTooLarge) ∧
    Faults "" [] options .nestingLimitTooLarge := by
  intro options
  have hproc : process "" [] options = .error .nestingLimitTooLarge := by rfl
  have hends : ProcessEnds "" [] options (.error .nestingLimitTooLarge) := hproc ▸ .computed
  refine ⟨hends, ?_⟩
  obtain ⟨outcome, houtcome⟩ | ⟨f, hf, hfaults⟩ := outcome_or_fault "" [] options _ hends
  · cases houtcome
  · cases hf
    exact hfaults

end SmallCpp
