import SmallCpp.Proofs.Parse.Progress

/-!
# What rules end with

A rule that fails points at one of the tokens, for the tokens that it looked at are among them.  A
fault is the fault of a literal that has no value, or of an arrow that is no operator.  A loop that
is read starts with a declaration or with an expression.

## Main results

* `fault_of_ofTokens?` — **a fault of reading a program is the fault of one of its tokens.**
* `error_of_ofTokens?` — **an error of reading a program points at one of its tokens.**
-/

namespace SmallCpp

variable {stmt : Stmt} {α : Type} {c : Cursor} {tokens : List Token} {file : String}
  {lines : Array String}

namespace Stmt

/-- The statement is a jump or holds statements. -/
def mayJump : Stmt → Bool
  | block .. | branch .. | whileLoop .. | doLoop .. | forLoop .. | leave .. | breakLoop _
    | continueLoop _ =>
    true
  | _ => false

/-- If the statement is a loop with a start, then the start neither is a jump nor holds
statements. -/
def startsQuietly : Stmt → Bool
  | forLoop _ (some start) _ _ _ => !start.mayJump
  | _ => true

theorem startsQuietly_of_mayJump (h : stmt.mayJump = false) : stmt.startsQuietly = true := by
  cases stmt <;> first | rfl | cases h

end Stmt

namespace Parse

/-! ### Results of rules -/

/-- What the rule returns is as `Q` says. -/
abbrev Returns {α : Type} (rule : Parser α) (Q : α → Prop) : Prop :=
  Ensures (fun _ => True) rule Q

theorem Ensures.after {β : Type} {x : Parser α} {f : α → Parser β} {Q : β → Prop}
    (hf : ∀ a, Returns (f a) Q) : Returns (x >>= f) Q :=
  bind (P := fun _ => True) (fun _ _ _ _ _ => ⟨trivial, trivial⟩) fun a _ => hf a

theorem Ensures.either {x y : Parser α} {Q : α → Prop} {p : Prop} [Decidable p]
    (hx : Returns x Q) (hy : Returns y Q) : Returns (if p then x else y) Q :=
  ite (fun _ => hx) fun _ => hy

/-! ### Loops that are read -/

/-- The statement is no loop that starts with a jump or with other statements. -/
abbrev quiet : Stmt → Prop := fun stmt => stmt.startsQuietly = true

/-- The statement neither is a jump nor holds statements. -/
abbrev simple : Stmt → Prop := fun stmt => stmt.mayJump = false

theorem Ensures.quiet {rule : Parser Stmt} (h : Returns rule simple) : Returns rule Parse.quiet :=
  h.mono fun _ => Stmt.startsQuietly_of_mayJump

theorem returns_declaration (depth : Nat) : Returns (declaration depth) simple := by
  cases depth with
  | zero =>
    rw [declaration]
    exact .throw
  | succ depth =>
    rw [declaration]
    refine .after fun t => .after fun _ => .after fun _ => .after fun _ => .after fun _ =>
      .either ?_ ?_
    · refine .after fun _ => .after fun _ => .either (.after fun _ => .pure rfl) ?_
      exact .after fun _ => .either (.pure rfl) (.failHere _)
    · refine .either (.failHere _) (.after fun _ => .after fun others => .after fun _ => .pure ?_)
      cases others.isEmpty <;> rfl

theorem returns_expressionStmt (depth : Nat) : Returns (expressionStmt depth) simple := by
  cases depth with
  | zero => exact .throw
  | succ depth => exact .after fun _ => .after fun _ => .after fun _ => .pure rfl

theorem returns_forStart (depth : Nat) :
    Returns (forStart depth) fun start => ∀ stmt ∈ start, simple stmt := by
  have hsome : ∀ {stmt : Stmt}, simple stmt → ∀ stmt' ∈ some stmt, simple stmt' := by
    rintro stmt hstmt _ ⟨⟩
    exact hstmt
  cases depth with
  | zero =>
    rw [forStart]
    exact .throw
  | succ depth =>
    rw [forStart]
    refine .after fun _ => .either (.pure fun _ h => by cases h) (.after fun _ => .either ?_ ?_)
    · refine .bind (P := simple) ?_ fun stmt hstmt => .pure (hsome hstmt)
      exact (returns_declaration depth).bind fun stmt hstmt =>
        .either (.after fun _ => .throw) (.pure hstmt)
    · exact (returns_expressionStmt depth).bind fun stmt hstmt => .pure (hsome hstmt)

theorem returns_forStmt (depth : Nat) : Returns (forStmt depth) quiet := by
  cases depth with
  | zero =>
    rw [forStmt]
    exact .throw
  | succ depth =>
    rw [forStmt]
    refine .after fun _ => .after fun _ => (returns_forStart depth).bind fun start hstart =>
      .after fun _ => .after fun _ => .after fun _ => .after fun _ => .after fun _ => .pure ?_
    cases start with
    | none => rfl
    | some stmt => simpa [quiet, Stmt.startsQuietly] using hstart stmt rfl

theorem returns_jumpStmt {build : Position → Stmt} (h : ∀ position, quiet (build position)) :
    Returns (jumpStmt build) quiet :=
  .after fun _ => .after fun _ => .pure (h _)

/-- The statements that begin with a keyword, other than loops with a start. -/
theorem returns_keywordStmt (depth : Nat) (t : Token) : Returns (keywordStmt depth t) quiet := by
  unfold keywordStmt
  refine .either ?_ (.either ?_ (.either ?_ (.either (returns_forStmt depth) (.either ?_ (.either ?_
    (.either ?_ (.either ?_ (.either .throw ?_))))))))
  · cases depth with
    | zero => rw [branchStmt]; exact .throw
    | succ depth =>
      rw [branchStmt]
      exact .after fun _ => .after fun _ => .after fun _ => .after fun _ => .pure rfl
  · cases depth with
    | zero => rw [whileStmt]; exact .throw
    | succ depth =>
      rw [whileStmt]
      exact .after fun _ => .after fun _ => .after fun _ => .pure rfl
  · cases depth with
    | zero => rw [doStmt]; exact .throw
    | succ depth =>
      rw [doStmt]
      exact .after fun _ => .after fun _ => .after fun _ => .after fun _ => .after fun _ =>
        .pure rfl
  · cases depth with
    | zero => exact .throw
    | succ depth =>
      rw [leaveStmt]
      exact .after fun _ => .after fun _ => .after fun _ => .pure rfl
  · exact returns_jumpStmt fun _ => rfl
  · exact returns_jumpStmt fun _ => rfl
  · rw [usingDirective]
    exact .after fun _ => .after fun _ => .after fun _ => .after fun _ => .pure rfl
  · exact (returns_expressionStmt depth).quiet

theorem returns_printStmt (depth : Nat) (cout : Token) : Returns (printStmt depth cout) quiet := by
  cases depth with
  | zero => exact .throw
  | succ depth =>
    rw [printStmt]
    exact .after fun _ => .after fun _ => .pure rfl

theorem returns_readStmt (depth : Nat) (cin : Token) : Returns (readStmt depth cin) quiet := by
  cases depth with
  | zero => exact .throw
  | succ depth => exact .after fun _ => .after fun _ => .pure rfl

theorem returns_statement (depth : Nat) : Returns (statement depth) quiet := by
  cases depth with
  | zero =>
    rw [statement]
    exact .throw
  | succ depth =>
    rw [statement_succ]
    refine .after fun t => .either (.after fun _ => .pure rfl) (.either (.after fun _ => .pure rfl)
      (.either (.after fun _ => .pure rfl)
      (.after fun _ => .either (returns_declaration depth).quiet ?_)))
    refine .after fun cout => ?_
    cases cout with
    | some cout => exact returns_printStmt depth cout
    | none =>
      refine .after fun cin => ?_
      cases cin with
      | some cin => exact returns_readStmt depth cin
      | none => exact returns_keywordStmt depth t

/-- A loop that is read starts with a declaration or an expression. -/
theorem startsQuietly_of_statement {depth : Nat} {c' : Cursor}
    (h : statement depth c = .ok stmt c') : stmt.startsQuietly = true :=
  (returns_statement depth c stmt c' trivial h).2

/-! ### Programs -/

/-- Reading a program fails because of one of the tokens, and it stands at one of them. -/
theorem blamed_of_statements (h : EndsOnce tokens) {e : Failure}
    (hrun : statements (Cursor.start tokens) = .error e c) :
    e.Blamed tokens ∧ c.ahead 0 ∈ tokens := by
  have hstands := (within_start h).stands h
  have hrule := (round_program tokens deepest _).eats_repeatWhile _ hstands
  rw [show repeatWhile _ _ _ = _ from hrun] at hrule
  obtain ⟨⟨used, hused⟩, -, hblamed⟩ := hrule
  exact ⟨hblamed, (hstands.behind hused).mem⟩

/-- **A fault of reading a program is the fault of one of its tokens.** -/
theorem fault_of_ofTokens? (htoks : EndsOnce tokens) {f : Fault}
    (h : Program.ofTokens? tokens file lines = .error (.fault f)) :
    ∃ t ∈ tokens, TokenFault t f := by
  unfold Program.ofTokens? runOn at h
  cases hrule : statements (Cursor.start tokens) with
  | ok a c =>
    rw [hrule] at h
    cases h
  | error e c =>
    rw [hrule] at h
    cases e with
    | fault f' =>
      cases h
      exact (blamed_of_statements htoks hrule).1
    | error cause position => cases h
    | tooDeep => cases h

/-- **An error of reading a program points at one of its tokens.** -/
theorem error_of_ofTokens? (htoks : EndsOnce tokens) {e : Error}
    (h : Program.ofTokens? tokens file lines = .error (.error e)) :
    ∃ t ∈ tokens, ∃ cause, ErrorAt t cause t.position ∧
    e = errorAt file lines cause t.position := by
  unfold Program.ofTokens? runOn at h
  cases hrule : statements (Cursor.start tokens) with
  | ok a c =>
    rw [hrule] at h
    cases h
  | error failure c =>
    rw [hrule] at h
    obtain ⟨hblamed, hahead⟩ := blamed_of_statements htoks hrule
    cases failure with
    | fault f => cases h
    | error cause position =>
      cases h
      obtain ⟨t, ht, herr⟩ := hblamed
      exact ⟨t, ht, cause, herr.position ▸ herr, herr.position ▸ rfl⟩
    | tooDeep =>
      cases h
      exact ⟨c.ahead 0, hahead, _, ⟨rfl, rfl, rfl⟩, rfl⟩

end Parse

end SmallCpp
