import SmallCpp.Proofs.Parse.Consumed

/-!
# What statements consume

The rules for declarations and statements read forward as those for types and expressions do.

## Main results

* `eatsStmt` — **the rules for statements read forward**.
-/

namespace SmallCpp.Parse

variable {α β : Type} {room : Prop} {depth k m n : Nat} {text : String} {c : Cursor}
  {ts : List Token}

/-! ### Views of the rules -/

theorem run_startsDeclaration (f : Bool → Parser β) (c : Cursor) :
    (startsDeclaration >>= f) c = f c.declares c :=
  rfl

theorem run_matchStream (word : String) (c : Cursor) : matchStream word c =
    if (c.ahead 0).isKeyword [word] = true then .ok (some (c.ahead 0)) c.next
    else if ((c.ahead 0).is .identifier "std" && (c.ahead 1).kind == .scope &&
      (c.ahead 2).text == word) = true then .ok (some (c.ahead 0)) c.next.next.next
    else .ok none c := by
  rw [matchStream, run_get]
  split
  · rfl
  rw [run_peekStd]
  split <;> rfl

/-- A stream word that is not found costs nothing. -/
theorem matchStream_eq_none {word : String} {c c' : Cursor} (h : matchStream word c = .ok none c') :
    c' = c := by
  rw [run_matchStream] at h
  split at h
  · cases h
  split at h
  · cases h
  · cases h
    rfl

/-- A statement that neither declares nor starts with a stream word, told by its first token. -/
def keywordStmt (depth : Nat) (t : Token) : Parser Stmt :=
  if t.isKeyword ["if"] then branchStmt depth
  else if t.isKeyword ["while"] then whileStmt depth
  else if t.isKeyword ["do"] then doStmt depth
  else if t.isKeyword ["for"] then forStmt depth
  else if t.isKeyword ["return"] then leaveStmt depth
  else if t.isKeyword ["break"] then jumpStmt Stmt.breakLoop
  else if t.isKeyword ["continue"] then jumpStmt Stmt.continueLoop
  else if t.isKeyword ["using"] then usingDirective
  else if t.kind == .keyword && !expressionKeywords.contains t.text then failUnsupported t.text t
  else expressionStmt depth

/-- The first token decides, but for the words of the streams. -/
theorem statement_succ (depth : Nat) : statement (depth + 1) = (do
    let t ← peek
    if t.isDelimiter "\x7b" then
      let (position, body) ← block depth
      return .block position body
    else if t.kind == .directive then directive
    else if t.isDelimiter ";" then
      discard advance
      return .block t.position []
    else if ← startsDeclaration then declaration depth
    else if let some cout ← matchStream "cout" then printStmt depth cout
    else if let some cin ← matchStream "cin" then readStmt depth cin
    else keywordStmt depth t) := by
  rw [statement]
  rfl

/-! ### Heads of declarations -/

theorem consumes_matchStream {word : String} (hword : word ≠ "/") (hc : c.Stands ts n) :
    Consumes ts room c Uncommented (matchStream word c) := by
  rw [run_matchStream]
  split
  · next h =>
    have hord := ordinary_of_isKeyword h
    exact ⟨_, hc.ended.next hord.not_end, hord.opening.toUncommented⟩
  split
  · next h =>
    rw [Bool.and_eq_true, beq_iff_eq] at h
    have hstd := ordinary_of_isStd h.1
    have hscope := ordinary_of_scope hc.ended h.1
    have hfirst := hc.ended.next hstd.not_end
    have hsecond := hfirst.ended.next hscope.not_end
    -- the word was compared from two tokens before it, where it is the third one ahead
    have hthird : c.next.next.ahead 0 = c.ahead 2 := by
      obtain ⟨t, us, hus⟩ := List.exists_cons_of_ne_nil hsecond.ended.ne_nil
      have hrest := hfirst.rest
      rw [hsecond.rest, hus] at hrest
      rw [Cursor.ahead, Cursor.ahead, hrest, hus]
      rfl
    -- its class was not looked at, so its text has to tell it from a division sign
    have hslash : ¬ IsSlash (c.next.next.ahead 0) := by
      rintro ⟨-, htext⟩
      rw [hthird, h.2] at htext
      exact hword htext
    refine .after hfirst (fun _ => (uncommented_single hstd.not_slash).append) ?_
    refine .after hsecond (fun _ => (uncommented_single hscope.not_slash).append) ?_
    have hword : Consumes ts room c.next.next Uncommented (advance c.next.next) :=
      consumes_any hsecond.ended hslash
    exact hword.bind ((hc.behind hfirst).behind hsecond) fun _ => .pure (some (c.ahead 0))
  · exact ⟨[], .refl hc.ended, uncommented_nil⟩

/-- The sign that ends a statement, or what the statement goes on with. -/
theorem eats_unlessEnd {a : α} {x : Parser α} (h : Eats ts room n Part x) :
    Eats ts room n Part (matchDelimiter ";" >>= fun b => if b = true then pure a else x) := by
  intro c hc
  by_cases hsemi : (c.ahead 0).isDelimiter ";" = true
  · have hrun : matchDelimiter ";" c = .ok true c.next := by rw [run_matchDelimiter, if_pos hsemi]
    rw [run_bind_ok hrun]
    exact (consumes_part hc.ended (ordinary_of_isDelimiter hsemi)).bind hc fun _ => .pure a
  · have hrun : matchDelimiter ";" c = .ok false c := by rw [run_matchDelimiter, if_neg hsemi]
    rw [run_bind_ok hrun]
    exact h c hc

/-- A token that has to be there. -/
theorem eats_require {test : Parser Bool} (expected : String)
    (h : Eats ts room n Uncommented test) :
    Eats ts room n Uncommented (require test expected) :=
  h.bind fun _ => .ite (.failHere _) (.pure _)

theorem eats_templateParam : Eats ts room n Part templateParam := by
  rw [templateParam]
  refine (eats_require _ (eats_matchKeyword _)).lead fun _ =>
    (eats_expectIdentifier _).part.bind fun name => ?_
  exact .bind (.modify fun _ => ⟨rfl, rfl, rfl⟩) fun _ => .pure _

theorem eats_templateHeader : Eats ts room n Part templateHeader := by
  rw [templateHeader]
  exact (eats_expectKeyword _).discard.part.bind fun _ =>
    (eats_require _ (eats_matchOperator (by decide))).bind fun _ =>
    (eats_commaSeparated eats_templateParam).any.bind fun _ =>
    (eats_require _ (eats_matchOperator (by decide))).returning _

theorem eats_ending (a : α) :
    Eats ts room n Part (discard (expectDelimiter ";") >>= fun _ => pure a) :=
  (eats_expectDelimiter ";").discard.part.returning _

/-- A directive that is not allowed is refused at its keyword. -/
theorem consumes_usingDirective (hc : c.Stands ts n)
    (hword : (c.ahead 0).isKeyword ["using"] = true) :
    Consumes ts room c Part (usingDirective c) := by
  have hord := ordinary_of_isKeyword hword
  simp only [Token.isKeyword, Bool.and_eq_true, beq_iff_eq, List.contains_iff_mem,
    List.mem_singleton] at hword
  -- the refusal names the first token, so it has to be one of `ts`
  have hkw : Eats ts room n Uncommented (namespaceKeyword (c.ahead 0)) := by
    rw [namespaceKeyword, ← hword.2]
    refine .look (fun _ => rfl) fun d hd => ?_
    split
    · exact .failUnsupported hd.ended hc.mem hword.1
    · next hnamespace =>
      have hord : Ordinary (d.ahead 0) := ordinary_of_isKeyword (by simpa using hnamespace)
      exact (consumes_ordinary hd.ended hord).discard.mono fun _ => Opening.toUncommented
  rw [usingDirective, run_advance]
  refine .after (hc.ended.next hord.not_end)
    (fun _ => Final.prepend (uncommented_single hord.not_slash)) ?_
  exact (hkw.lead fun _ => (eats_expectIdentifier _).lead fun _ => eats_ending _) _
    (hc.behind (hc.ended.next hord.not_end))

theorem consumes_jumpStmt (build : Position → Stmt) (hc : c.Stands ts n)
    (h : Ordinary (c.ahead 0)) :
    Consumes ts room c Part (jumpStmt build c) :=
  (consumes_ordinary hc.ended h).lead hc fun _ => eats_ending _

/-! ### Parameters and variables -/

section Declared

theorem eats_paramName : Eats ts room n Uncommented paramName := by
  refine .look (fun _ => rfl) fun c hc => ?_
  split
  · next h =>
      exact (consumes_ordinary hc.ended (ordinary_of_beq h (by decide))).lead hc fun _ => .pure _
  · exact Eats.pure _ c hc

theorem eats_param (depth : Nat) : Eats ts (Fits 1 depth n) n Part (param depth) := by
  rw [param]
  refine .looking (fun _ => rfl) fun _ => ((eats_typeExpr depth).1 n).bind fun type =>
    eats_paramName.bind fun name => (eats_matchDelimiter "[").bind fun _ => .ite ?_ (.pure _)
  exact (eats_expectDelimiter "]").discard.any.returning _

theorem eats_skipVoid : Eats ts room n Uncommented skipVoid := by
  refine .look (fun _ => rfl) fun c hc => ?_
  rw [run_bind_ok (x := peekAhead 1) rfl]
  split
  · next h =>
    have hord := ordinary_of_isKeyword (Bool.and_eq_true_iff.mp h).1
    exact (consumes_ordinary hc.ended hord).discard.mono fun _ => Opening.toUncommented
  · exact Eats.pure _ c hc

theorem eats_params (depth : Nat) : Eats ts (Fits 1 depth n) n Part (params depth) := by
  cases depth with
  | zero => exact eats_tooDeep
  | succ depth =>
    rw [params]
    exact (eats_expectDelimiter "(").discard.part.bindToken fun m hm _ =>
      eats_skipVoid.bind fun _ =>
      (eats_commaTerminated ")" ((eats_param depth).behind hm (by decide))).bind fun _ =>
      (eats_expectDelimiter ")").discard.any.returning _

theorem eats_unlessAt (close : String) (h : Eats ts room n Opening (expression depth assignPower)) :
    Eats ts room n Uncommented (unlessAt close depth) :=
  .looking (fun _ => rfl) fun _ => .ite (.pure _) (h.any.returning _)

theorem eats_declarator (depth : Nat) (type : TypeExpr) (name : Token) :
    Eats ts (Fits 5 depth n) n Uncommented (declarator depth type name) := by
  cases depth with
  | zero => exact eats_tooDeep
  | succ depth =>
    have hexpr : Eats ts (Fits 5 (depth + 1) n) n Uncommented (expression depth assignPower) :=
      (((eatsExpr ts depth).expression n _).inside (by decide)).any
    have hsize : Eats ts (Fits 5 (depth + 1) n) n Uncommented (sizePart depth) :=
      .looking (fun _ => rfl) fun _ => .ite (.pure _) (hexpr.returning _)
    rw [declarator]
    refine .bind ((eats_matchDelimiter "[").bind fun _ => .ite ?_ (.pure _)) fun extent =>
      .returning ?_ _
    · exact hsize.bind fun _ => (eats_expectDelimiter "]").discard.any.returning _
    · exact (eats_matchOperator (by decide)).bind fun _ => .ite (hexpr.returning _) (.pure _)

theorem eats_furtherDeclarator (depth : Nat) (type : TypeExpr) :
    Eats ts (Fits 0 depth n) n Part (furtherDeclarator depth type) :=
  round_signs.eats_repeatWhile.lead fun _ =>
    (eats_expectIdentifier _).part.bindToken fun _ hm name =>
    (eats_declarator depth _ name).further hm (by decide)

/-- The first variable takes no token of its own to begin, so it needs the most room. -/
theorem eats_declarators (depth : Nat) (position : Position) (type : TypeExpr) (name : Token) :
    Eats ts (Fits 5 depth n) n Part (declarators depth position type name) := by
  have hfurther : Eats ts (Fits 5 depth n) n Part (furtherDeclarator depth type) :=
    (eats_furtherDeclarator depth type).weaken fun hfits => by
      unfold Fits at *
      omega
  exact (eats_declarator depth type name).lead fun first =>
    (round_comma hfurther).eats_repeatWhile.lead fun _ =>
    eats_ending _

end Declared

/-! ### Simple statements -/

theorem ordinary_of_arrow {t : Token} (h : t.is .stream text = true) : Ordinary t := by
  rw [Token.is, Bool.and_eq_true] at h
  exact ordinary_of_beq h.1 (by decide)

theorem consumes_behindArrow (hc : c.Stands ts n) (h : (c.ahead 0).is .stream text = true)
    {x : Parser Expr}
    (hx : ∀ m < n, Eats ts (Fits 0 depth n) m Uncommented x) :
    Consumes ts (Fits 0 depth n) c Part ((discard advance >>= fun _ => x) c) :=
  (consumes_part hc.ended (ordinary_of_arrow h)).discard.bindToken hc
    fun m hm _ => hx m hm

/-- A round of the printed parts starts with an arrow. -/
theorem round_printPart (h : room → Fits 0 depth n) :
    Round ts room n (do return (← peek).is .stream "<<") (printPart depth) := by
  refine round_tokens (·.is .stream "<<") (fun _ => ⟨_, rfl, id⟩) fun c hc harrow => ?_
  refine (consumes_behindArrow hc harrow fun m hm => ?_).weaken h
  refine .bind (fun _ => consumes_matchStream (by decide)) fun endl => ?_
  cases endl with
  | some t => exact .pure _
  | none => exact (((eatsExpr ts depth).expression m _).further hm (by decide)).any

theorem eats_printStmt (depth : Nat) (cout : Token) :
    Eats ts (Fits 5 depth n) n Part (printStmt depth cout) := by
  cases depth with
  | zero => exact eats_tooDeep
  | succ depth =>
    rw [printStmt]
    have hround : Round ts (Fits 5 (depth + 1) n) n _ (printPart depth) :=
      round_printPart fun hfits => by
        unfold Fits at *
        omega
    refine .lead (hround.eats_repeatWhile.bind fun parts => ?_) fun _ => eats_ending _
    exact .ite (.failHere _) (.pure _)

theorem round_readTarget (h : room → Fits 0 depth n) :
    Round ts room n (do return (← peek).is .stream ">>") (readTarget depth) := by
  refine round_tokens (·.is .stream ">>") (fun _ => ⟨_, rfl, id⟩) fun c hc harrow => ?_
  refine (consumes_behindArrow hc harrow fun m hm => ?_).weaken h
  exact (((eatsExpr ts depth).expression m _).further hm (by decide)).any

theorem eats_readStmt (depth : Nat) (cin : Token) :
    Eats ts (Fits 5 depth n) n Part (readStmt depth cin) := by
  cases depth with
  | zero => exact eats_tooDeep
  | succ depth =>
    have hround : Round ts (Fits 5 (depth + 1) n) n _ (readTarget depth) :=
      round_readTarget fun hfits => by
        unfold Fits at *
        omega
    exact hround.eats_repeatWhile.lead fun _ => eats_ending _

theorem eats_condition (depth : Nat) : Eats ts (Fits 1 depth n) n Part (condition depth) := by
  cases depth with
  | zero => exact eats_tooDeep
  | succ depth =>
    exact (eats_expectDelimiter "(").discard.part.bindToken fun m hm _ =>
      ((eatsExpr ts depth).behind _ hm).any.bind fun _ =>
      (eats_expectDelimiter ")").discard.any.returning _

theorem consumes_leaveStmt (depth : Nat) (hc : c.Stands ts n) (h : Ordinary (c.ahead 0)) :
    Consumes ts (Fits 1 depth n) c Part (leaveStmt depth c) := by
  cases depth with
  | zero => exact eats_tooDeep c hc
  | succ depth =>
    rw [leaveStmt]
    exact (consumes_ordinary hc.ended h).leadToken hc fun m hm _ =>
      (eats_unlessAt ";" ((eatsExpr ts depth).behind _ hm)).lead fun _ => eats_ending _

theorem eats_expressionStmt (depth : Nat) :
    Eats ts (Fits 5 depth n) n Part (expressionStmt depth) := by
  cases depth with
  | zero => exact eats_tooDeep
  | succ depth =>
    exact .looking (fun _ => rfl) fun _ =>
      (((eatsExpr ts depth).expression n _).inside (by decide)).lead fun _ =>
      eats_ending _

/-! ### Statements that hold statements -/

/-- What the rules for statements consume. -/
structure EatsStmt (ts : List Token) (depth : Nat) : Prop where
  statement : ∀ n, Eats ts (Fits 6 depth n) n Part (statement depth)
  block : ∀ n, Eats ts (Fits 1 depth n) n Part (block depth)
  declaration : ∀ n, Eats ts (Fits 2 depth n) n Part (declaration depth)
  branchStmt : ∀ n c, c.Stands ts n → Ordinary (c.ahead 0) →
    Consumes ts (Fits 1 depth n) c Part (branchStmt depth c)
  whileStmt : ∀ n c, c.Stands ts n → Ordinary (c.ahead 0) →
    Consumes ts (Fits 1 depth n) c Part (whileStmt depth c)
  doStmt : ∀ n c, c.Stands ts n → Ordinary (c.ahead 0) → Consumes ts (Fits 1 depth n) c Part
    (doStmt depth c)
  forStart : ∀ n, Eats ts (Fits 6 depth n) n Part (forStart depth)
  forStmt : ∀ n c, c.Stands ts n → Ordinary (c.ahead 0) →
    Consumes ts (Fits 1 depth n) c Part (forStmt depth c)

namespace EatsStmt

/-- Without any room every rule stops at once. -/
theorem zero : EatsStmt ts 0 := by
  constructor
  case statement => intro n; rw [Parse.statement]; exact eats_tooDeep
  case block => intro n; rw [Parse.block]; exact eats_tooDeep
  case declaration => intro n; rw [Parse.declaration]; exact eats_tooDeep
  case branchStmt => intro n c hc _; rw [Parse.branchStmt]; exact eats_tooDeep c hc
  case whileStmt => intro n c hc _; rw [Parse.whileStmt]; exact eats_tooDeep c hc
  case doStmt => intro n c hc _; rw [Parse.doStmt]; exact eats_tooDeep c hc
  case forStart => intro n; rw [Parse.forStart]; exact eats_tooDeep
  case forStmt => intro n c hc _; rw [Parse.forStmt]; exact eats_tooDeep c hc

theorem round_moreStmts (h : Eats ts room n Part (Parse.statement depth)) :
    Round ts room n moreStmts (Parse.statement depth) := by
  refine .of_item (.looking (fun _ => rfl) fun _ => .ite (.pure _) ?_) h
  exact .looking (fun _ => rfl) fun _ => .ite (.failHere _) (.pure _)

/-- Statements are read until the brace that closes the block. -/
theorem isDelimiter_of_moreStmts {c' : Cursor} (h : moreStmts c = .ok false c') :
    (c'.ahead 0).isDelimiter "\x7d" = true := by
  rw [moreStmts, run_peekDelimiter] at h
  split at h
  · next hclose =>
    cases h
    exact hclose
  · obtain ⟨b, d, hrun, hend⟩ := run_bind_eq_ok h
    cases b with
    | true => cases hend
    | false => cases hend

variable (h : EatsStmt ts depth)

include h

theorem behind (hm : m < n) : Eats ts (Fits k (depth + 1) n) m Part (Parse.statement depth) :=
  (h.statement m).behind hm (by decide)

theorem block_succ : Eats ts (Fits 1 (depth + 1) n) n Part (Parse.block (depth + 1)) := by
  rw [Parse.block]
  refine (eats_expectDelimiter "\x7b").part.bindToken fun m hm t c hc => ?_
  have hround : Round ts (Fits 1 (depth + 1) n) m moreStmts (Parse.statement depth) :=
    round_moreStmts (h.behind hm)
  refine (hround.eats_repeatWhile c hc).andThen (fun _ _ => .append)
    fun body c' _ hrun hused _ => ?_
  -- the loop ended because there was no statement more, so a brace is next
  obtain ⟨d, -, hmore⟩ := hround.refused hc hrun
  have hclose := isDelimiter_of_moreStmts hmore
  exact (consumes_ordinary hused.ended (ordinary_of_isDelimiter hclose)).discard.lead
    (hc.behind hused)
    fun _ => .pure _

/-- A parameter list makes it a function, anything else a variable. -/
theorem declarationRest (position : Position) (templateParams : List String)
    (type : TypeExpr) (name : Token) (hm : m < n) :
    Eats ts (Fits k (depth + 1) n) m Part
    (declarationRest depth (Parse.block depth) position templateParams type name) := by
  refine .looking (fun _ => rfl) fun _ => .ite ?_ (.ite (.failHere _) ?_)
  · refine ((eats_params depth).behind hm (by decide)).lead fun ps =>
      .looking (fun _ => rfl) fun _ => .ite ?_ ?_
    · exact ((h.block m).behind hm (by decide)).returning _
    · exact eats_unlessEnd (.failHere _)
  · exact (eats_declarators depth position type name).behind hm (by decide)

theorem declaration_succ :
    Eats ts (Fits 2 (depth + 1) n) n Part (Parse.declaration (depth + 1)) := by
  rw [Parse.declaration]
  refine .looking (fun _ => rfl) fun t => .lead (P := Uncommented) ?_ fun templateParams => ?_
  · exact .looking (fun _ => rfl) fun _ => .ite eats_templateHeader.any (.pure _)
  · exact (((eats_typeExpr depth).1 n).inside (by decide)).leadToken fun m hm type =>
      (eats_expectIdentifier _).lead fun name => h.declarationRest _ templateParams type name hm

theorem branchStmt_succ (hc : c.Stands ts n) (hord : Ordinary (c.ahead 0)) :
    Consumes ts (Fits 1 (depth + 1) n) c Part (Parse.branchStmt (depth + 1) c) := by
  rw [Parse.branchStmt]
  refine (consumes_ordinary hc.ended hord).leadToken hc fun m hm _ =>
    ((eats_condition depth).behind hm (by decide)).lead fun _ => (h.behind hm).bind fun _ =>
    .returning ?_ _
  exact (eats_matchKeyword _).bind fun _ => .ite ((h.behind hm).any.returning _) (.pure _)

theorem whileStmt_succ (hc : c.Stands ts n) (hord : Ordinary (c.ahead 0)) :
    Consumes ts (Fits 1 (depth + 1) n) c Part (Parse.whileStmt (depth + 1) c) := by
  rw [Parse.whileStmt]
  exact (consumes_ordinary hc.ended hord).leadToken hc fun m hm _ =>
    ((eats_condition depth).behind hm (by decide)).lead fun _ => (h.behind hm).returning _

theorem doStmt_succ (hc : c.Stands ts n) (hord : Ordinary (c.ahead 0)) :
    Consumes ts (Fits 1 (depth + 1) n) c Part (Parse.doStmt (depth + 1) c) := by
  rw [Parse.doStmt]
  exact (consumes_ordinary hc.ended hord).leadToken hc fun m hm _ => (h.behind hm).bind fun _ =>
    (eats_expectKeyword _).discard.any.bind fun _ =>
    ((eats_condition depth).behind hm (by decide)).any.bind fun _ =>
    (eats_expectDelimiter _).discard.any.returning _

/-- A function at the start of a loop is refused at the token that ends it. -/
theorem startDeclaration :
    Eats ts (Fits 6 (depth + 1) n) n Part (startDeclaration (Parse.declaration depth)) := by
  intro c hc
  refine .andThen (fun _ _ => Part.append) ((((h.declaration n).inside (by decide)) : Eats ..) c hc)
    fun start c' used _ hused hpart => ?_
  have hc' := hc.behind hused
  split
  -- something was consumed, so there is a token before the state, one of `ts`
  · obtain ⟨t, ht⟩ := List.getLast?_isSome.mpr hpart.ne_nil |> Option.isSome_iff_exists.mp
    have hprevious : c'.previous.getD (endToken 0) = t := by rw [hused.previous, ht]; rfl
    exact .failAt hc'.ended _ (hprevious ▸ hc.consumed hused (List.mem_of_getLast? ht))
  · exact Eats.pure _ c' hc'

theorem forStart_succ : Eats ts (Fits 6 (depth + 1) n) n Part (Parse.forStart (depth + 1)) := by
  rw [Parse.forStart]
  refine eats_unlessEnd fun c hc => ?_
  rw [run_startsDeclaration]
  split
  · exact (h.startDeclaration.returning _) c hc
  · exact (((eats_expressionStmt depth).inside (by decide)).returning _) c hc

theorem forStmt_succ (hc : c.Stands ts n) (hord : Ordinary (c.ahead 0)) :
    Consumes ts (Fits 1 (depth + 1) n) c Part (Parse.forStmt (depth + 1) c) := by
  rw [Parse.forStmt]
  have hexpr : ∀ m < n, Eats ts (Fits 1 (depth + 1) n) m Opening (expression depth assignPower) :=
    fun m hm => (eatsExpr ts depth).behind _ hm
  exact (consumes_ordinary hc.ended hord).leadToken hc fun m hm _ =>
    (eats_expectDelimiter "(").discard.lead fun _ =>
    ((h.forStart m).behind hm (by decide)).bind fun _ =>
    (eats_unlessAt ";" (hexpr m hm)).bind fun _ =>
    (eats_expectDelimiter ";").discard.any.bind fun _ =>
    (eats_unlessAt ")" (hexpr m hm)).bind fun _ =>
    (eats_expectDelimiter ")").discard.any.bind fun _ =>
    (h.behind hm).any.returning _

theorem keywordStmt (hc : c.Stands ts n) :
    Consumes ts (Fits 6 (depth + 1) n) c Part (keywordStmt depth (c.ahead 0) c) := by
  -- a rule that is left to a keyword has the next lower depth
  have hinside : ∀ {r : EStateM.Result Failure Cursor Stmt}, Consumes ts (Fits 1 depth n) c Part r →
      Consumes ts (Fits 6 (depth + 1) n) c Part r := fun hr => hr.weaken fun hfits => by
    unfold Fits at *
    omega
  rw [Parse.keywordStmt]
  split
  · next hword => exact hinside (h.branchStmt n c hc (ordinary_of_isKeyword hword))
  split
  · next hword => exact hinside (h.whileStmt n c hc (ordinary_of_isKeyword hword))
  split
  · next hword => exact hinside (h.doStmt n c hc (ordinary_of_isKeyword hword))
  split
  · next hword => exact hinside (h.forStmt n c hc (ordinary_of_isKeyword hword))
  split
  · next hword => exact hinside (consumes_leaveStmt depth hc (ordinary_of_isKeyword hword))
  split
  · next hword => exact consumes_jumpStmt _ hc (ordinary_of_isKeyword hword)
  split
  · next hword => exact consumes_jumpStmt _ hc (ordinary_of_isKeyword hword)
  split
  · next hword => exact consumes_usingDirective hc hword
  split
  · next hword =>
    rw [Bool.and_eq_true, beq_iff_eq] at hword
    exact .failUnsupported hc.ended hc.mem hword.1
  · exact ((eats_expressionStmt depth).inside (by decide)) c hc

theorem statement_succ : Eats ts (Fits 6 (depth + 1) n) n Part (Parse.statement (depth + 1)) := by
  intro c hc
  rw [Parse.statement_succ, run_peek]
  split
  · exact (((h.block n).inside (by decide)).returning _) c hc
  split
  · next hdirective =>
    exact (consumes_part hc.ended (ordinary_of_beq hdirective (by decide))).bind hc fun _ => .pure _
  split
  · next hsemi =>
    exact (consumes_part hc.ended (ordinary_of_isDelimiter hsemi)).discard.bind hc fun _ => .pure _
  rw [run_startsDeclaration]
  split
  · exact ((h.declaration n).inside (by decide)) c hc
  -- a stream word that is not there leaves the state as it is, so the first token decides
  refine (consumes_matchStream (by decide) hc).andThen (fun _ _ => Final.prepend)
    fun cout c' _ hrun hused _ => ?_
  cases cout with
  | some cout => exact ((eats_printStmt depth cout).inside (by decide)) c' (hc.behind hused)
  | none =>
  obtain rfl := matchStream_eq_none hrun
  refine (consumes_matchStream (by decide) hc).andThen (fun _ _ => Final.prepend)
    fun cin c'' _ hrun hused _ => ?_
  cases cin with
  | some cin => exact ((eats_readStmt depth cin).inside (by decide)) c'' (hc.behind hused)
  | none =>
  obtain rfl := matchStream_eq_none hrun
  exact h.keywordStmt hc

end EatsStmt

/-- **What the rules for statements consume.** -/
theorem eatsStmt (ts : List Token) (depth : Nat) : EatsStmt ts depth := by
  induction depth with
  | zero => exact .zero
  | succ depth ih =>
    exact ⟨fun _ => ih.statement_succ, fun _ => ih.block_succ, fun _ => ih.declaration_succ,
      fun _ _ => ih.branchStmt_succ, fun _ _ => ih.whileStmt_succ, fun _ _ => ih.doStmt_succ,
      fun _ => ih.forStart_succ, fun _ _ => ih.forStmt_succ⟩

end SmallCpp.Parse
