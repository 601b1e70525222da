import SmallCpp.Proofs.Parse.ConsumedStmt
import SmallCpp.Proofs.Parse.Extended

/-!
# Statements with more tokens behind

A statement is read up to the token that ends it, whatever stands behind.  The one exception is a
conditional statement without a second branch, which looks for the keyword of that branch; so the
tokens behind must not begin with it.

## Main results

* `concludesStmt` — **statements keep their results** when more tokens follow.
-/

namespace SmallCpp.Parse

variable {α : Type} {c : Cursor} {q : Sequel}

/-! ### Ends of statements -/

/-- What `Concludes` says of the result from one state. -/
def ConcludesAt (q : Sequel) (g : α → α) (c : Cursor) (r : EStateM.Result Failure Cursor α)
    (x' : Parser α) : Prop :=
  (∀ a d, r = .ok a d → ¬ c.Endless) ∧ Mirrors True (fun _ => True) q g x' c r

section ConcludesAt

variable {g : α → α} {x x' y y' : Parser α}

theorem Concludes.at (h : Concludes q g x x') (hc : c.Ended) : ConcludesAt q g c (x c) x' :=
  ⟨fun a d => h.ends c a d hc, h.firm c hc⟩

theorem concludes_of_at (h : ∀ c, c.Ended → ConcludesAt q g c (x c) x') : Concludes q g x x' :=
  ⟨fun c a d hc => (h c hc).1 a d, fun c hc => (h c hc).2⟩

theorem ConcludesAt.failHere (expected : String) :
    ConcludesAt q g c ((failHere expected : Parser α) c) (failHere expected) :=
  ⟨nofun, fun _ _ _ => ⟨_, _, rfl⟩⟩

/-- A rule that looks at its first token and holds the end of a statement. -/
theorem ConcludesAt.peek {f f' : Token → Parser α} (hc : c.Ended)
    (h : ConcludesAt q g c (f (c.ahead 0) c) (f' (c.ahead 0).unplaced)) :
    ConcludesAt q g c ((peek >>= f) c) (peek >>= f') := by
  have hlook : q.tail = [] ∨ ¬ c.Endless →
      (Parse.peek >>= f') (c.before q) = f' (c.ahead 0).unplaced (c.before q) := fun hhidden => by
    rw [run_peek, hc.head_before (hhidden.imp_right hc.kind_ne)]
  obtain ⟨hends, hmirrors⟩ := h
  refine ⟨hends, ?_⟩
  rw [run_peek]
  cases hrun : f (c.ahead 0) c with
  | ok a d =>
    rw [hrun] at hmirrors
    refine ⟨hmirrors.1, ?_⟩
    rintro _ rfl hneed
    rw [hlook (.inr (hends a d hrun))]
    exact hmirrors.2 _ rfl hneed
  | error e d =>
    rw [hrun] at hmirrors
    rintro hq _ rfl
    rw [hlook (.inl hq)]
    exact hmirrors hq _ rfl

theorem ConcludesAt.ite {p : Prop} [Decidable p] (hx : p → ConcludesAt q g c (x c) x')
    (hy : ¬ p → ConcludesAt q g c (y c) y') :
    ConcludesAt q g c ((if p then x else y) c) (if p then x' else y') := by
  split
  · next h => exact hx h
  · next h => exact hy h

theorem ConcludesAt.token {f k : Token → α} (hc : c.Ended) (hhead : endsStmt (c.ahead 0) = true)
    (hf : ∀ t, k t.unplaced = g (f t)) :
    ConcludesAt q g c ((advance >>= fun t => pure (f t)) c) (advance >>= fun t => pure (k t)) := by
  have hends := Cursor.not_endless_of_head hc hhead
  refine ⟨fun _ _ _ => hends, .next hc, ?_⟩
  rintro _ rfl _
  refine ⟨_, ?_, rfl⟩
  rw [← hf, ← hc.head_before (.inr (hc.kind_ne hends)), ← hc.next_before (.inr (hc.kind_ne hends))]
  rfl

theorem concludes_expectEnd : Conclusive q Token.unplaced (expectDelimiter ";") := by
  have hexpect : expectDelimiter ";" = (do
      if (← peek).isDelimiter ";" then advance >>= fun t => pure t
      else failHere (inQuotes ";")) := by
    simp only [bind_pure]
    rfl
  rw [hexpect]
  refine concludes_of_at fun c hc =>
    ConcludesAt.peek hc (ConcludesAt.ite (fun hhead => ?_) fun _ => .failHere _)
  exact ConcludesAt.token hc (by simp [endsStmt, hhead]) fun _ => rfl

/-- The result that is given, behind the end of a statement. -/
theorem concludes_matchEnd {a a' : α} (h : a' = g a) (expected : String) :
    Concludes q g (do if ← matchDelimiter ";" then return a else failHere expected)
      (do if ← matchDelimiter ";" then return a' else failHere expected) := by
  have hmatch : ∀ b : α, (do if ← matchDelimiter ";" then return b else failHere expected) = (do
      if (← peek).isDelimiter ";" then discard advance >>= fun _ => pure b
      else failHere expected) := by
    intro b
    funext c
    change _ = (if (c.ahead 0).isDelimiter ";" = true then _ else _ : Parser α) c
    by_cases hhead : (c.ahead 0).isDelimiter ";" = true
    · rw [run_bind_ok (by rw [run_matchDelimiter, if_pos hhead]), if_pos hhead]
      rfl
    · rw [run_bind_ok (by rw [run_matchDelimiter, if_neg hhead]), if_neg hhead]
      rfl
  rw [hmatch, hmatch]
  refine concludes_of_at fun c hc =>
    ConcludesAt.peek hc (ConcludesAt.ite (fun hhead => ?_) fun _ => .failHere _)
  exact ConcludesAt.token (f := fun _ => a) (k := fun _ => a') hc (by simp [endsStmt, hhead])
    fun _ => h

end ConcludesAt

/-! ### Heads of declarations -/

section Heads

variable {strict : Prop}

theorem inside_require {test : Parser Bool} (h : Stable strict q id test) (expected : String) :
    Stable strict q id (require test expected) :=
  h.bind fun _ => Keeps.ite (fun _ => Keeps.failHere _) fun _ => Keeps.pure rfl

theorem inside_templateParam : Stable False q id templateParam := by
  rw [templateParam]
  refine (inside_require (inside_matchKeyword _) _).bind fun _ =>
    (inside_expectIdentifier _).bind fun name => ?_
  refine Inside.bind (inside_modify ?_ ?_) fun _ => Keeps.pure rfl
  · exact fun _ => ⟨rfl, rfl, rfl⟩
  · exact fun _ => rfl

/-- The names of a template header; that the keyword stands here is known. -/
theorem inside_templateHeader : Stable False q id templateHeader := by
  rw [templateHeader]
  refine (inside_expectKeyword _).discard.bind fun _ =>
    (inside_require (inside_matchOperator _) _).bind fun _ =>
    (inside_commaSeparated (fun _ _ => eats_templateParam) (fun _ _ => eats_templateParam)
      inside_templateParam).bind fun names =>
    (inside_require (inside_matchOperator _) _).bind fun _ => Keeps.pure ?_
  rw [List.map_id]
  rfl

instance (k : Nat × Bool) : Persists fun c => c.lists = k :=
  ⟨fun h => (congrArg Prod.fst (Cursor.books_next _)).trans h⟩

theorem lists_templateHeader (k : Nat × Bool) :
    Ensures (fun c => c.lists = k) templateHeader fun _ => True := by
  have hrequire : ∀ {test : Parser Bool} expected, Ensures (fun c => c.lists = k) test
    (fun _ => True) →
      Ensures (fun c => c.lists = k) (require test expected) fun _ => True := fun expected htest =>
    htest.bind fun _ _ => .ite (fun _ => .failHere _) fun _ => .pure trivial
  have hparam : Ensures (fun c => c.lists = k) templateParam fun _ => True := by
    rw [templateParam]
    exact (hrequire _ (Ensures.matchKeyword _)).bind fun _ _ =>
      (Ensures.expectIdentifier _).bind fun name _ =>
      Ensures.bind (.modify fun _ h => h) fun _ _ => .pure trivial
  rw [templateHeader]
  exact (Ensures.expectKeyword _).discard.bind fun _ _ =>
    (hrequire _ (Ensures.matchOperator _)).bind fun _ _ =>
    hparam.commaSeparated.bind fun _ _ => (hrequire _ (Ensures.matchOperator _)).bind fun _ _ =>
    .pure trivial

/-- A template header introduces type names and leaves no generic argument list open. -/
theorem inside_templatePart : Stable True q id templatePart := by
  have hinside : Stable False q id templatePart :=
    (inside_peekKeyword _).bind fun _ => Keeps.ite (fun _ => inside_templateHeader) fun _ =>
    Keeps.pure rfl
  intro c hc
  cases hrun : templatePart c with
  | error e d => exact fun hexact _ => Keeps.error hinside hc hrun hexact
  | ok names d =>
    obtain ⟨honward, hmirror⟩ := Keeps.ok hinside hc hrun
    change (if (c.ahead 0).isKeyword ["template"] = true then templateHeader else pure []) c =
      _ at hrun
    refine ⟨⟨honward.behind, fun _ hbal => ?_⟩, hmirror⟩
    have hlists : d.lists = c.lists := by
      split at hrun
      · exact (lists_templateHeader c.lists c names d rfl hrun).1
      · cases hrun
        rfl
    exact ⟨(congrArg Prod.fst hlists).trans hbal.closed,
      (congrArg Prod.snd hlists).trans hbal.whole⟩

theorem inside_param (depth : Nat) : Stable True q Param.unplaced (param depth) := by
  have hname : Stable True q id paramName :=
    inside_token.bind fun _ => Keeps.ite (fun _ => inside_advance.bind fun _ => Keeps.pure rfl)
    fun _ => Keeps.pure rfl
  rw [param]
  refine inside_token.bind fun t => (inside_type depth).bind fun type => hname.bind fun name => ?_
  refine (inside_matchDelimiter _).bind fun _ => Keeps.ite (fun _ => ?_) fun _ => Keeps.pure rfl
  exact (inside_expectDelimiter _).discard.bind fun _ => Keeps.pure rfl

/-- The keyword that stands for no parameters is followed by the closing parenthesis. -/
def Cursor.emptyVoid (c : Cursor) : Bool :=
  (c.ahead 0).isKeyword ["void"] && (c.ahead 1).isDelimiter ")"

theorem inside_skipVoid : Stable True q id skipVoid := by
  have hlook : Stable True q id (do return (← get).emptyVoid) := by
    refine inside_look (fun _ => rfl) (Twins.Sees.behind (f := fun c => (c.ahead 0).isDelimiter ")")
      (test_isDelimiter (by decide)).sees (test_isKeyword ["void"]) (fun t ht => ?_)
      fun _ hc hend => by rw [hc.ahead_succ hend])
    simp only [Token.isKeyword, Bool.and_eq_true, beq_iff_eq] at ht
    exact endsStmt_of_kind (by simp [ht.1])
  have hskip : skipVoid =
    (do if ← (do return (← get).emptyVoid) then discard advance else return ()) := rfl
  rw [hskip]
  exact hlook.bind fun _ => Keeps.ite (fun _ => inside_advance.discard) fun _ => Keeps.pure rfl

theorem inside_params (depth : Nat) : Stable True q (List.map Param.unplaced) (params depth) := by
  cases depth with
  | zero => exact Keeps.throw
  | succ depth =>
    have hgains : ∀ ts n, Eats ts False n Part (param depth) := fun _ _ =>
      (eats_param depth).weaken False.elim
    rw [params]
    exact (inside_expectDelimiter _).discard.bind fun _ => inside_skipVoid.bind fun _ =>
      (inside_commaTerminated (inside_delimiter ")") hgains hgains (inside_param depth)).bind
      fun ps =>
      (inside_expectDelimiter _).discard.bind fun _ => Keeps.pure rfl

theorem inside_unlessAt (close : String) (depth : Nat) :
    Stable True q (Option.map Expr.unplaced) (unlessAt close depth) :=
  (inside_delimiter _).bind fun _ => Keeps.ite (fun _ => Keeps.pure rfl) fun _ =>
    (inside_expression depth _).bind fun _ => Keeps.pure rfl

theorem inside_extentPart (depth : Nat) : Stable True q Extent.unplaced (extentPart depth) := by
  have hsize : Stable True q Extent.unplaced (sizePart depth) :=
    (inside_delimiter _).bind fun _ => Keeps.ite (fun _ => Keeps.pure rfl) fun _ =>
      (inside_expression depth _).bind fun _ => Keeps.pure rfl
  refine (inside_matchDelimiter _).bind fun _ => Keeps.ite (fun _ => ?_) fun _ => Keeps.pure rfl
  exact hsize.bind fun _ => (inside_expectDelimiter _).discard.bind fun _ => Keeps.pure rfl

theorem inside_initializerPart (depth : Nat) :
    Stable True q (Option.map Expr.unplaced) (initializerPart depth) :=
  (inside_matchOperator _).bind fun _ => Keeps.ite
    (fun _ => (inside_expression depth _).bind fun _ => Keeps.pure rfl) fun _ => Keeps.pure rfl

theorem inside_declarator (depth : Nat) (type : TypeExpr) (name : Token) :
    Inside True q Declarator.unplaced (declarator depth type name)
    (declarator depth type name.unplaced) := by
  cases depth with
  | zero => exact Keeps.throw
  | succ depth =>
    rw [declarator, declarator]
    exact (inside_extentPart depth).bind fun _ => (inside_initializerPart depth).bind fun _ =>
      Keeps.pure rfl

theorem inside_furtherDeclarator (depth : Nat) (type : TypeExpr) :
    Stable True q Declarator.unplaced (furtherDeclarator depth type) := by
  refine (inside_repeatWhile (fun _ _ => round_signs) (inside_peekOperator _) inside_advance).bind
    fun signs =>
    (inside_expectIdentifier _).bind fun name => ?_
  obtain ⟨hptrs, href⟩ := signs_placed q.twins.keep signs
  simp only [hptrs, href]
  exact inside_declarator depth _ name

theorem concludes_declarators (depth : Nat) (position : Position) (type : TypeExpr) (name : Token) :
    Concludes q Stmt.unplaced (declarators depth position type name)
      (declarators depth {} type name.unplaced) := by
  have hround : ∀ ts n, Round ts False n (matchDelimiter ",") (furtherDeclarator depth type) :=
    fun _ _ =>
    round_comma ((eats_furtherDeclarator depth type).weaken False.elim)
  refine (inside_declarator depth type name).concludes fun first => ?_
  refine (inside_repeatWhile hround (inside_matchDelimiter _)
    (inside_furtherDeclarator depth type)).concludes
    fun others => concludes_expectEnd.discard.bind fun _ => Keeps.pure ?_
  cases others with
  | nil => rfl
  | cons d ds => rfl

end Heads

/-! ### Statements of streams and jumps -/

theorem concludes_usingDirective : Conclusive q Stmt.unplaced usingDirective := by
  have hkw : ∀ t : Token, Inside True q id (namespaceKeyword t)
    (namespaceKeyword t.unplaced) := fun t =>
    (inside_peekKeyword _).bind fun _ => Keeps.ite (fun _ => Keeps.throw) fun _ =>
    inside_advance.discard
  rw [usingDirective]
  exact inside_advance.concludes fun t => (hkw t).concludes fun _ =>
    (inside_expectIdentifier _).concludes
    fun name => concludes_expectEnd.discard.bind fun _ => Keeps.pure rfl

theorem concludes_jumpStmt {build : Position → Stmt} (h : ∀ p, build {} = (build p).unplaced) :
    Conclusive q Stmt.unplaced (jumpStmt build) :=
  inside_advance.concludes fun _ => concludes_expectEnd.discard.bind fun _ => Keeps.pure (h _)

/-- A name in the standard namespace. -/
def Cursor.names (p : Token → Bool) (c : Cursor) : Bool :=
  (c.ahead 0).is .identifier "std" && (c.ahead 1).kind == .scope && p (c.ahead 2)

theorem sees_names {p : Token → Bool} (hp : ∀ t, p t.unplaced = p t) :
    q.twins.Sees (Cursor.names p) := by
  have hscope : q.twins.Sees fun c => (c.ahead 0).kind == .scope && p (c.ahead 1) :=
    (q.sees hp).behind (test_kind .scope (by decide))
    (fun t ht => endsStmt_of_kind (by simp [eq_of_beq ht]))
      fun _ hc hend => by rw [hc.ahead_succ hend]
  have hstd : q.twins.Sees fun c =>
      (c.ahead 0).is .identifier "std" && ((c.ahead 1).kind == .scope && p (c.ahead 2)) :=
    hscope.behind (test_is (by decide) (by decide)) (fun _ => endsStmt_of_isStd)
      fun _ hc hend => by rw [hc.ahead_succ hend, hc.ahead_succ hend]
  intro c c' hpair hc hneed
  rw [Cursor.names, Cursor.names, Bool.and_assoc, Bool.and_assoc]
  exact hstd c c' hpair hc hneed

/-- A stream word, plain or in the standard namespace, is looked at before it is consumed. -/
theorem matchStream_eq (word : String) : matchStream word = (do
    if ← peekKeyword [word] then
      let t ← advance
      return some t
    else if ← (do return (← get).names fun t => t.text == word) then
      let t ← advance
      discard advance
      discard advance
      return some t
    else return none) := by
  funext c
  rw [run_matchStream]
  change _ = (if (c.ahead 0).isKeyword [word] = true then _ else _ : Parser (Option Token)) c
  split
  · rfl
  · change _ = (if (c.names fun t => t.text == word) = true then _ else _ : Parser (Option Token)) c
    rw [Cursor.names]
    split
    · rfl
    · rfl

theorem inside_matchStream (word : String) :
    Stable True q (Option.map Token.unplaced) (matchStream word) := by
  have hstd : Stable True q id (do return (← get).names fun t => t.text == word) :=
    inside_look (fun _ => rfl) (sees_names fun _ => rfl)
  rw [matchStream_eq]
  refine (inside_peekKeyword _).bind fun _ => Keeps.ite
    (fun _ => inside_advance.bind fun t => Keeps.pure rfl) fun _ => ?_
  refine hstd.bind fun _ => Keeps.ite (fun _ => ?_) fun _ => Keeps.pure rfl
  exact inside_advance.bind fun t => inside_advance.discard.bind fun _ =>
    inside_advance.discard.bind fun _ =>
    Keeps.pure rfl

theorem inside_printPart (depth : Nat) : Stable True q Expr.unplaced (printPart depth) := by
  refine inside_advance.discard.bind fun _ => (inside_matchStream _).bind fun endl => ?_
  cases endl with
  | none => exact inside_expression depth _
  | some t => exact Keeps.pure rfl

theorem inside_streamSign (text : String) : Stable True q id (do return (← peek).is .stream text) :=
  inside_look (fun _ => rfl) (q.sees (r := (·.is .stream text)) fun _ => rfl)

theorem inside_printParts (depth : Nat) :
    Stable True q (List.map Expr.unplaced) (printParts depth) := by
  refine (inside_repeatWhile (fun _ _ => round_printPart False.elim) (inside_streamSign _)
    (inside_printPart depth)).bind fun parts => ?_
  cases parts with
  | nil => exact Keeps.failHere _
  | cons e es => exact Keeps.pure rfl

theorem concludes_printStmt (depth : Nat) (t : Token) :
    Concludes q Stmt.unplaced (printStmt depth t) (printStmt depth t.unplaced) := by
  cases depth with
  | zero => exact Concludes.throw
  | succ depth =>
    rw [printStmt, printStmt]
    exact (inside_printParts depth).concludes fun parts => concludes_expectEnd.discard.bind fun _ =>
      Keeps.pure rfl

theorem concludes_readStmt (depth : Nat) (t : Token) :
    Concludes q Stmt.unplaced (readStmt depth t) (readStmt depth t.unplaced) := by
  cases depth with
  | zero => exact Concludes.throw
  | succ depth =>
    have htgt : Stable True q Expr.unplaced (readTarget depth) :=
      inside_advance.discard.bind fun _ => inside_expression depth _
    exact (inside_repeatWhile (fun _ _ => round_readTarget False.elim) (inside_streamSign _)
      htgt).concludes
      fun targets => concludes_expectEnd.discard.bind fun _ => Keeps.pure rfl

theorem inside_condition (depth : Nat) : Stable True q Expr.unplaced (condition depth) := by
  cases depth with
  | zero => exact Keeps.throw
  | succ depth =>
    exact (inside_expectDelimiter _).discard.bind fun _ => (inside_expression depth _).bind fun _ =>
      (inside_expectDelimiter _).discard.bind fun _ => Keeps.pure rfl

theorem concludes_leaveStmt (depth : Nat) : Conclusive q Stmt.unplaced (leaveStmt depth) := by
  cases depth with
  | zero => exact Concludes.throw
  | succ depth =>
    rw [leaveStmt]
    exact inside_advance.concludes fun _ => (inside_unlessAt _ depth).concludes fun value =>
      concludes_expectEnd.discard.bind fun _ => Keeps.pure rfl

theorem concludes_expressionStmt (depth : Nat) :
    Conclusive q Stmt.unplaced (expressionStmt depth) := by
  cases depth with
  | zero => exact Concludes.throw
  | succ depth =>
    exact inside_token.concludes fun _ => (inside_expression depth _).concludes fun e =>
      concludes_expectEnd.discard.bind fun _ => Keeps.pure rfl

/-! ### Statements that hold statements -/

theorem inside_startsDeclaration : Stable True q id startsDeclaration := by
  have hlook : ∀ c, startsDeclaration c = .ok c.declares c := fun c => by
    have hrun := run_startsDeclaration (fun b => pure b) c
    rwa [bind_pure] at hrun
  refine inside_look hlook ?_
  rintro c _ rfl hc hhidden
  have hstd := sees_names (p := (·.isKeyword ("string" :: containerKeywords))) (fun _ => rfl) c _
    rfl hc hhidden
  have hname : q.twins.Sees fun c => (c.ahead 0).kind == .identifier &&
      ((c.ahead 1).kind == .identifier || (c.ahead 1).isOperator ["&", "*"]) :=
    (q.sees (r := fun t => t.kind == .identifier || t.isOperator ["&", "*"]) fun _ => rfl).behind
      (test_kind .identifier (by decide)) (fun t ht => endsStmt_of_kind (by simp [eq_of_beq ht]))
      fun _ hc hend => by rw [hc.ahead_succ hend]
  have hname := hname c _ rfl hc hhidden
  rw [Cursor.names, Cursor.names] at hstd
  rw [Cursor.declares, Cursor.declares, hstd]
  dsimp only at hname
  rw [hc.head_before (hhidden.imp_right hc.kind_ne)] at hname ⊢
  refine congrArg _ ?_
  change ((c.ahead 0).kind == .identifier && _) = ((c.ahead 0).kind == .identifier && _) at hname ⊢
  cases hkind : (c.ahead 0).kind == .identifier with
  | false => rfl
  | true =>
    rw [hkind, Bool.true_and, Bool.true_and] at hname
    rw [hname]
    rfl

theorem isFunction_unplaced (s : Stmt) : isFunction s.unplaced = isFunction s := by
  cases s <;> rfl

theorem inside_moreStmts : Stable True q id moreStmts := by
  refine (inside_delimiter _).bind fun _ => Keeps.ite (fun _ => Keeps.pure rfl) fun _ => ?_
  exact inside_atEnd.bind fun _ => Keeps.ite (fun _ => Keeps.failHere _) fun _ => Keeps.pure rfl

/-- The keyword of a second branch is looked for behind the end of a statement. -/
theorem firm_matchElse (hq : ∀ l ∈ q.tail.head?, l ≠ ⟨.keyword, "else"⟩) :
    Firm q id (matchKeyword ["else"]) (matchKeyword ["else"]) := by
  have hrun : ∀ c, matchKeyword ["else"] c =
      if (c.ahead 0).isKeyword ["else"] = true then .ok true c.next else .ok false c := by
    intro c
    change (if (c.ahead 0).isKeyword ["else"] = true then _ else _ : Parser Bool) c = _
    split <;> rfl
  intro c hc
  rw [hrun]
  by_cases hend : (c.ahead 0).kind = .endOfInput
  -- at the end of the tokens it is the added text that goes on, and not with `else`
  · have hhead : (c.before q).ahead 0 = (q.tail.head?.map Lexeme.token).getD
        (c.ahead 0).unplaced := by
      rw [Cursor.ahead, Cursor.rest_before (show c.rest = [] ++ [c.ahead 0] from hc.eq_end hend)]
      cases q.tail <;> rfl
    have helse : ((c.before q).ahead 0).isKeyword ["else"] = false := by
      rw [hhead]
      cases htail : q.tail.head? with
      | none => simp [Token.isKeyword, Token.unplaced, hend]
      | some l =>
        have hne := hq l htail
        obtain ⟨kind, text⟩ := l
        simp only [Option.map_some, Option.getD_some, Token.isKeyword, Lexeme.token,
          Bool.and_eq_false_imp,
          beq_iff_eq]
        rintro rfl
        simpa using hne
    have hno : (c.ahead 0).isKeyword ["else"] = false := by simp [Token.isKeyword, hend]
    rw [hno]
    refine ⟨.refl hc, ?_⟩
    rintro _ rfl _
    exact ⟨_, by rw [hrun, helse]; rfl, rfl⟩
  -- before the end both readings see the same token
  · have hhead := hc.head_before (q := q) (.inr hend)
    have hnext := hc.next_before (q := q) (.inr hend)
    split
    · next helse =>
      refine ⟨.next hc, ?_⟩
      rintro _ rfl _
      exact ⟨_, by rw [hrun, hhead, hnext, if_pos (by exact helse)]; rfl, rfl⟩
    · next helse =>
      refine ⟨.refl hc, ?_⟩
      rintro _ rfl _
      exact ⟨_, by rw [hrun, hhead, if_neg (by exact helse)]; rfl, rfl⟩

/-- The statements of a block without places. -/
def unplacedBlock (x : Position × List Stmt) : Position × List Stmt :=
  ({}, x.2.map Stmt.unplaced)

/-- The rules for statements keep their results. -/
structure ConcludesStmt (q : Sequel) (depth : Nat) : Prop where
  statement : Conclusive q Stmt.unplaced (statement depth)
  block : Conclusive q unplacedBlock (block depth)
  declaration : Conclusive q Stmt.unplaced (declaration depth)
  branchStmt : Conclusive q Stmt.unplaced (branchStmt depth)
  whileStmt : Conclusive q Stmt.unplaced (whileStmt depth)
  doStmt : Conclusive q Stmt.unplaced (doStmt depth)
  forStart : Stable True q (Option.map Stmt.unplaced) (forStart depth)
  forStmt : Conclusive q Stmt.unplaced (forStmt depth)

namespace ConcludesStmt

variable {depth : Nat}

theorem zero : ConcludesStmt q 0 := by
  constructor
  case statement => rw [Parse.statement]; exact Concludes.throw
  case block => rw [Parse.block]; exact Concludes.throw
  case declaration => rw [Parse.declaration]; exact Concludes.throw
  case branchStmt => rw [Parse.branchStmt]; exact Concludes.throw
  case whileStmt => rw [Parse.whileStmt]; exact Concludes.throw
  case doStmt => rw [Parse.doStmt]; exact Concludes.throw
  case forStart => rw [Parse.forStart]; exact Keeps.throw
  case forStmt => rw [Parse.forStmt]; exact Concludes.throw

theorem round_block (depth : Nat) (ts : List Token) (n : Nat) :
    Round ts False n moreStmts (Parse.statement depth) :=
  EatsStmt.round_moreStmts (((eatsStmt ts depth).statement n).weaken False.elim)

variable (h : ConcludesStmt q depth)

include h

theorem blockRest (p : Position) : Concludes q unplacedBlock
    (repeatWhile moreStmts (Parse.statement depth) >>= fun body => discard advance >>= fun _ =>
      pure (p, body))
    (repeatWhile moreStmts (Parse.statement depth) >>= fun body => discard advance >>= fun _ =>
      pure ({}, body)) := by
  have hinside := inside_repeatWhile (w := q) (round_block depth) inside_moreStmts
    h.statement.inside
  refine concludes_of_at fun c hc => ?_
  cases hbody : repeatWhile moreStmts (Parse.statement depth) c with
  | error e d =>
    rw [run_bind_error hbody]
    refine ⟨nofun, fun hq c' hpair => ?_⟩
    obtain ⟨e', d', hbody'⟩ := Keeps.error hinside hc hbody hq hpair
    exact ⟨e', d', run_bind_error hbody'⟩
  | ok body c₁ =>
    rw [run_bind_ok hbody]
    obtain ⟨honward, -⟩ := Keeps.ok hinside hc hbody
    obtain ⟨e, -, hmore⟩ := (round_block depth _ _).refused hc.stands hbody
    have hclose : endsStmt (c₁.ahead 0) = true := by
      simp [endsStmt, EatsStmt.isDelimiter_of_moreStmts hmore]
    have hends := Cursor.not_endless_of_head honward.ended hclose
    refine ⟨fun _ _ _ hendless => hends (hendless.suffix honward.suffix),
      honward.trans (.next honward.ended), ?_⟩
    rintro _ rfl _
    refine ⟨_, ?_, rfl⟩
    rw [run_bind_ok (Keeps.before hinside hc hbody (.inr hends)),
      ← honward.ended.next_before (.inr (honward.ended.kind_ne hends))]
    rfl

theorem block_succ : Conclusive q unplacedBlock (Parse.block (depth + 1)) := by
  rw [Parse.block]
  exact (inside_expectDelimiter _).concludes fun t => h.blockRest t.position

theorem functionBody (s : Signature) :
    Concludes q Stmt.unplaced (functionBody (Parse.block depth) s)
    (functionBody (Parse.block depth) s.unplaced) := by
  refine (inside_delimiter _).concludes fun _ => Concludes.ite (fun _ => ?_) fun _ => ?_
  · exact h.block.bind fun x => Keeps.pure (by simp [Stmt.unplaced])
  · exact concludes_matchEnd rfl _

theorem declarationRest (p : Position) (templateParams : List String) (type : TypeExpr)
    (name : Token) :
    Concludes q Stmt.unplaced (declarationRest depth (Parse.block depth) p templateParams type name)
      (declarationRest depth (Parse.block depth) {} templateParams type name.unplaced) := by
  refine (inside_delimiter _).concludes fun _ => Concludes.ite (fun _ => ?_) fun _ =>
    Concludes.ite (fun _ => ?_)
    fun _ => concludes_declarators depth p type name
  · exact (inside_params depth).concludes fun ps => h.functionBody _
  · exact ⟨fun _ _ _ _ hrun => (nomatch hrun), Keeps.fail (fun _ => ⟨_, _, rfl⟩) fun _ =>
      ⟨_, _, rfl⟩⟩

theorem declaration_succ : Conclusive q Stmt.unplaced (Parse.declaration (depth + 1)) := by
  rw [Parse.declaration]
  exact inside_token.concludes fun t => inside_templatePart.concludes fun names =>
    (inside_type depth).concludes
    fun type => (inside_expectIdentifier _).concludes fun name => h.declarationRest _ _ _ _

theorem elsePart (hq : ∀ l ∈ q.tail.head?, l ≠ ⟨.keyword, "else"⟩) :
    Firm q (Option.map Stmt.unplaced) (elsePart (Parse.statement depth))
    (elsePart (Parse.statement depth)) :=
  (firm_matchElse hq).bind fun _ =>
    Keeps.ite (fun _ => h.statement.firm.bind fun _ => Keeps.pure rfl)
    fun _ => Keeps.pure rfl

theorem branchStmt_succ (hq : ∀ l ∈ q.tail.head?, l ≠ ⟨.keyword, "else"⟩) :
    Conclusive q Stmt.unplaced (Parse.branchStmt (depth + 1)) := by
  rw [Parse.branchStmt]
  exact inside_advance.concludes fun t => (inside_condition depth).concludes fun c =>
    h.statement.bind fun s =>
    (h.elsePart hq).bind fun n => Keeps.pure (by simp [Stmt.unplaced, Token.placed, Sequel.twins])

theorem whileStmt_succ : Conclusive q Stmt.unplaced (Parse.whileStmt (depth + 1)) := by
  rw [Parse.whileStmt]
  exact inside_advance.concludes fun t => (inside_condition depth).concludes fun c =>
    h.statement.bind fun s =>
    Keeps.pure rfl

theorem doStmt_succ : Conclusive q Stmt.unplaced (Parse.doStmt (depth + 1)) := by
  rw [Parse.doStmt]
  exact inside_advance.concludes fun t => h.statement.inside.concludes fun s =>
    (inside_expectKeyword _).discard.concludes fun _ => (inside_condition depth).concludes fun c =>
    concludes_expectEnd.discard.bind fun _ => Keeps.pure rfl

theorem forStart_succ : Stable True q (Option.map Stmt.unplaced) (Parse.forStart (depth + 1)) := by
  have hdeclaration : Stable True q Stmt.unplaced (startDeclaration (Parse.declaration depth)) := by
    refine h.declaration.inside.bind fun s => ?_
    rw [isFunction_unplaced]
    exact Keeps.ite (fun _ => Keeps.fail (fun _ => ⟨_, _, rfl⟩) fun _ => ⟨_, _, rfl⟩) fun _ =>
      Keeps.pure rfl
  rw [Parse.forStart]
  refine (inside_test (inside_delimiter _)).bind fun _ =>
    Keeps.ite (fun _ => Keeps.pure rfl) fun _ => ?_
  refine inside_startsDeclaration.bind fun _ => Keeps.ite (fun _ => ?_) fun _ => ?_
  · exact hdeclaration.bind fun s => Keeps.pure rfl
  · exact (concludes_expressionStmt depth).inside.bind fun s => Keeps.pure rfl

theorem forStmt_succ : Conclusive q Stmt.unplaced (Parse.forStmt (depth + 1)) := by
  rw [Parse.forStmt]
  exact inside_advance.concludes fun t => (inside_expectDelimiter _).discard.concludes fun _ =>
    h.forStart.concludes fun start => (inside_unlessAt _ depth).concludes fun c =>
    (inside_expected (inside_delimiter _) _).discard.concludes fun _ =>
    (inside_unlessAt _ depth).concludes fun update =>
    (inside_expectDelimiter _).discard.concludes fun _ => h.statement.bind fun s =>
    Keeps.pure (by simp [Stmt.unplaced, Token.placed, Sequel.twins])

theorem keywordStmt (t : Token) :
    Concludes q Stmt.unplaced (keywordStmt depth t) (keywordStmt depth t.unplaced) := by
  unfold Parse.keywordStmt
  refine Concludes.ite (fun _ => h.branchStmt) fun _ =>
    Concludes.ite (fun _ => h.whileStmt) fun _ => ?_
  refine Concludes.ite (fun _ => h.doStmt) fun _ => Concludes.ite (fun _ => h.forStmt) fun _ => ?_
  refine Concludes.ite (fun _ => concludes_leaveStmt depth) fun _ => ?_
  refine Concludes.ite (fun _ => concludes_jumpStmt fun _ => rfl) fun _ => ?_
  refine Concludes.ite (fun _ => concludes_jumpStmt fun _ => rfl) fun _ => ?_
  refine Concludes.ite (fun _ => concludes_usingDirective) fun _ => ?_
  exact Concludes.ite (fun _ => Concludes.throw) fun _ => concludes_expressionStmt depth

theorem statement_succ : Conclusive q Stmt.unplaced (Parse.statement (depth + 1)) := by
  rw [Parse.statement_succ]
  refine concludes_of_at fun c hc => ConcludesAt.peek hc ?_
  refine ConcludesAt.ite (fun _ => Concludes.at ?_ hc) fun _ => ?_
  · exact h.block.bind fun x => Keeps.pure (by simp [Stmt.unplaced])
  refine ConcludesAt.ite (fun hkind => ?_) fun _ => ?_
  · rw [beq_iff_eq] at hkind
    exact ConcludesAt.token hc (by simp [endsStmt, hkind]) fun _ => rfl
  refine ConcludesAt.ite (fun hhead => ?_) fun _ => ?_
  · exact ConcludesAt.token (f := fun _ => Stmt.block (c.ahead 0).position [])
      (k := fun _ => Stmt.block {} []) hc (by simp [endsStmt, hhead]) fun _ => rfl
  refine Concludes.at ?_ hc
  refine inside_startsDeclaration.concludes fun _ =>
    Concludes.ite (fun _ => h.declaration) fun _ => ?_
  refine (inside_matchStream _).concludes fun cout => ?_
  cases cout with
  | some cout => exact concludes_printStmt depth cout
  | none =>
    refine (inside_matchStream _).concludes fun cin => ?_
    cases cin with
    | some cin => exact concludes_readStmt depth cin
    | none => exact h.keywordStmt _

end ConcludesStmt

/-- **Statements keep their results** when tokens follow that do not begin with the keyword of a
second branch. -/
theorem concludesStmt (hq : ∀ l ∈ q.tail.head?, l ≠ ⟨.keyword, "else"⟩) (depth : Nat) :
    ConcludesStmt q depth := by
  induction depth with
  | zero => exact .zero
  | succ depth ih =>
    exact ⟨ih.statement_succ, ih.block_succ, ih.declaration_succ, ih.branchStmt_succ hq,
      ih.whileStmt_succ, ih.doStmt_succ, ih.forStart_succ, ih.forStmt_succ⟩

end SmallCpp.Parse
