import SmallCpp.Proofs.Parse.ConsumedStmt

/-!
# Parsing makes progress

Every rule of the grammar reads forward, and the rules that read something consume a token.  So a
loop of the grammar ends because there are no more tokens and not because its rounds are bounded,
the number of rules in progress is bounded by the tokens ahead, and a program is read up to the end
of its tokens.

## Main results

* `parsing_progresses` — **parsing terminates and makes progress** on all tokens of a source.
-/

namespace SmallCpp.Parse

variable {room : Prop} {c : Cursor} {tokens : List Token}

variable {α β σ τ : Type}

/-! ### The loops of the grammar -/

/-- The list of items that is read from `c` ends where no item follows. -/
def ListEnds (more : Parser Bool) (item : Parser α) (c : Cursor) : Prop :=
  Ends (itemStep more item) [] c (repeatWhile more item c)

theorem Round.listEnds {more : Parser Bool} {item : Parser α}
    (h : Round c.rest False c.rest.length more item) (hc : c.Ended) : ListEnds more item c :=
  h.ends hc.stands

/-- Every loop of the grammar ends when it is started at `c`, where no further item or part
follows. -/
structure LoopsEnd (depth : Nat) (c : Cursor) : Prop where
  program : ListEnds (do return !(← atEnd)) (statement depth) c
  block : ListEnds
    (do
      if ← peekDelimiter "\x7d" then return false
      else if ← atEnd then failHere "'\x7d'"
      else return true) (statement depth) c
  params : ListEnds
    (do if ← matchDelimiter "," then return !(← peekDelimiter ")") else return false)
    (param depth) c
  templateParams : ListEnds (matchDelimiter ",") templateParam c
  arguments : ListEnds (matchDelimiter ",") (expression depth assignPower) c
  elements : ∀ close, ListEnds
    (do if ← matchDelimiter "," then return !(← peekDelimiter close) else return false)
    (expression depth assignPower) c
  genericArgs : ListEnds (do if (← get).splitCloser then return false else matchDelimiter ",")
    (typeExpr depth) c
  declarators : ∀ type, ListEnds (matchDelimiter ",") (furtherDeclarator depth type) c
  modifiers : ListEnds (peekKeyword ["const", "static"])
    (do
      let t ← advance
      return if t.text == "const" then Modifier.const else .static) c
  aliases : ListEnds (do return isIntegerAlias (← peek)) advance c
  typeSigns : ListEnds (do return !(← get).splitCloser && (← peekOperator ["*", "&"])) advance c
  signs : ListEnds (peekOperator ["*", "&"]) advance c
  printed : ListEnds (do return (← peek).is .stream "<<") (printPart depth) c
  targets : ListEnds (do return (← peek).is .stream ">>") (readTarget depth) c
  operators : ∀ least left, Ends (operatorStep (expression depth) least) left c
    (climb (expression depth) least left c)
  suffixes : ∀ e, Ends (suffixStep (Parse.arguments depth) (expression depth assignPower)) e c
    (suffixes (depth + 1) e c)

theorem round_program (ts : List Token) (depth n : Nat) :
    Round ts False n (do return !(← atEnd)) (statement depth) :=
  .of_item (.looking (fun _ => rfl) fun _ => .pure _)
    (((eatsStmt ts depth).statement n).weaken False.elim)

theorem loopsEnd (depth : Nat) (hc : c.Ended) : LoopsEnd depth c := by
  have hexpr : ∀ n least, Eats c.rest False n Opening (expression depth least) := fun n least =>
    ((eatsExpr _ depth).expression n least).weaken False.elim
  have helem : Eats c.rest False c.rest.length Part (expression depth assignPower) :=
    (hexpr _ _).part
  constructor
  case program => exact (round_program _ depth _).listEnds hc
  case block =>
    exact (EatsStmt.round_moreStmts (((eatsStmt _ depth).statement _).weaken False.elim)).listEnds
      hc
  case params => exact (round_moreBefore ")" ((eats_param depth).weaken False.elim)).listEnds hc
  case templateParams => exact (round_comma eats_templateParam).listEnds hc
  case arguments => exact (round_comma helem).listEnds hc
  case elements => exact fun close => (round_moreBefore close helem).listEnds hc
  case genericArgs =>
    exact (round_moreArgs (((eats_typeExpr depth).1 _).weaken False.elim)).listEnds hc
  case declarators =>
    exact fun type =>
      (round_comma ((eats_furtherDeclarator depth type).weaken False.elim)).listEnds hc
  case signs => exact round_signs.listEnds hc
  case modifiers => exact round_modifiers.listEnds hc
  case typeSigns => exact round_typeSigns.listEnds hc
  case aliases => exact round_integerAlias.listEnds hc
  case printed => exact (round_printPart False.elim).listEnds hc
  case targets => exact (round_readTarget False.elim).listEnds hc
  case operators =>
    intro least left
    exact (rounds_operator least fun k => hexpr _ k).ends (c.size + 1) left c hc.stands
      (Nat.lt_succ_of_le hc.within)
  case suffixes =>
    intro e
    have hrounds : Rounds c.rest False c.rest.length
        (suffixStep (Parse.arguments depth) (expression depth assignPower)) :=
      rounds_suffix (((eatsExpr _ depth).arguments _).weaken False.elim) fun m _ => hexpr m _
    exact hrounds.ends (c.size + 1) e c hc.stands (Nat.lt_succ_of_le hc.within)

/-! ### Rules that move on -/

/-- The tokens ahead are the last ones of `tokens`, and there are some. -/
structure Cursor.Within (tokens : List Token) (c : Cursor) : Prop where
  ne_nil : c.rest ≠ []
  suffix : c.rest <:+ tokens
  bounded : c.rest.length ≤ c.size

/-- A rule that was started at `c` and gave the result has consumed a token if it returned.  It
stayed within the tokens in any case, and it did not run into the nesting limit if there was
`room`. -/
def Advances (tokens : List Token) (room : Prop) (c : Cursor) :
    EStateM.Result Failure Cursor α → Prop
  | .ok _ c' => c'.Within tokens ∧ c'.rest.length < c.rest.length
  | .error e c' => c'.Within tokens ∧ c'.rest.length ≤ c.rest.length ∧ (room → e ≠ .tooDeep)

/-- Every rule moves on when it is started at `c`.  There is room for it if the number of rules that
may be in progress is eight for each token ahead, and six. -/
structure RulesAdvance (tokens : List Token) (depth : Nat) (c : Cursor) : Prop where
  statement : Advances tokens (Room 6 depth c) c (statement depth c)
  block : Advances tokens (Room 6 depth c) c (block depth c)
  declaration : Advances tokens (Room 6 depth c) c (declaration depth c)
  type : Advances tokens (Room 6 depth c) c (typeExpr depth c)
  param : Advances tokens (Room 6 depth c) c (param depth c)
  params : Advances tokens (Room 6 depth c) c (params depth c)
  templateParam : Advances tokens (Room 6 depth c) c (templateParam c)
  expression : ∀ least, Advances tokens (Room 6 depth c) c (expression depth least c)
  unary : Advances tokens (Room 6 depth c) c (unary depth c)
  primary : Advances tokens (Room 6 depth c) c (primary depth c)
  arguments : Advances tokens (Room 6 depth c) c (arguments depth c)

section Within

variable {c' : Cursor}

/-- The tokens end with the only token of class `endOfInput`. -/
def EndsOnce (tokens : List Token) : Prop :=
  ∃ ts t, tokens = ts ++ [t] ∧ t.kind = .endOfInput ∧ ∀ x ∈ ts, x.kind ≠ .endOfInput

theorem Cursor.Within.ended (h : c.Within tokens) (htoks : EndsOnce tokens) : c.Ended := by
  refine ⟨?_, h.bounded⟩
  obtain ⟨ts, t, rfl, ht, hts⟩ := htoks
  obtain ⟨front, hfront⟩ := h.suffix
  obtain ⟨us, u, hrest⟩ := List.eq_nil_or_concat' c.rest |>.resolve_left h.ne_nil
  rw [hrest, ← List.append_assoc] at hfront
  obtain ⟨rfl, hlast⟩ := List.append_inj' hfront rfl
  cases hlast
  exact ⟨us, t, hrest, ht, fun x hx => hts x (List.mem_append_right front hx)⟩

theorem Cursor.Within.behind (h : c.Within tokens) {used : List Token} (hused : c.Behind used c') :
    c'.Within tokens where
  ne_nil := hused.ended.ne_nil
  suffix := (List.suffix_append used c'.rest).trans (hused.rest ▸ h.suffix)
  bounded := hused.ended.within

theorem Cursor.Within.stands (h : c.Within tokens) (htoks : EndsOnce tokens) :
    c.Stands tokens c.rest.length :=
  ⟨h.ended htoks, h.suffix.subset, Nat.le_refl _⟩

theorem Consumes.advances {P : List Token → Prop} [Counts P] {r : EStateM.Result Failure Cursor α}
    (h : Consumes tokens room c P r) (hc : c.Within tokens) : Advances tokens room c r := by
  cases r with
  | ok a c' =>
    obtain ⟨used, hused, hused'⟩ := h
    have hlen := hused.length
    have hpos := (Counts.part hused').length_pos
    exact ⟨hc.behind hused, by omega⟩
  | error e c' =>
    obtain ⟨⟨used, hused⟩, he, -⟩ := h
    have hlen := hused.length
    exact ⟨hc.behind hused, by omega, he⟩

/-- The rule moves on, with room for the rules that it uses. -/
theorem Eats.advances {k depth : Nat} {P : List Token → Prop} [Counts P] {rule : Parser α}
    (h : ∀ n, Eats tokens (Fits k depth n) n P rule) (hk : k ≤ 6) (hc : c.Within tokens)
    (htoks : EndsOnce tokens) : Advances tokens (Room 6 depth c) c (rule c) := by
  refine Consumes.advances ((h _ c (hc.stands htoks)).weaken fun hroom => ?_) hc
  unfold Room at hroom
  unfold Fits
  omega

theorem rulesAdvance (depth : Nat) (hc : c.Within tokens) (htoks : EndsOnce tokens) :
    RulesAdvance tokens depth c := by
  have hexpr := eatsExpr tokens depth
  have hstmt := eatsStmt tokens depth
  constructor
  case statement => exact Eats.advances hstmt.statement (by decide) hc htoks
  case block => exact Eats.advances hstmt.block (by decide) hc htoks
  case declaration => exact Eats.advances hstmt.declaration (by decide) hc htoks
  case type => exact Eats.advances (eats_typeExpr depth).1 (by decide) hc htoks
  case param => exact Eats.advances (fun _ => eats_param depth) (by decide) hc htoks
  case params => exact Eats.advances (fun _ => eats_params depth) (by decide) hc htoks
  case templateParam => exact (eats_templateParam c (hc.stands htoks)).advances hc
  case expression =>
    exact fun least => Eats.advances (hexpr.expression · least) (by decide) hc htoks
  case unary => exact Eats.advances hexpr.unary (by decide) hc htoks
  case primary => exact Eats.advances hexpr.primary (by decide) hc htoks
  case arguments => exact Eats.advances hexpr.arguments (by decide) hc htoks

end Within

/-! ### Programs -/

/-- The tokens of a source end with the only token of class `endOfInput`. -/
theorem endsOnce_of_tokenize {source : Source} (h : source.tokenize = .ok tokens) :
    EndsOnce tokens := by
  obtain ⟨ts, rfl, hts⟩ := Source.split_of_tokenize h
  exact ⟨ts, _, rfl, rfl, fun t ht => (hts t ht).1⟩

theorem rest_start (h : EndsOnce tokens) : (Cursor.start tokens).rest = tokens := by
  obtain ⟨ts, t, rfl, ht, -⟩ := h
  simp [Cursor.start, ended, ht]

theorem within_start (h : EndsOnce tokens) : (Cursor.start tokens).Within tokens where
  ne_nil := by
    rw [rest_start h]
    obtain ⟨ts, t, rfl, -⟩ := h
    simp
  suffix := ⟨[], by rw [List.nil_append, rest_start h]⟩
  bounded := Nat.le_refl _

theorem rest_of_statements (h : EndsOnce tokens) {body : List Stmt}
    (hrun : statements (Cursor.start tokens) = .ok body c) :
    ∃ front last, tokens = front ++ [last] ∧ last.kind = .endOfInput ∧ c.rest = [last] := by
  have hstart := within_start h
  have hstands := hstart.stands h
  have hround := round_program tokens deepest (Cursor.start tokens).rest.length
  obtain ⟨d, hd, hmore⟩ := hround.refused hstands hrun
  have hconsumes := hround.eats_repeatWhile _ hstands
  rw [show repeatWhile _ _ _ = _ from hrun] at hconsumes
  obtain ⟨used, hused, -⟩ := hconsumes
  obtain ⟨hrefused, rfl⟩ := EStateM.Result.ok.inj hmore
  have hend : (d.ahead 0).kind = .endOfInput := by simpa using hrefused
  have hrest := hused.ended.eq_end hend
  obtain ⟨front, hfront⟩ := (hstart.behind hused).suffix
  exact ⟨front, d.ahead 0, by rw [← hfront, ← hrest], hend, hrest⟩

/-- The program of a source is what its statements are read as. -/
theorem statements_of_parse {source : Source} (h : source.tokenize = .ok tokens) {program : Program}
    (hparse : source.parse = .ok program) :
    ∃ c, statements (Cursor.start tokens) = .ok program.body c := by
  rw [Source.parse, Source.parseWith, h] at hparse
  dsimp only at hparse
  rw [runOn] at hparse
  cases hrun : statements (Cursor.start tokens) with
  | ok body c =>
    rw [hrun] at hparse
    cases hparse
    exact ⟨c, rfl⟩
  | error e c =>
    rw [hrun] at hparse
    cases e with
    | error cause position => cases hparse
    | fault fault => cases hparse
    | tooDeep => cases hparse

end SmallCpp.Parse

namespace SmallCpp

open Parse

theorem exists_of_isOk {ε : Type} {x : Except ε α} (h : x.isOk = true) : ∃ a, x = .ok a := by
  cases x with
  | ok a => exact ⟨a, rfl⟩
  | error e => cases h

/-- **Parsing terminates and makes progress.**  From every state within the tokens of a source, each
rule that returns has consumed a token, no rule moves past the end, and the number of rules in
progress is bounded by the tokens ahead.  Each loop of the grammar ends where no further item
follows, whatever the bound on its rounds.  A program is returned only if the end is the one token
ahead. -/
theorem parsing_progresses {source : Source} {tokens : List Token}
    (h : source.tokenize = .ok tokens) :
    (∀ depth c, c.Within tokens → RulesAdvance tokens depth c ∧ LoopsEnd depth c) ∧
    (Cursor.start tokens).Within tokens ∧
    ∀ program, source.parse = .ok program →
      ∃ c front last, statements (Cursor.start tokens) = .ok program.body c ∧
        tokens = front ++ [last] ∧ last.kind = .endOfInput ∧ c.rest = [last] := by
  have htoks := endsOnce_of_tokenize h
  refine ⟨fun depth c hc => ?_, within_start htoks, fun program hparse => ?_⟩
  · exact ⟨rulesAdvance depth hc htoks, loopsEnd depth (hc.ended htoks)⟩
  · obtain ⟨c, hrun⟩ := statements_of_parse h hparse
    obtain ⟨front, last, hsplit, hkind, hrest⟩ := rest_of_statements htoks hrun
    exact ⟨c, front, last, hrun, hsplit, hkind, hrest⟩

/-- All lists at once: parameters, generic arguments that a double sign closes, a block, arguments,
elements with a comma behind the last one, variables and suffixes. -/
theorem parsing_progresses_lists :
    let source := Source.ofText
      "int g(vector<map<int, T>> a, int b[]) \x7b f(-a[b]++, \x7bb,\x7d); int *x = b, y; \x7d"
      "<input>"
    ∃ tokens program, source.tokenize = .ok tokens ∧ source.parse = .ok program ∧
      (∀ depth, RulesAdvance tokens depth (Cursor.start tokens) ∧
      LoopsEnd depth (Cursor.start tokens)) ∧
      ∃ c front last, statements (Cursor.start tokens) = .ok program.body c ∧
        tokens = front ++ [last] ∧ last.kind = .endOfInput ∧ c.rest = [last] := by
  intro source
  have hlexed : source.tokenize.isOk = true := by decide +kernel
  have hparsed : source.parse.isOk = true := by decide +kernel
  obtain ⟨tokens, htoks⟩ := exists_of_isOk hlexed
  obtain ⟨program, hprog⟩ := exists_of_isOk hparsed
  obtain ⟨hmoves, hstart, hends⟩ := parsing_progresses htoks
  exact ⟨tokens, program, htoks, hprog, fun depth => hmoves depth _ hstart, hends program hprog⟩

end SmallCpp
