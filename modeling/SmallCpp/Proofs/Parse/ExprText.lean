import SmallCpp.Proofs.Parse.Words

/-!
# Texts of expressions are read back

An operand of a text is read as a first part and the calls, subscripts and members behind it.  Its
tree grows from the inside, while the tree of the expression is taken apart from the outside, so
what is shown of an expression is what happens when it has been read and the suffixes behind it are
still ahead.  Reading has a bound on the number of rules in progress; how many a text takes is a
function of the expression, and below that number reading stops at the bound.

## Main results

* `readBack_of_writable` — **a writable expression is read from its lexemes.**
* `expression_roundtrip` — **the text of an expression that was read is read as the same
  expression.** -/

namespace SmallCpp

open Lexical Parse

variable {args es : List Expr} {field text close : String} {c : Cursor} {t : Token}
  {e o r i b : Expr} {value : Literal} {depth : Nat} {ls rest : List Lexeme} {access : Access}
  {l : Lexeme}

/-! ### Expressions without their places -/

/-- The literal without the spelling of an integer. -/
def Literal.bare : Literal → Literal
  | int value _ => int value ""
  | value => value

namespace Expr

mutual

/-- The expression without its positions and the spelling of its integers. -/
@[simp]
def bare : Expr → Expr
  | literal _ value => literal {} value.bare
  | name _ id => name {} id
  | unary _ op operand => unary {} op (bare operand)
  | step _ op operand => step {} op (bare operand)
  | binary _ op left right => binary {} op (bare left) (bare right)
  | assign _ op target value => assign {} op (bare target) (bare value)
  | call _ callee args => call {} (bare callee) (bareList args)
  | member _ object access field => member {} (bare object) access field
  | index _ object subscript => index {} (bare object) (bare subscript)
  | new _ type => new {} type
  | newArray _ type size => newArray {} type (bare size)
  | braces _ elements => braces {} (bareList elements)
  | endl _ => endl {}

/-- Several expressions without their positions and the spelling of their integers. -/
def bareList : List Expr → List Expr
  | [] => []
  | e :: es => bare e :: bareList es

end

theorem bareList_eq_map (es : List Expr) : bareList es = es.map bare := by
  induction es with
  | nil => rfl
  | cons e es ih => rw [bareList, ih, List.map_cons]

theorem bare_node (p : Position) (joint : Joint) (l r : Expr) :
    (joint.node p l r).bare = joint.node {} l.bare r.bare := by
  cases joint <;> rw [Joint.node, bare, Joint.node]

theorem build_eq_node (joint : Joint) (l r : Expr) :
    joint.build l r = joint.node l.position l r := by
  cases joint <;> rfl

/-! ### The number of rules in progress -/

mutual

/-- The number of rules that reading the text of an operand has in progress at once. -/
@[simp]
def nesting : Expr → Nat
  | literal _ _ | name _ _ | endl _ | new _ _ => 1
  -- The parentheses, the expression between them, the operator, and the operand behind it.
  | unary _ _ operand => nesting operand + 4
  | step _ _ operand => nesting operand + 3
  | binary _ _ left right | assign _ _ left right => max (nesting left + 3) (nesting right + 4)
  -- The callee is read before the arguments, and nothing of it is in progress then.
  | call _ callee args => max (nesting callee) (listNesting args + 2)
  | member _ object _ _ => nesting object
  | index _ object subscript => max (nesting object) (nesting subscript + 3)
  | newArray _ _ size => nesting size + 3
  | braces _ elements => listNesting elements + 2

/-- The number of rules for several expressions. -/
def listNesting : List Expr → Nat
  | [] => 0
  | e :: es => max (nesting e + 2) (listNesting es)

end

theorem nesting_node (p : Position) (joint : Joint) (l r : Expr) :
    (joint.node p l r).nesting = max (l.nesting + 3) (r.nesting + 4) := by
  cases joint <;> rw [Joint.node, nesting]

theorem listNesting_le_iff {n : Nat} : listNesting es ≤ n ↔ ∀ e ∈ es, e.nesting + 2 ≤ n := by
  induction es with
  | nil => simp [listNesting]
  | cons e es ih => rw [listNesting, Nat.max_le, ih, List.forall_mem_cons]

theorem nesting_pos (e : Expr) : 0 < e.nesting := by
  induction e using Expr.rec (motive_2 := fun _ => True) with
  | member p o access field ih => rwa [nesting]
  | nil | cons => trivial
  | _ => simp only [nesting]; omega

end Expr

namespace Parse

theorem Cursor.Sees.behind (h : c.Sees (bracket text :: ls)) : c.next.Sees ls :=
  h.next nofun

/-! ### Where expressions begin and end -/

/-- The lexeme begins an expression: it is neither an operator nor a closing bracket. -/
structure Leads (l : Lexeme) : Prop where
  not_operator : l.kind ≠ .operator
  not_closing : l ∉ [bracket ")", bracket "\x7d"]

/-- The lexeme ends an expression: it is a closing bracket, a comma or the end. -/
def Closes (l : Lexeme) : Prop :=
  l ∈ [bracket ")", bracket "]", bracket "\x7d", bracket ",", endLexeme]

theorem closes_bracket (h : text ∈ [")", "]", "\x7d", ","]) : Closes (bracket text) :=
  List.mem_append_left [endLexeme] (List.mem_map_of_mem h)

theorem isDelimiter_of_bracket (h : t.lexeme = bracket text) : t.isDelimiter text = true := by
  rw [isDelimiter_of_lexeme h]
  simp [bracket]

theorem run_expectBracket (h : (c.ahead 0).lexeme = bracket text) :
    discard (expectDelimiter text) c = .ok () c.next :=
  run_discard (run_expectDelimiter (isDelimiter_of_bracket h))

theorem Leads.unaryOp?_eq_none (h : Leads l) (ht : t.lexeme = l) : unaryOp? t = none := by
  subst ht
  have hkind : t.kind ≠ .operator := h.not_operator
  exact if_neg (by simpa using hkind)

theorem Leads.isDelimiter_eq_false (h : Leads l) (ht : t.lexeme = l) (close : String)
    (hclose : close ∈ [")", "\x7d"]) : t.isDelimiter close = false := by
  rw [isDelimiter_of_lexeme ht, ← Bool.not_eq_true]
  intro hdel
  have hl : l = bracket close := by
    obtain ⟨kind, text⟩ := l
    simpa [bracket] using hdel
  rw [hl] at h
  exact h.not_closing (List.mem_map_of_mem hclose)

theorem Closes.endsOperand (h : Closes l) (ht : t.lexeme = l) : EndsOperand t := by
  obtain ⟨kind, text, offset, position⟩ := t
  simp only [Closes, List.mem_cons, List.not_mem_nil, or_false] at h
  rcases h with rfl | rfl | rfl | rfl | rfl <;> cases ht <;> exact ⟨rfl, rfl, rfl, rfl⟩

theorem Closes.ofToken?_eq_none (h : Closes l) (ht : t.lexeme = l) :
    Joint.ofToken? t = .ok none := by
  obtain ⟨kind, text, offset, position⟩ := t
  simp only [Closes, List.mem_cons, List.not_mem_nil, or_false] at h
  rcases h with rfl | rfl | rfl | rfl | rfl <;> cases ht <;> rfl

/-! ### Parts of the rules -/

/-- A rule that stops at once without room takes one more than what it does then. -/
theorem Reads.begun {α : Type} (rule : Nat → Parser α) (hzero : rule 0 = throw .tooDeep) {k : Nat}
    {Q : α → Cursor → Prop} (h : ∀ d, depth = d + 1 → Reads (k ≤ d) (rule (d + 1)) c Q) :
    Reads (k + 1 ≤ depth) (rule depth) c Q := by
  cases depth with
  | zero =>
    rw [hzero]
    exact Reads.tooDeep.congr (by simp)
  | succ d => exact (h d rfl).congr (by omega)

/-- The expression that was read is `b`, and `ls` is ahead. -/
def Got (b : Expr) (ls : List Lexeme) (e : Expr) (c : Cursor) : Prop :=
  e.bare = b ∧ c.Sees ls

section Rules

variable {k : Nat}

theorem reads_expression_of_unary (hl : Closes l)
    (h : ∀ d, depth = d + 1 → Reads (k ≤ d) (unary d) c (Got b (l :: rest))) (least : Nat) :
    Reads (k + 1 ≤ depth) (expression depth least) c (Got b (l :: rest)) := by
  refine Reads.begun (fun d => expression d least) (by simp only [expression]) ?_
  intro d hd
  simp only [expression]
  refine (h d hd).bind_ok fun e c' he => ⟨e, c', ?_, he⟩
  -- The climbing ends at once, since the token behind the operand is no operator.
  rw [climb, run_get]
  exact operators_of_none (hl.ofToken?_eq_none he.2.head) _ e

theorem reads_parentheses {p : Prop} (hc : c.Sees (bracket "(" :: (ls ++ bracket ")" :: rest)))
    (h : ∀ c', c'.Sees (ls ++ bracket ")" :: rest) →
      Reads p (expression depth assignPower) c' (Got b (bracket ")" :: rest))) :
    Reads p (primary (depth + 1)) c (Got b rest) := by
  have hhead := hc.head
  have hlit : literal? (c.ahead 0) = .ok none := by
    rw [literal?, show (c.ahead 0).kind = .delimiter from congrArg Lexeme.kind hhead]
  have hrun : primary (depth + 1) c = (expression depth assignPower >>= fun e =>
      discard (expectDelimiter ")") >>= fun _ => pure e) c.next := by
    rw [primary, run_peek, hlit, run_orFault_ok]
    simp only [isKeyword_of_lexeme hhead, isDelimiter_of_lexeme hhead]
    rw [show (c.ahead 0).kind = .delimiter from congrArg Lexeme.kind hhead]
    rfl
  refine Reads.run ((h c.next (hc.behind)).bind_ok fun e c' he => ?_) hrun
  refine ⟨e, c'.next, ?_, he.1, he.2.behind⟩
  rw [run_bind_ok (run_expectBracket he.2.head)]
  rfl

/-- At most `n` suffixes behind an operand. -/
abbrev suffixesUpTo (depth n : Nat) (e : Expr) : Parser Expr :=
  stepUpTo (suffixStep (arguments depth) (expression depth assignPower)) n e

/-- What the suffixes behind an operand do: they go on from `b` with `rest` ahead. -/
def Continues (depth : Nat) (b : Expr) (rest : List Lexeme) (q : Prop)
    (R : Expr → Cursor → Prop) : Prop :=
  ∀ e c n, e.bare = b → c.Sees rest → rest.length < n →
    Reads q (suffixesUpTo depth n e) c R

theorem continues_of_endsOperand (hl : ∀ t : Token, t.lexeme = l → EndsOperand t) :
    Continues depth b (l :: rest) True (Got b (l :: rest)) :=
  fun e _ n he hc _ =>
    Reads.of_ok (suffixes_of_endsOperand (hl _ hc.head) n e) ⟨he, hc⟩

end Rules

end Parse

/-- The operand is read from its lexemes: its first lexeme begins an expression, and if the suffixes
behind it go on from there, so do the rules for an operand. -/
structure Expr.ReadBack (e : Expr) : Prop where
  opens : ∃ l ls, e.lexemes = l :: ls ∧ Leads l
  reads : ∀ {depth : Nat} {c : Cursor} {rest : List Lexeme} {q : Prop} {R : Expr → Cursor → Prop},
    c.Sees (e.lexemes ++ rest) → Continues depth e.bare rest q R →
    Reads (e.nesting ≤ depth + 1 ∧ q) (primary (depth + 1) >>= suffixes (depth + 1)) c R

namespace Expr

theorem readBack_of_primary (hopens : ∃ l ls, e.lexemes = l :: ls ∧ Leads l)
    (h : ∀ {depth : Nat} {c : Cursor} {rest : List Lexeme}, c.Sees (e.lexemes ++ rest) →
      Reads (e.nesting ≤ depth + 1) (primary (depth + 1)) c (Got e.bare rest)) : e.ReadBack := by
  refine ⟨hopens, ?_⟩
  intro depth c rest q R hc hcontinues
  refine (h hc).bind fun e' c' _ he' => ?_
  have hrun : suffixes (depth + 1) e' c' = suffixesUpTo depth (c'.size + 1) e' c' := by
    rw [suffixes, run_get]
  exact Reads.run (hcontinues e' c' _ he'.1 he'.2 (Nat.lt_succ_of_le he'.2.length_le)) hrun

theorem ReadBack.reads_unary (h : e.ReadBack) (hc : c.Sees (e.lexemes ++ rest)) {q : Prop}
    {R : Expr → Cursor → Prop} (hcontinues : ∀ d, depth = d + 2 → Continues d e.bare rest q R) :
    Reads (e.nesting + 1 ≤ depth ∧ q) (Parse.unary depth) c R := by
  obtain ⟨l, ls, hlexemes, hl⟩ := h.opens
  have hhead : (c.ahead 0).lexeme = l := by
    rw [hlexemes] at hc
    exact hc.head
  cases depth with
  | zero =>
    rw [Parse.unary]
    exact Reads.tooDeep.congr (by simp)
  | succ d =>
    have hrun : Parse.unary (d + 1) c = (primary d >>= suffixes d) c := by
      rw [Parse.unary, run_peek, hl.unaryOp?_eq_none hhead]
    refine Reads.run ?_ hrun
    cases d with
    | zero =>
      have hpos := e.nesting_pos
      have hthrow : primary 0 >>= suffixes 0 = throw .tooDeep := by
        rw [primary]
        rfl
      rw [hthrow]
      exact Reads.tooDeep.congr ⟨False.elim, fun hle => absurd hle.1 (by omega)⟩
    | succ d => exact (h.reads hc (hcontinues d rfl)).congr (and_congr_left fun _ => by omega)

theorem ReadBack.reads_operand (h : e.ReadBack) (hc : c.Sees (e.lexemes ++ l :: rest))
    (hl : ∀ t : Token, t.lexeme = l → EndsOperand t) (depth : Nat) :
    Reads (e.nesting + 1 ≤ depth) (Parse.unary depth) c (Got e.bare (l :: rest)) := by
  have hunary : Reads (e.nesting + 1 ≤ depth ∧ True) (Parse.unary depth) c
      (Got e.bare (l :: rest)) :=
    h.reads_unary hc fun _ _ => continues_of_endsOperand hl
  exact hunary.congr (and_iff_left trivial)

theorem ReadBack.reads_expression (h : e.ReadBack) (hc : c.Sees (e.lexemes ++ l :: rest))
    (hl : Closes l) (depth least : Nat) :
    Reads (e.nesting + 2 ≤ depth) (expression depth least) c (Got e.bare (l :: rest)) :=
  reads_expression_of_unary hl
    (fun d _ => h.reads_operand hc (fun _ ht => hl.endsOperand ht) d) least

/-! ### Operators -/

theorem opens_parenthesis : Leads (bracket "(") :=
  ⟨nofun, by decide⟩

theorem opens_brace : Leads (bracket "\x7b") :=
  ⟨nofun, by decide⟩

theorem unaryOp?_of_lexeme {op : UnaryOp} (h : t.lexeme = ⟨.operator, op.symbol⟩) :
    unaryOp? t = some op := by
  obtain ⟨kind, text, offset, position⟩ := t
  cases h
  cases op <;> rfl

theorem readBack_unary (p : Position) (op : UnaryOp) (h : e.ReadBack) :
    (unary p op e).ReadBack := by
  refine readBack_of_primary ⟨_, _, by rw [lexemes], opens_parenthesis⟩ ?_
  intro depth c rest hc
  have hc' :
      c.Sees (bracket "(" :: ((⟨.operator, op.symbol⟩ :: e.lexemes) ++ bracket ")" :: rest)) := by
    simpa [lexemes] using hc
  have hclose : Closes (bracket ")") := closes_bracket (by decide)
  have hreads : Reads (e.nesting + 3 ≤ depth) (primary (depth + 1)) c
      (Got (unary p op e).bare rest) := by
    refine reads_parentheses hc' fun c' hc' => reads_expression_of_unary hclose (fun d _ => ?_) _
    refine Reads.begun Parse.unary (by rw [Parse.unary]) fun d' _ => ?_
    have hop := hc'.head
    have hrun : Parse.unary (d' + 1) c' = (Parse.unary d' >>= fun operand =>
        pure (.unary (c'.ahead 0).position op operand)) c'.next := by
      rw [Parse.unary, run_peek, unaryOp?_of_lexeme hop]
      rfl
    have hoperand := h.reads_operand (hc'.next (by simp)) (fun _ ht => hclose.endsOperand ht) d'
    refine Reads.run (hoperand.bind_ok fun e' c'' he' => ?_) hrun
    refine ⟨_, _, rfl, ?_, he'.2⟩
    rw [bare, bare, he'.1]
  exact hreads.congr (by rw [nesting]; omega)

/-- An operator with its right operand is read on from the left one. -/
theorem reads_climb (p : Position) (joint : Joint) {l : Expr} (hr : r.ReadBack)
    (he : e.bare = l.bare) {rest : List Lexeme}
    (hc : c.Sees (joint.lexeme :: (r.lexemes ++ bracket ")" :: rest))) (depth : Nat) :
    Reads (r.nesting + 2 ≤ depth) (climb (expression depth) assignPower e) c
      (Got (joint.node p l r).bare (bracket ")" :: rest)) := by
  have hclose : Closes (bracket ")") := closes_bracket (by decide)
  have hrun : climb (expression depth) assignPower e c =
      (expression depth joint.rightPower >>= fun right =>
        stepUpTo (operatorStep (expression depth) assignPower) c.size (joint.build e right))
        c.next := by
    rw [climb, run_get]
    exact run_operators (Joint.ofToken?_of_lexeme hc.head) (Nat.not_lt_zero _) _ e
  have hright := hr.reads_expression (hc.next joint.lexeme_kind) hclose depth joint.rightPower
  refine Reads.run (hright.bind_ok fun e' c' he' => ⟨joint.build e e', c', ?_, ?_, he'.2⟩) hrun
  · exact operators_of_none (hclose.ofToken?_eq_none he'.2.head) _ _
  · rw [build_eq_node, bare_node, bare_node, he, he'.1]

theorem readBack_node (p : Position) (joint : Joint) {l : Expr} (hl : l.ReadBack)
    (hr : r.ReadBack) : (joint.node p l r).ReadBack := by
  refine readBack_of_primary ⟨_, _, lexemes_node p joint l r, opens_parenthesis⟩ ?_
  intro depth c rest hc
  have hc' :
      c.Sees (bracket "(" ::
      ((l.lexemes ++ joint.lexeme :: r.lexemes) ++ bracket ")" :: rest)) := by
    simpa [lexemes_node] using hc
  have hreads : Reads (max (l.nesting + 1) (r.nesting + 2) + 1 ≤ depth) (primary (depth + 1)) c
      (Got (joint.node p l r).bare rest) := by
    refine reads_parentheses hc' fun c' hc' => ?_
    refine Reads.begun (fun d => expression d assignPower) (by simp only [expression]) fun d _ => ?_
    rw [List.append_assoc, List.cons_append] at hc'
    have hleft := hl.reads_operand hc' (fun _ ht => Joint.endsOperand_of_lexeme ht) d
    simp only [expression]
    exact (hleft.bind fun e c'' _ he => reads_climb p joint hr he.1 he.2 d).congr Nat.max_le.symm
  exact hreads.congr (by rw [nesting_node]; omega)

theorem opens_of_append (h : ∃ l ls, o.lexemes = l :: ls ∧ Leads l)
    (hlexemes : e.lexemes = o.lexemes ++ ls) : ∃ l ls, e.lexemes = l :: ls ∧ Leads l := by
  obtain ⟨l, ls', heq, hl⟩ := h
  exact ⟨l, ls' ++ ls, by rw [hlexemes, heq, List.cons_append], hl⟩

end Expr

/-! ### Suffixes -/

namespace Parse

variable {q : Prop} {R : Expr → Cursor → Prop}

theorem stepOp?_of_lexeme {op : StepOp} (h : t.lexeme = ⟨.operator, op.symbol⟩) :
    t.isDelimiter "(" = false ∧ t.isDelimiter "[" = false ∧ access? t = none ∧
    stepOp? t = some op := by
  obtain ⟨kind, text, offset, position⟩ := t
  cases h
  cases op <;> exact ⟨rfl, rfl, rfl, rfl⟩

theorem access?_of_lexeme (h : t.lexeme = access.lexeme) :
    t.isDelimiter "(" = false ∧ t.isDelimiter "[" = false ∧ access? t = some access := by
  obtain ⟨kind, text, offset, position⟩ := t
  cases access <;> cases h <;> exact ⟨rfl, rfl, rfl⟩

theorem continues_step (op : StepOp) (h : Continues depth (.step {} op b) rest q R) :
    Continues depth b (⟨.operator, op.symbol⟩ :: rest) q R := by
  intro e c n he hc hn
  obtain ⟨n, rfl⟩ := Nat.exists_eq_add_one_of_ne_zero (Nat.ne_zero_of_lt hn)
  obtain ⟨hcall, hidx, hacc, hstep⟩ := stepOp?_of_lexeme hc.head
  have hrun : suffixesUpTo depth (n + 1) e c =
      suffixesUpTo depth n (.step e.position op e) c.next := by
    rw [suffixesUpTo, stepUpTo, suffixStep, bind_assoc, run_peek, hcall, hidx, hacc, hstep]
    rfl
  exact Reads.run (h _ c.next n (by rw [Expr.bare, he]) (hc.next (by simp))
    (Nat.lt_of_succ_lt_succ hn)) hrun

theorem run_memberName (hfld : access ≠ .scope → field ∉ keywords)
    (h : (c.ahead 0).lexeme = ⟨wordKind field, field⟩) :
    memberName access c = .ok field c.next := by
  have hkind : (c.ahead 0).kind = wordKind field := congrArg Lexeme.kind h
  have htext : (c.ahead 0).text = field := congrArg Lexeme.text h
  have hcond : ((c.ahead 0).kind == .identifier ||
      (access == .scope && (c.ahead 0).kind == .keyword)) = true := by
    by_cases hscope : access = .scope
    · rcases wordKind_cases field with hword | hword <;> simp [hkind, hword, hscope]
    · simp [hkind, wordKind, hfld hscope]
  rw [memberName, run_peek, hcond, htext]
  rfl

theorem continues_member (access : Access) (hfld : access ≠ .scope → field ∉ keywords)
    (h : Continues depth (.member {} b access field) rest q R) :
    Continues depth b (access.lexeme :: ⟨wordKind field, field⟩ :: rest) q R := by
  intro e c n he hc hn
  obtain ⟨n, rfl⟩ := Nat.exists_eq_add_one_of_ne_zero (Nat.ne_zero_of_lt hn)
  obtain ⟨hcall, hidx, hacc⟩ := access?_of_lexeme hc.head
  have hkind : access.lexeme.kind ≠ .endOfInput := by cases access <;> exact nofun
  have hword : wordKind field ≠ .endOfInput := by
    rcases wordKind_cases field with hword | hword <;> rw [hword] <;> exact nofun
  have hnext := hc.next hkind
  have hrun : suffixesUpTo depth (n + 1) e c =
      suffixesUpTo depth n (.member e.position e access field) c.next.next := by
    rw [suffixesUpTo, stepUpTo, suffixStep, bind_assoc, run_peek, hcall, hidx, hacc]
    simp only [Bool.false_eq_true, if_false, bind_assoc, pure_bind]
    exact run_bind_ok (run_memberName hfld hnext.head)
  refine Reads.run (h _ c.next.next n (by rw [Expr.bare, he]) (hnext.next hword) ?_) hrun
  simp only [List.length_cons] at hn
  omega

theorem continues_index (hi : i.ReadBack) (h : Continues depth (.index {} b i.bare) rest q R) :
    Continues depth b (bracket "[" :: (i.lexemes ++ bracket "]" :: rest))
    (i.nesting + 2 ≤ depth ∧ q) R := by
  intro e c n he hc hn
  obtain ⟨n, rfl⟩ := Nat.exists_eq_add_one_of_ne_zero (Nat.ne_zero_of_lt hn)
  have hclose : Closes (bracket "]") := closes_bracket (by decide)
  have hrun : suffixesUpTo depth (n + 1) e c =
      (expression depth assignPower >>= fun i => discard (expectDelimiter "]") >>= fun _ =>
        suffixesUpTo depth n (.index e.position e i)) c.next := by
    have hopen := isDelimiter_of_lexeme hc.head
    rw [suffixesUpTo, stepUpTo, suffixStep, bind_assoc, run_peek, if_neg (by rw [hopen]; decide),
      if_pos (by rw [hopen]; decide)]
    simp only [bind_assoc, pure_bind]
    rfl
  have hsubscript := hi.reads_expression (hc.behind) hclose depth assignPower
  refine Reads.run (hsubscript.bind fun i' c' _ hi' => ?_) hrun
  refine Reads.run ?_ (run_bind_ok (run_expectBracket hi'.2.head))
  refine h _ c'.next n (by rw [Expr.bare, he, hi'.1]) (hi'.2.behind) ?_
  simp only [List.length_append, List.length_cons] at hn
  omega

/-! ### Lists -/

theorem length_le_moreLexemes (es : List Expr) : es.length ≤ (Expr.moreLexemes es).length := by
  induction es with
  | nil => exact Nat.le_refl 0
  | cons e es ih =>
    simp only [Expr.moreLexemes, List.length_cons, List.length_append]
    omega

/-- Items with commas between them are read up to a closing bracket, if `more` sees the commas. -/
theorem reads_items (more : Parser Bool) (hclose : Closes (bracket close))
    (hcomma : ∀ c l ls, c.Sees (bracket "," :: l :: ls) → Leads l → more c = .ok true c.next)
    (hend : ∀ c ls, c.Sees (bracket close :: ls) → more c = .ok false c)
    (hes : ∀ e' ∈ e :: es, e'.ReadBack)
    (hc : c.Sees (e.lexemes ++ (Expr.moreLexemes es ++ bracket close :: rest))) :
    Reads (∀ e' ∈ e :: es, e'.nesting + 2 ≤ depth)
      (expression depth assignPower >>= fun first =>
        repeatWhile more (expression depth assignPower) >>= fun others => pure (first :: others)) c
      fun as c' => as.map Expr.bare = (e :: es).map Expr.bare ∧
      c'.Sees (bracket close :: rest) := by
  have hcommas : Closes (bracket ",") := closes_bracket (by decide)
  -- Behind every item there is a comma or the closing bracket.
  have hitem : ∀ {e : Expr} (es : List Expr) {c : Cursor}, e.ReadBack →
      c.Sees (e.lexemes ++ (Expr.moreLexemes es ++ bracket close :: rest)) →
      Reads (e.nesting + 2 ≤ depth) (expression depth assignPower) c
        (Got e.bare (Expr.moreLexemes es ++ bracket close :: rest)) := by
    intro e es c he hc
    cases es with
    | nil => exact he.reads_expression hc hclose depth assignPower
    | cons e' es => exact he.reads_expression hc hcommas depth assignPower
  rw [List.forall_mem_cons] at hes ⊢
  refine (hitem es hes.1 hc).bind fun a c' _ ha => ?_
  have hlen : es.length ≤ c'.size := by
    have hsize := ha.2.length_le
    have hle := length_le_moreLexemes es
    rw [List.length_append] at hsize
    omega
  have hothers : Reads (∀ e ∈ es, e.nesting + 2 ≤ depth)
      (repeatWhile more (expression depth assignPower)) c' fun as c'' =>
        as.map Expr.bare = es.map Expr.bare ∧ c''.Sees (bracket close :: rest) := by
    refine Reads.repeatWhile
      (fun es c => (∀ e ∈ es, e.ReadBack) ∧ c.Sees (Expr.moreLexemes es ++ bracket close :: rest))
      (fun c => c.Sees (bracket close :: rest)) (fun e => e.nesting + 2 ≤ depth) Expr.bare Expr.bare
      ?_ ?_ ⟨hes.2, ha.2⟩ hlen
    · exact fun c hc => ⟨c, hend c rest hc.2, hc.2⟩
    · intro e es c hc
      obtain ⟨hes, hc⟩ := hc
      rw [List.forall_mem_cons] at hes
      obtain ⟨l, ls, hlexemes, hl⟩ := hes.1.opens
      rw [Expr.moreLexemes, List.cons_append, List.append_assoc] at hc
      have hmore : more c = .ok true c.next := by
        rw [hlexemes] at hc
        exact hcomma c l _ hc hl
      refine ⟨c.next, hmore, ?_⟩
      exact (hitem es hes.1 (hc.behind)).mono fun a c' ha => ⟨ha.1, hes.2, ha.2⟩
  refine hothers.bind_ok fun as c'' has => ⟨a :: as, c'', rfl, ?_, has.2⟩
  rw [List.map_cons, List.map_cons, ha.1, has.1]

theorem matchComma_of_sees (h : c.Sees (bracket "," :: ls)) :
    matchDelimiter "," c = .ok true c.next := by
  rw [run_matchDelimiter, isDelimiter_of_lexeme h.head]
  rfl

theorem matchComma_of_closing
    (hclose : close ∈ [")", "\x7d"]) (h : c.Sees (bracket close :: ls)) :
    matchDelimiter "," c = .ok false c := by
  have hne : ∀ close ∈ [")", "\x7d"], (close == ",") = false := by decide
  rw [run_matchDelimiter, isDelimiter_of_lexeme h.head]
  simp [bracket, hne close hclose]

theorem not_closing_of_list (he : e.ReadBack)
    (h : c.Sees (e.lexemes ++ ls)) (close : String) (hclose : close ∈ [")", "\x7d"]) :
    (c.ahead 0).isDelimiter close = false := by
  obtain ⟨l, ls', hlexemes, hl⟩ := he.opens
  rw [hlexemes] at h
  exact hl.isDelimiter_eq_false h.head close hclose

theorem reads_arguments (hargs : ∀ a ∈ args, a.ReadBack)
    (hc : c.Sees (bracket "(" :: (Expr.listLexemes args ++ bracket ")" :: rest))) :
    Reads (Expr.listNesting args + 1 ≤ depth) (arguments depth) c fun as c' =>
      as.map Expr.bare = args.map Expr.bare ∧ c'.Sees rest := by
  refine Reads.begun arguments (by rw [arguments]) fun d _ => ?_
  have hnext := hc.behind
  have hlist : Reads (Expr.listNesting args ≤ d)
      ((if (c.next.ahead 0).isDelimiter ")" then pure [] else
        commaSeparated (expression d assignPower)) : Parser (List Expr)) c.next fun as c' =>
        as.map Expr.bare = args.map Expr.bare ∧ c'.Sees (bracket ")" :: rest) := by
    cases args with
    | nil =>
      rw [if_pos (isDelimiter_of_bracket hnext.head)]
      exact (Reads.of_ok (run_pure [] c.next) ⟨rfl, hnext⟩).congr (by simp [Expr.listNesting])
    | cons a args =>
      have hitems : c.next.Sees (a.lexemes ++ (Expr.moreLexemes args ++ bracket ")" :: rest)) := by
        simpa [Expr.listLexemes] using hnext
      have hno := not_closing_of_list (hargs a List.mem_cons_self) hitems ")" (by decide)
      rw [hno, if_neg Bool.false_ne_true]
      refine (reads_items (matchDelimiter ",") (closes_bracket (by decide)) ?_ ?_ hargs
        hitems).congr
        Expr.listNesting_le_iff.symm
      · exact fun c l ls hc _ => matchComma_of_sees hc
      · exact fun c ls hc => matchComma_of_closing (by decide) hc
  have hrun : arguments (d + 1) c = ((if (c.next.ahead 0).isDelimiter ")" then pure [] else
      commaSeparated (expression d assignPower)) >>= fun args =>
        discard (expectDelimiter ")") >>= fun _ => pure args) c.next := by
    rw [arguments, run_bind_ok (run_expectBracket hc.head), run_peekDelimiter]
    split <;> rfl
  refine Reads.run (hlist.bind_ok fun as c' has => ⟨as, c'.next, ?_, has.1, has.2.behind⟩) hrun
  rw [run_bind_ok (run_expectBracket has.2.head)]
  rfl

theorem continues_call (hargs : ∀ a ∈ args, a.ReadBack)
    (h : Continues depth (.call {} b (Expr.bareList args)) rest q R) :
    Continues depth b (bracket "(" :: (Expr.listLexemes args ++ bracket ")" :: rest))
      (Expr.listNesting args + 1 ≤ depth ∧ q) R := by
  intro e c n he hc hn
  obtain ⟨n, rfl⟩ := Nat.exists_eq_add_one_of_ne_zero (Nat.ne_zero_of_lt hn)
  have hrun : suffixesUpTo depth (n + 1) e c =
      (arguments depth >>= fun args =>
        suffixesUpTo depth n (.call e.position e args)) c := by
    rw [suffixesUpTo, stepUpTo, suffixStep, bind_assoc, run_peek,
      if_pos (by rw [isDelimiter_of_lexeme hc.head]; decide)]
    simp only [bind_assoc, pure_bind]
  refine Reads.run ((reads_arguments hargs hc).bind fun as c' _ has => ?_) hrun
  refine h _ c' n ?_ has.2 ?_
  · rw [Expr.bare, he, Expr.bareList_eq_map, has.1, Expr.bareList_eq_map]
  · simp only [List.length_append, List.length_cons] at hn
    omega

/-- The comma before another item of a list in braces; one may also follow the last item. -/
def commaInBraces : Parser Bool := do
  if ← matchDelimiter "," then return !(← peekDelimiter "\x7d") else return false

theorem run_commaTerminated (item : Parser Expr) (c : Cursor) :
    commaTerminated "\x7d" item c = if (c.ahead 0).isDelimiter "\x7d" = true then .ok [] c else
      (item >>= fun first => repeatWhile commaInBraces item >>= fun others =>
        pure (first :: others)) c := by
  rw [commaTerminated, run_peekDelimiter]
  split <;> rfl

theorem reads_commaTerminated (hes : ∀ e ∈ es, e.ReadBack)
    (hc : c.Sees (Expr.listLexemes es ++ bracket "\x7d" :: rest)) :
    Reads (Expr.listNesting es ≤ depth) (commaTerminated "\x7d" (expression depth assignPower)) c
      fun as c' => as.map Expr.bare = es.map Expr.bare ∧ c'.Sees (bracket "\x7d" :: rest) := by
  have hrun := run_commaTerminated (expression depth assignPower) c
  cases es with
  | nil =>
    rw [if_pos (isDelimiter_of_bracket hc.head)] at hrun
    exact (Reads.of_ok hrun ⟨rfl, hc⟩).congr (by simp [Expr.listNesting])
  | cons e es =>
    have hitems : c.Sees (e.lexemes ++ (Expr.moreLexemes es ++ bracket "\x7d" :: rest)) := by
      simpa [Expr.listLexemes] using hc
    have hno := not_closing_of_list (hes e List.mem_cons_self) hitems "\x7d" (by decide)
    rw [hno, if_neg Bool.false_ne_true] at hrun
    refine (Reads.run (reads_items commaInBraces (closes_bracket (by decide)) ?_ ?_ hes hitems)
      hrun).congr Expr.listNesting_le_iff.symm
    · intro c l ls hc hl
      have hnext := hl.isDelimiter_eq_false (hc.behind).head "\x7d" (by decide)
      rw [commaInBraces, run_bind_ok (matchComma_of_sees hc), if_pos rfl, run_peekDelimiter, hnext]
      rfl
    · intro c ls hc
      rw [commaInBraces, run_bind_ok (matchComma_of_closing (by decide) hc)]
      rfl

theorem reads_listBetween (p : Position) (hes : ∀ e ∈ es, e.ReadBack)
    (hc : c.Sees (bracket "\x7b" :: (Expr.listLexemes es ++ bracket "\x7d" :: rest))) :
    Reads (Expr.listNesting es + 1 ≤ depth) (listBetween depth "\x7d") c
      (Got (Expr.braces p es).bare rest) := by
  refine Reads.begun (fun d => listBetween d "\x7d") (by simp only [listBetween]) fun d _ => ?_
  have hrun : listBetween (d + 1) "\x7d" c =
      (commaTerminated "\x7d" (expression d assignPower) >>= fun elements =>
        discard (expectDelimiter "\x7d") >>= fun _ =>
          pure (.braces (c.ahead 0).position elements)) c.next := by
    rw [listBetween, run_advance]
  refine Reads.run ((reads_commaTerminated hes (hc.behind)).bind_ok fun as c' has => ?_) hrun
  refine ⟨.braces (c.ahead 0).position as, c'.next, ?_, ?_, has.2.behind⟩
  · rw [run_bind_ok (run_expectBracket has.2.head)]
    rfl
  · rw [Expr.bare, Expr.bare, Expr.bareList_eq_map, has.1, Expr.bareList_eq_map]

end Parse

namespace Expr

/-! ### Writable expressions -/

theorem literal?_of_lexeme (h : value.Spelled) (hreal : ∀ x text, value ≠ .real x text)
    (ht : t.lexeme = value.lexeme) :
    ∃ value', literal? t = .ok (some value') ∧ value'.bare = value.bare := by
  obtain ⟨kind, text, offset, position⟩ := t
  cases value with
  | int value text =>
    obtain ⟨n, rfl, hn⟩ := h
    cases ht
    exact ⟨.int n (toString n), congrArg (Except.map some) (numberLiteral_toString hn), rfl⟩
  | real x text => exact absurd rfl (hreal x text)
  | string value text =>
    obtain ⟨-, -, -, rfl⟩ := h
    cases ht
    exact ⟨_, rfl, rfl⟩
  | char value text =>
    obtain ⟨-, -, -, rfl⟩ := h
    cases ht
    exact ⟨_, rfl, rfl⟩
  | bool value =>
    cases ht
    cases value with
    | true => exact ⟨_, rfl, rfl⟩
    | false => exact ⟨_, rfl, rfl⟩

theorem readBack_literal (p : Position) (h : value.Spelled)
    (hreal : ∀ x text, value ≠ .real x text) :
    (literal p value).ReadBack := by
  have hkind : value.kind ≠ .operator ∧ value.kind ≠ .delimiter ∧ value.kind ≠ .endOfInput := by
    cases value <;> exact ⟨nofun, nofun, nofun⟩
  have hopens : Leads value.lexeme := by
    refine ⟨hkind.1, ?_⟩
    simp only [List.mem_cons, List.not_mem_nil, or_false]
    rintro (heq | heq) <;> exact hkind.2.1 (congrArg Lexeme.kind heq)
  refine readBack_of_primary ⟨_, _, by rw [lexemes], hopens⟩ ?_
  intro depth c rest hc
  rw [lexemes] at hc
  obtain ⟨value', hval, hbare⟩ := literal?_of_lexeme h hreal hc.head
  have hrun : primary (depth + 1) c = .ok (.literal (c.ahead 0).position value') c.next := by
    rw [primary, run_peek, hval, run_orFault_ok]
    rfl
  refine (Reads.of_ok hrun ⟨?_, hc.next hkind.2.2⟩).congr (by simp [nesting])
  rw [bare, bare, hbare]

theorem readBack_name (p : Position) (id : String) : (name p id).ReadBack := by
  refine readBack_of_primary ⟨⟨.identifier, id⟩, [], by rw [lexemes], by simp, ?_⟩ ?_
  · simp [bracket]
  intro depth c rest hc
  rw [lexemes] at hc
  have hkind : (c.ahead 0).kind = .identifier := congrArg Lexeme.kind hc.head
  have htext : (c.ahead 0).text = id := congrArg Lexeme.text hc.head
  have hrun : primary (depth + 1) c = .ok (.name (c.ahead 0).position id) c.next := by
    rw [primary, run_peek, literal?, hkind, htext]
    rfl
  exact (Reads.of_ok hrun ⟨by rw [bare, bare], hc.next (by simp)⟩).congr (by simp [nesting])

theorem readBack_endl (p : Position) : (endl p).ReadBack := by
  refine readBack_of_primary ⟨⟨.keyword, "endl"⟩, [], by rw [lexemes], by simp, by decide⟩ ?_
  intro depth c rest hc
  rw [lexemes] at hc
  have hkind : (c.ahead 0).kind = .keyword := congrArg Lexeme.kind hc.head
  have htext : (c.ahead 0).text = "endl" := congrArg Lexeme.text hc.head
  have hrun : primary (depth + 1) c = .ok (.endl (c.ahead 0).position) c.next := by
    rw [primary, run_peek, literal?, isKeyword_of_lexeme hc.head, hkind, htext]
    rfl
  exact (Reads.of_ok hrun ⟨by rw [bare, bare], hc.next (by simp)⟩).congr (by simp [nesting])

theorem readBack_step (p : Position) (op : StepOp) (h : e.ReadBack) : (step p op e).ReadBack := by
  refine readBack_of_primary ⟨_, _, by rw [lexemes], opens_parenthesis⟩ ?_
  intro depth c rest hc
  have hc' :
      c.Sees (bracket "(" :: ((e.lexemes ++ [⟨.operator, op.symbol⟩]) ++ bracket ")" :: rest)) := by
    simpa [lexemes] using hc
  have hclose : Closes (bracket ")") := closes_bracket (by decide)
  have hreads : Reads (e.nesting + 2 ≤ depth) (primary (depth + 1)) c
      (Got (step p op e).bare rest) := by
    refine reads_parentheses hc' fun c' hc' => reads_expression_of_unary hclose (fun d _ => ?_) _
    rw [List.append_assoc] at hc'
    have hoperand : Reads (e.nesting + 1 ≤ d ∧ True) (Parse.unary d) c'
        (Got (step p op e).bare (bracket ")" :: rest)) := by
      refine h.reads_unary hc' fun _ _ => continues_step op ?_
      rw [bare]
      exact continues_of_endsOperand fun _ ht => hclose.endsOperand ht
    exact hoperand.congr (and_iff_left trivial)
  exact hreads.congr (by rw [nesting]; omega)

theorem readBack_member (p : Position) (access : Access) (hfld : access ≠ .scope → field ∉ keywords)
    (ho : o.ReadBack) : (member p o access field).ReadBack := by
  refine ⟨opens_of_append ho.opens (by rw [lexemes]), ?_⟩
  intro depth c rest q R hc hcontinues
  rw [lexemes, List.append_assoc] at hc
  rw [bare] at hcontinues
  rw [nesting]
  exact ho.reads hc (continues_member access hfld hcontinues)

theorem readBack_index (p : Position) (ho : o.ReadBack) (hi : i.ReadBack) :
    (index p o i).ReadBack := by
  refine ⟨opens_of_append ho.opens (by rw [lexemes]), ?_⟩
  intro depth c rest q R hc hcontinues
  have hc' : c.Sees (o.lexemes ++ bracket "[" :: (i.lexemes ++ bracket "]" :: rest)) := by
    simpa [lexemes] using hc
  rw [bare] at hcontinues
  refine (ho.reads hc' (continues_index hi hcontinues)).congr ?_
  rw [nesting, Nat.max_le, and_assoc]
  exact and_congr_right fun _ => and_congr_left fun _ => by omega

theorem readBack_call (p : Position) {f : Expr} (hf : f.ReadBack) (hargs : ∀ a ∈ args, a.ReadBack) :
    (call p f args).ReadBack := by
  refine ⟨opens_of_append hf.opens (by rw [lexemes]), ?_⟩
  intro depth c rest q R hc hcontinues
  have hc' : c.Sees (f.lexemes ++ bracket "(" :: (listLexemes args ++ bracket ")" :: rest)) := by
    simpa [lexemes] using hc
  rw [bare] at hcontinues
  refine (hf.reads hc' (continues_call hargs hcontinues)).congr ?_
  rw [nesting, Nat.max_le, and_assoc]
  exact and_congr_right fun _ => and_congr_left fun _ => by omega

theorem readBack_braces (p : Position) (hes : ∀ e ∈ es, e.ReadBack) : (braces p es).ReadBack := by
  refine readBack_of_primary ⟨_, _, by rw [lexemes], opens_brace⟩ ?_
  intro depth c rest hc
  have hc' : c.Sees (bracket "\x7b" :: (listLexemes es ++ bracket "\x7d" :: rest)) := by
    simpa [lexemes] using hc
  have hhead := hc'.head
  have hkind : (c.ahead 0).kind = .delimiter := congrArg Lexeme.kind hhead
  have hrun : primary (depth + 1) c = listBetween depth "\x7d" c := by
    rw [primary, run_peek, literal?, hkind]
    simp only [run_orFault_ok, isKeyword_of_lexeme hhead, isDelimiter_of_lexeme hhead]
    rfl
  exact (Reads.run (reads_listBetween p hes hc') hrun).congr (by rw [nesting]; omega)

/-- **A writable expression is read from its lexemes.** -/
theorem readBack_of_writable (h : e.Every Writable) : e.ReadBack := by
  refine writable_induction ?_ ?_ ?_ ?_ ?_ ?_ ?_ ?_ ?_ ?_ h
  · exact fun p _ hval hreal => readBack_literal p hval hreal
  · exact fun p id _ _ => readBack_name p id
  · exact readBack_endl
  · exact fun p op _ ih => readBack_unary p op ih
  · exact fun p op _ ih => readBack_step p op ih
  · exact fun p joint _ _ ihl ihr => readBack_node p joint ihl ihr
  · exact fun p _ _ ihf ihargs => readBack_call p ihf ihargs
  · exact fun p _ access _ _ hfld _ ih => readBack_member p access hfld ih
  · exact fun p _ _ iho ihi => readBack_index p iho ihi
  · exact fun p _ ih => readBack_braces p ih

end Expr

/-- **The text of an expression that was read is read as the same expression**, up to its positions
and the spelling of its integers, and up to the end of the text, wherever in a source the expression
was read.  It takes two rules more than the expression is nested; with fewer, reading stops at the
limit. -/
theorem expression_roundtrip {text file : String} {tokens : List Token}
    (htoks : (Source.ofText text file).tokenize = .ok tokens) {c c' : Cursor}
    (hc : c.rest <:+ tokens) {depth least : Nat} {e : Expr}
    (hread : expression depth least c = .ok e c') (hplain : e.Every Expr.Plain)
    (file' : String) (depth' : Nat) :
    let source := Source.ofText e.text file'
    (e.nesting + 2 ≤ depth' → ∃ e' last,
      source.parseWith (expression depth' 0) = .ok (e', last) ∧ last.kind = .endOfInput ∧
      e'.bare = e.bare) ∧
    (depth' < e.nesting + 2 → ∃ last : Token,
      source.parseWith (expression depth' 0) = .error (.error (errorAt file' source.texts
        (.nestingTooDeep last.described last.offset) last.position))) := by
  intro source
  have hcut := Source.cut_of_tokenize htoks
  -- what was read is spelled as its tokens were, so it can be written
  obtain ⟨used, hrest, hused⟩ := (spellsRules depth).expression least c e c' hread
  have hspelled : e.Every Expr.Spelled := by
    have hused' := hused.spelled fun t ht => hcut t (hc.subset (hrest ▸ List.mem_append_left _ ht))
    exact hused' e List.mem_cons_self
  have hwritable : e.Every Expr.Writable := hspelled.zip (fun _ => And.intro) hplain
  have hprinted := Expr.printed_of_writable hwritable
  have hchars : source.chars = e.text.toList := Source.normalize_of_isClean hprinted.clean
  have hlexes : Lexes source.chars e.lexemes [] := by
    have hend := hprinted.lexes [] nofun
    rwa [List.append_nil, ← hchars] at hend
  obtain ⟨tokens', htoks', hsees⟩ := exists_sees hlexes
  -- its text has the lexemes of the expression, and from these it is read back
  have hreads := (Expr.readBack_of_writable hwritable).reads_expression hsees
    (by simp [Closes]) depth' 0
  refine ⟨fun hroom => ?_, fun hno => ?_⟩
  · obtain ⟨e', c'', hrun, hbare, hend⟩ := hreads.1 hroom
    refine ⟨e', c''.ahead 0, ?_, congrArg Lexeme.kind hend.head, hbare⟩
    simp only [Source.parseWith, htoks', runOn, hrun]
  · obtain ⟨c'', hrun⟩ := hreads.2 (Nat.not_le.mpr hno)
    refine ⟨c''.ahead 0, ?_⟩
    simp only [Source.parseWith, htoks', runOn, hrun]
    rfl

/-- The integer is spelled in another way.  With 17 rules the text is read back, with 16 it is
not. -/
theorem expression_roundtrip_difference :
    let e : Expr := .binary ⟨1, 1⟩ .sub (.literal ⟨1, 1⟩ (.int 7 "007")) (.unary ⟨1, 7⟩ .negate
      (.index ⟨1, 8⟩ (.call ⟨1, 8⟩ (.member ⟨1, 8⟩ (.name ⟨1, 8⟩ "v") .dot "at")
        [.literal ⟨1, 13⟩ (.char 'c' "'c'")]) (.step ⟨1, 18⟩ .increment (.name ⟨1, 18⟩ "i"))))
    let source := Source.ofText "(7 - (-v.at('c')[(i++)]))" "<input>"
    ∃ tokens c, (Source.ofText "007 - -v.at('c')[i++]" "<input>").tokenize = .ok tokens ∧
      expression 10 0 (Cursor.start tokens) = .ok e c ∧ e.text = "(7 - (-v.at('c')[(i++)]))" ∧
      e.Every Expr.Plain ∧
      (∃ e' last, source.parseWith (expression 17 0) = .ok (e', last) ∧ last.kind = .endOfInput ∧
        e'.bare = e.bare) ∧
      ∃ last : Token, source.parseWith (expression 16 0) = .error (.error (errorAt "<input>"
        source.texts (.nestingTooDeep last.described last.offset) last.position)) := by
  intro e source
  have hdigits : ['0', '0', '7'].all Text.isDigit = true := rfl
  have hnum : numberLiteral "007" = .ok (.int 7 "007") :=
    numberLiteral_of_isDigit (by decide) (List.all_eq_true.mp hdigits)
  obtain ⟨tokens, c, htoks, hrest, hfirst, hsuffixes, hclimb⟩ : ∃ tokens c,
      (Source.ofText "007 - -v.at('c')[i++]" "<input>").tokenize = .ok tokens ∧
        (Cursor.start tokens).rest = tokens ∧
        (Cursor.start tokens).ahead 0 = ⟨.number, "007", 0, ⟨1, 1⟩⟩ ∧
        suffixes 8 (.literal ⟨1, 1⟩ (.int 7 "007")) (Cursor.start tokens).next =
          .ok (.literal ⟨1, 1⟩ (.int 7 "007")) (Cursor.start tokens).next ∧
        climb (expression 9) 0 (.literal ⟨1, 1⟩ (.int 7 "007")) (Cursor.start tokens).next =
        .ok e c :=
    ⟨_, _, rfl, rfl, rfl, rfl, rfl⟩
  have hprim : primary 8 (Cursor.start tokens) =
      .ok (.literal ⟨1, 1⟩ (.int 7 "007")) (Cursor.start tokens).next := by
    rw [primary, run_peek, hfirst, literal?, hnum]
    rfl
  have hunary : unary 9 (Cursor.start tokens) =
      .ok (.literal ⟨1, 1⟩ (.int 7 "007")) (Cursor.start tokens).next := by
    rw [unary, run_peek, hfirst]
    exact (run_bind_ok hprim).trans hsuffixes
  have hread : expression 10 0 (Cursor.start tokens) = .ok e c := by
    rw [expression, run_bind_ok hunary, hclimb]
  have hsuf : (Cursor.start tokens).rest <:+ tokens := ⟨[], hrest⟩
  have htext : e.text = "(7 - (-v.at('c')[(i++)]))" := by decide +kernel
  have hplain : e.Every Expr.Plain := by
    simp [e, Expr.Every, Expr.EveryOf, Expr.Plain, Expr.isInteger]
  have hroundtrip := expression_roundtrip htoks hsuf hread hplain "<input>"
  rw [htext] at hroundtrip
  exact ⟨tokens, c, htoks, hread, htext, hplain, (hroundtrip 17).1 (by decide),
    (hroundtrip 16).2 (by decide)⟩

end SmallCpp
