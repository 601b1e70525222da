import SmallCpp.Proofs.Parse.ExprLexeme
import SmallCpp.Proofs.Parse.Shift

/-!
# The words of an expression

An expression has its names, literals, operators and members in an order of its own.  The tokens
from which it was read are these words in this order, and otherwise only brackets and commas, which
group them.  So a rule can neither lose a token nor read one twice, and the order of the tokens
decides the order in the tree.

An allocation holds a type, and its words are not told apart.

The brackets among the tokens are balanced, and outside of them there is no shift if the operators
of the expression bind more tightly.

## Main results

* `expression_words` — **reading an expression loses, repeats and reorders nothing.**
-/

namespace SmallCpp

/-! ### Words -/

namespace Expr

mutual

/-- The words of an expression from left to right; the type of an allocation is one word. -/
def words : Expr → List String
  | literal _ value => [value.text]
  | name _ id => [id]
  | unary _ op e => op.symbol :: words e
  | step _ op e => words e ++ [op.symbol]
  | binary _ op a b => words a ++ op.symbol :: words b
  | assign _ op a b => words a ++ op.symbol :: words b
  | call _ f args => words f ++ wordsOf args
  | member _ e access field => words e ++ [access.symbol, field]
  | index _ a b => words a ++ words b
  | new _ t => ["new", t.text]
  | newArray _ t e => "new" :: t.text :: words e
  | braces _ es => wordsOf es
  | endl _ => ["endl"]

/-- The words of several expressions. -/
def wordsOf : List Expr → List String
  | [] => []
  | e :: es => words e ++ wordsOf es

end

def isNew : Expr → Bool
  | new .. | newArray .. => true
  | _ => false

/-- The expressions right inside an expression. -/
def children : Expr → List Expr
  | literal .. | name .. | new .. | endl .. => []
  | unary _ _ e | step _ _ e | member _ e _ _ | newArray _ _ e => [e]
  | binary _ _ a b | assign _ _ a b | index _ a b => [a, b]
  | call _ f args => f :: args
  | braces _ es => es

theorem every_iff {P : Expr → Prop} (e : Expr) :
    e.Every P ↔ P e ∧ ∀ e' ∈ e.children, e'.Every P := by
  cases e <;> simp [Every, children, everyOf_iff]

end Expr

namespace Parse

variable {α : Type} {c : Cursor} {t : Token} {ts us : List Token} {e : Expr} {es fs : List Expr}
  {ws vs : List String} {depth : Nat} {w text : String} {access : Access} {joint : Joint}
  {value : Literal} {item : Parser Expr} {operand : Nat → Parser Expr} {p p' : Prop} {i j k : Nat}

/-- A bracket or a comma, which groups the parts of an expression. -/
def isGrouping (t : Token) : Bool :=
  t.kind == .delimiter && ["(", ")", "[", "]", "\x7b", "\x7d", ","].contains t.text

/-- The texts of the tokens that are no brackets and no commas. -/
def spelling (ts : List Token) : List String :=
  (ts.filter fun t => !isGrouping t).map Token.text

/-- If the tokens were cut from a text, the expressions `es` have their words and literals, and if
no allocation is inside `es`, the tokens spell the words `ws`.  Of the brackets before them they
close `i` and leave `j` others open, and if `p` they hold no shift outside brackets. -/
structure Spells (p : Prop) (i j : Nat) (ts : List Token) (es : List Expr) (ws : List String) :
    Prop where
  spelled : (∀ t ∈ ts, t.Cut) → ∀ e ∈ es, e.Every Expr.Spelled
  words : (∀ t ∈ ts, t.Cut) → (∀ e ∈ es, e.Every fun e => e.isNew = false) → spelling ts = ws
  moves : ∀ n, (n = 0 → p) → Moves (n + i) ts (n + j)

/-- The tokens spell an expression. -/
abbrev SpellsExpr (p : Prop) (ts : List Token) (e : Expr) : Prop :=
  Spells p 0 0 ts [e] e.words

/-- The rule spells the expression that it reads from `c`. -/
abbrev SpansExpr (p : Prop) (x : Parser Expr) (c : Cursor) : Prop :=
  Spans x c fun used e _ => SpellsExpr p used e

/-- The rule spells the expressions that it reads from `c`. -/
abbrev SpansList (p : Prop) (x : Parser (List Expr)) (c : Cursor) : Prop :=
  Spans x c fun used es _ => Spells p 0 0 used es (Expr.wordsOf es)

namespace Spells

theorem nil : Spells p i i [] [] [] :=
  ⟨nofun, fun _ _ => rfl, fun _ _ => moves_nil⟩

theorem append (h : Spells p i j ts es ws) (h' : Spells p j k us fs vs) :
    Spells p i k (ts ++ us) (es ++ fs) (ws ++ vs) := by
  refine ⟨fun hcut => ?_, fun hcut hplain => ?_, fun n hn => (h.moves n hn).append (h'.moves n hn)⟩
  · rw [List.forall_mem_append] at hcut ⊢
    exact ⟨h.spelled hcut.1, h'.spelled hcut.2⟩
  · rw [List.forall_mem_append] at hcut hplain
    rw [← h.words hcut.1 hplain.1, ← h'.words hcut.2 hplain.2]
    simp [spelling]

theorem mono (h : Spells p i j ts es ws) (hp : p' → p) : Spells p' i j ts es ws :=
  ⟨h.spelled, h.words, fun n hn => h.moves n fun h0 => hp (hn h0)⟩

/-- Between brackets there may be shifts. -/
theorem inside (h : Spells p 0 0 ts es ws) : Spells p' 1 1 ts es ws :=
  ⟨h.spelled, h.words, fun n _ => h.moves (n + 1) fun h0 => absurd h0 (Nat.succ_ne_zero n)⟩

theorem grouping (h : t.isDelimiter text = true) (hgroups : Groups i text j) :
    Spells p i j [t] [] [] := by
  refine ⟨nofun, fun _ _ => ?_, fun n _ => moves_grouping h hgroups n⟩
  have hmem : text ∈ ["(", "[", "\x7b", ")", "]", "\x7d", ","] :=
    List.mem_map_of_mem (f := fun x => x.2.1) hgroups
  simp only [Token.isDelimiter, Token.is, Bool.and_eq_true, beq_iff_eq] at h
  have hgrouping : isGrouping t = true := by
    rw [isGrouping, h.1, h.2]
    simp only [List.mem_cons] at hmem
    simp
    tauto
  simp [spelling, hgrouping]

theorem sign (hkind : t.kind ≠ .delimiter) (hshift : t.is .stream "<<" = true → ¬ p)
    (htext : t.Cut → t.text = w) :
    Spells p 0 0 [t] [] [w] := by
  refine ⟨nofun, fun hcut _ => ?_, fun n hn => moves_single hkind fun hsign h0 =>
    hshift hsign (hn h0)⟩
  simp [spelling, isGrouping, hkind, htext (hcut t List.mem_cons_self)]

theorem word (hkind : t.kind ≠ .delimiter ∧ t.kind ≠ .stream) (htext : t.Cut → t.text = w) :
    Spells p 0 0 [t] [] [w] :=
  sign hkind.1 (fun hsign => absurd hsign (by simp [Token.is, hkind.2])) htext

theorem flat (h : ∀ t ∈ ts, Flat t) : Spells p 0 0 ts [] (spelling ts) :=
  ⟨nofun, fun _ _ => rfl, fun _ _ => moves_of_flat h⟩

/-- The node of the expressions that were spelled. -/
theorem node (h : Spells p 0 0 ts e.children ws) (hspelled : (∀ t ∈ ts, t.Cut) → e.Spelled)
    (hwords : e.isNew = false → ws = e.words) : SpellsExpr p ts e := by
  refine ⟨fun hcut => ?_, fun hcut hplain => ?_, h.moves⟩
  · simpa using e.every_iff.mpr ⟨hspelled hcut, h.spelled hcut⟩
  · obtain ⟨hnew, hchildren⟩ := e.every_iff.mp (hplain e List.mem_cons_self)
    rw [← hwords hnew]
    exact h.words hcut hchildren

end Spells

/-! ### Tokens -/

theorem spans_discardAdvance (hend : (c.ahead 0).kind ≠ .endOfInput) :
    Spans (discard advance) c fun used _ _ => used = [c.ahead 0] :=
  Spans.last (.advance hend rfl) fun _ _ _ hused => hused

theorem spans_discardGrouping (p i j) (h : (c.ahead 0).isDelimiter text = true)
    (hgroups : Groups i text j) :
    Spans (discard advance) c fun used _ _ => Spells p i j used [] [] :=
  (spans_discardAdvance (ordinary_of_isDelimiter h).not_end).mono fun _ _ _ _ hused =>
    hused ▸ .grouping h hgroups

theorem spans_discardWord (hend : (c.ahead 0).kind ≠ .endOfInput)
    (hkind : (c.ahead 0).kind ≠ .delimiter ∧ (c.ahead 0).kind ≠ .stream)
    (htext : (c.ahead 0).Cut → (c.ahead 0).text = w) :
    Spans (discard advance) c fun used _ _ => Spells p 0 0 used [] [w] :=
  (spans_discardAdvance hend).mono fun _ _ _ _ hused => hused ▸ .word hkind htext

theorem spans_expectGrouping (p i j) (hgroups : Groups i text j) (c : Cursor) :
    Spans (discard (expectDelimiter text)) c fun used _ _ => Spells p i j used [] [] := by
  refine Spans.last (R := fun used _ _ => Spells p i j used [] []) ?_ fun _ _ _ hused => hused
  refine .look (a := (c.ahead 0).isDelimiter text) rfl (.ite (fun h => ?_) fun _ => ?_)
  · exact .advance (ordinary_of_isDelimiter h).not_end (.grouping h hgroups)
  · exact .look (a := c.ahead 0) rfl .throw

theorem spans_matchGrouping (hgroups : Groups 0 text j) (c : Cursor) :
    Spans (matchDelimiter text) c fun used b _ => Spells p 0 (bif b then j else 0) used [] [] := by
  refine .look (a := (c.ahead 0).isDelimiter text) rfl (.ite (fun h => ?_) fun _ => .pure .nil)
  exact Spans.last (spans_discardGrouping p 0 j h hgroups) fun _ _ _ hused => hused

theorem spans_matchComma (c : Cursor) :
    Spans (matchDelimiter ",") c fun used _ _ => Spells p 0 0 used [] [] :=
  (spans_matchGrouping (j := 0) (by decide) c).mono fun _ b _ _ hused => by
    rwa [Bool.cond_self] at hused

theorem symbol_of_find {op : α} {ops : List α} (symbol : α → String) {s : String}
    (h : ops.find? (fun op => symbol op == s) = some op) : s = symbol op := by
  have hfound := List.find?_some h
  exact (eq_of_beq hfound).symm

theorem symbol_of_unaryOp {op : UnaryOp} (h : unaryOp? t = some op) :
    t.kind = .operator ∧ t.text = op.symbol := by
  unfold unaryOp? at h
  split at h
  · next hkind => exact ⟨by simpa using hkind, symbol_of_find UnaryOp.symbol h⟩
  · cases h

theorem symbol_of_stepOp {op : StepOp} (h : stepOp? t = some op) :
    t.kind = .operator ∧ t.text = op.symbol := by
  unfold stepOp? at h
  split at h
  · next hplus =>
    cases h
    exact (by simpa [Token.isOperator] using hplus : t.kind = .operator ∧ t.text = "++")
  split at h
  · next hminus =>
    cases h
    exact (by simpa [Token.isOperator] using hminus : t.kind = .operator ∧ t.text = "--")
  · cases h

theorem symbol_of_access (h : access? t = some access) (ht : t.Cut) : t.text = access.symbol := by
  unfold access? at h
  split at h
  · next hscope =>
    cases h
    exact ht.scope (by simpa using hscope)
  split at h
  · next hdot =>
    cases h
    exact (by simpa [Token.isOperator] using hdot : t.kind = .operator ∧ t.text = ".").2
  split at h
  · next harrow =>
    cases h
    exact (by simpa [Token.isOperator] using harrow : t.kind = .operator ∧ t.text = "->").2
  · cases h

theorem kind_of_access (h : access? t = some access) : t.kind ≠ .delimiter ∧ t.kind ≠ .stream := by
  constructor <;> intro hkind <;> simp [access?, Token.isOperator, hkind] at h

/-- The symbol of an operator between two operands. -/
def Joint.symbol : Joint → String
  | assign op => op.symbol
  | binary op => op.symbol

theorem Joint.words_build (joint : Joint) (a b : Expr) :
    (joint.build a b).words = a.words ++ ([joint.symbol] ++ b.words) := by
  cases joint <;> rfl

theorem Joint.children_build (joint : Joint) (a b : Expr) :
    (joint.build a b).children = [a, b] := by
  cases joint <;> rfl

theorem symbol_of_joint (h : Joint.ofToken? t = .ok (some joint)) :
    t.kind ≠ .delimiter ∧ t.text = joint.symbol := by
  unfold Joint.ofToken? at h
  split at h
  · next hkind =>
    refine ⟨by simp [show t.kind = .stream by simpa using hkind], ?_⟩
    split at h
    · next op hop =>
      cases h
      exact symbol_of_find BinaryOp.symbol hop
    · cases h
  split at h
  · next hkind =>
    refine ⟨by simp [show t.kind = .operator by simpa using hkind], ?_⟩
    split at h
    · next op hop =>
      cases h
      exact symbol_of_find AssignOp.symbol hop
    · cases hop : BinaryOp.ofSymbol? t.text with
      | none =>
        rw [hop] at h
        cases h
      | some op =>
        rw [hop] at h
        cases h
        exact symbol_of_find BinaryOp.symbol hop
  · cases h

/-- Shifts bind less tightly than operators of this power. -/
def Tight (least : Nat) : Prop :=
  BinaryOp.shiftLeft.power < least

theorem Tight.rightPower {least : Nat} (h : Tight least) (hpow : ¬ joint.power < least) :
    Tight joint.rightPower := by
  cases joint <;> simp only [Tight, Joint.power, Joint.rightPower, assignPower] at * <;> omega

/-- A shift is no operator that binds more tightly than shifts. -/
theorem not_tight_of_shift {least : Nat} (htoken : Joint.ofToken? t = .ok (some joint))
    (hpow : ¬ joint.power < least)
    (hsign : t.is .stream "<<" = true) : ¬ Tight least := by
  have hjoint : joint = .binary .shiftLeft := by
    simp only [Token.is, Bool.and_eq_true, beq_iff_eq] at hsign
    simp only [Joint.ofToken?, hsign.1, hsign.2] at htoken
    cases htoken
    rfl
  subst hjoint
  exact hpow

theorem numberLiteral_cases (h : numberLiteral text = .ok value) :
    (∃ x, value = .real x text) ∨ ∃ n, value = .int n text := by
  unfold numberLiteral at h
  split at h
  · split at h
    · exact Or.inl ⟨_, (Except.ok.inj h).symm⟩
    · cases h
  · split at h
    · exact Or.inr ⟨_, (Except.ok.inj h).symm⟩
    · cases h
    · cases h

theorem literal_of_token (h : literal? t = .ok (some value)) :
    (t.kind ≠ .delimiter ∧ t.kind ≠ .stream) ∧ t.text = value.text ∧ (t.Cut → value.Spelled) := by
  refine ⟨by constructor <;> intro hkind <;> simp [literal?, hkind] at h, ?_⟩
  unfold literal? at h
  cases hkind : t.kind with
  | number =>
    rw [hkind] at h
    cases hnum : numberLiteral t.text with
    | error fault =>
      simp only [hnum] at h
      cases h
    | ok value' =>
      simp only [hnum] at h
      cases h
      rcases numberLiteral_cases hnum with ⟨x, rfl⟩ | ⟨n, rfl⟩
      · exact ⟨rfl, fun _ => trivial⟩
      · exact ⟨rfl, fun ht => ((ht.isNumber hkind).int_bounds hnum).2⟩
  | string =>
    simp only [hkind] at h
    cases h
    exact ⟨rfl, fun ht => ⟨ht.clean, (ht.string hkind).1, (ht.string hkind).2, rfl⟩⟩
  | char =>
    simp only [hkind] at h
    cases h
    exact ⟨rfl, fun ht => ⟨ht.clean, (ht.char hkind).1, (ht.char hkind).2, rfl⟩⟩
  | keyword =>
    simp only [hkind, Except.ok.injEq] at h
    split at h
    · next htrue =>
      cases h
      exact ⟨eq_of_beq htrue, fun _ => trivial⟩
    split at h
    · next hfalse =>
      cases h
      exact ⟨eq_of_beq hfalse, fun _ => trivial⟩
    · cases h
  | _ =>
    simp only [hkind] at h
    cases h

/-! ### Loops -/

theorem spans_repeatWhile {more : Parser Bool}
    (hmore : ∀ c, Spans more c fun used _ _ => Spells p 0 0 used [] [])
    (hitem : ∀ c, SpansExpr p item c) (c : Cursor) : SpansList p (repeatWhile more item) c := by
  have hupTo : ∀ bound c, SpansList p (repeatUpTo more item bound) c := by
    intro bound
    induction bound with
    | zero => exact fun c => .pure .nil
    | succ bound ih =>
      intro c
      refine Spans.bind (hmore c) fun b d used _ hused => .ite (fun _ => ?_) fun _ => .pure ?_
      · refine Spans.bind (hitem d) fun e d' first _ hfirst =>
          Spans.last (ih d') fun es _ others hothers => ?_
        exact hused.append (hfirst.append hothers)
      · rwa [List.append_nil]
  exact .look (a := c) rfl (hupTo _ c)

theorem spans_commaSeparated (hitem : ∀ c, SpansExpr p item c) (c : Cursor) :
    SpansList p (commaSeparated item) c := by
  refine Spans.bind (hitem c) fun e d first _ hfirst => ?_
  exact Spans.last (spans_repeatWhile spans_matchComma hitem d) fun es _ others hothers =>
    hfirst.append hothers

theorem spans_commaTerminated (close : String) (hitem : ∀ c, SpansExpr p item c) (c : Cursor) :
    SpansList p (commaTerminated close item) c := by
  refine .look (a := (c.ahead 0).isDelimiter close) rfl (.ite (fun _ => .pure .nil) fun _ => ?_)
  refine Spans.bind (hitem c) fun e d first _ hfirst => ?_
  refine Spans.last (spans_repeatWhile (fun c => ?_) hitem d) fun es _ others hothers =>
    hfirst.append hothers
  refine Spans.bind (spans_matchComma (p := p) c) fun b d used _ hused =>
    .ite (fun _ => ?_) fun _ => ?_
  · exact .look (a := (d.ahead 0).isDelimiter close) rfl (.pure (by rwa [List.append_nil]))
  · exact .pure (by rwa [List.append_nil])

/-- The expression read so far is spelled by the tokens so far. -/
theorem spans_stepUpTo {step : Expr → Parser (ForInStep Expr)}
    (hstep : ∀ c e ts, SpellsExpr p ts e → Spans (step e) c fun used r _ =>
      SpellsExpr p (ts ++ used) r.value) (bound : Nat) :
    ∀ c e ts, SpellsExpr p ts e →
      Spans (stepUpTo step bound e) c fun used e' _ => SpellsExpr p (ts ++ used) e' := by
  induction bound with
  | zero => exact fun c e ts he => .pure (by rwa [List.append_nil])
  | succ bound ih =>
    intro c e ts he
    refine Spans.bind (hstep c e ts he) fun r d used _ hused => ?_
    cases r with
    | done e' => exact .pure (by rwa [List.append_nil])
    | yield e' =>
      exact (ih d e' (ts ++ used) hused).mono fun more _ _ _ hmore => by rwa [← List.append_assoc]

theorem spans_operatorStep (hoperand : ∀ k c, SpansExpr (Tight k) (operand k) c) (least : Nat)
    (he : SpellsExpr (Tight least) ts e) :
    Spans (operatorStep operand least e) c fun used r _ =>
    SpellsExpr (Tight least) (ts ++ used) r.value := by
  refine .look (a := c.ahead 0) rfl ?_
  have hdone : Spans (pure (.done e)) c
      fun used (r : ForInStep Expr) _ => SpellsExpr (Tight least) (ts ++ used) r.value :=
    .pure (by rwa [List.append_nil])
  cases htoken : Joint.ofToken? (c.ahead 0) with
  | error fault => exact .throw
  | ok joint =>
    refine .look (a := joint) rfl ?_
    cases joint with
    | none => exact hdone
    | some joint =>
      refine .ite (fun _ => hdone) fun hpow => ?_
      obtain ⟨hkind, htext⟩ := symbol_of_joint htoken
      refine Spans.bind (spans_discardAdvance (kind_of_joint htoken)) fun _ d sign _ hsign => ?_
      refine Spans.last (hoperand _ d) fun right _ used hright => ?_
      rw [hsign]
      have hsign := Spells.sign hkind (not_tight_of_shift htoken hpow) fun _ => htext
      have hchildren := joint.children_build e right
      refine Spells.node (hchildren ▸ he.append
        (hsign.append (hright.mono fun h => h.rightPower hpow))) (fun _ => ?_)
        fun _ => (joint.words_build e right).symm
      cases joint <;> trivial

theorem spans_climb (hoperand : ∀ k c, SpansExpr (Tight k) (operand k) c) (least : Nat)
    (he : SpellsExpr (Tight least) ts e) (c : Cursor) :
    Spans (climb operand least e) c fun used e' _ => SpellsExpr (Tight least) (ts ++ used) e' := by
  refine .look (a := c) rfl ?_
  exact spans_stepUpTo (fun _ _ _ => spans_operatorStep hoperand least) _ c e ts he

theorem spans_memberName (access : Access) (c : Cursor) :
    Spans (memberName access) c fun used field _ => Spells p 0 0 used [] [field] ∧
      ((∀ t ∈ used, t.Cut) → Lexical.IsWord field.toList ∧
      (access ≠ .scope → field ∉ Lexical.keywords)) := by
  refine .look (a := c.ahead 0) rfl (.ite (fun h => ?_) fun _ => .look (a := c.ahead 0) rfl .throw)
  have hkind : (c.ahead 0).kind = .identifier ∨ access = .scope ∧ (c.ahead 0).kind = .keyword := by
    simpa only [Bool.or_eq_true, Bool.and_eq_true, beq_iff_eq] using h
  have hne : (c.ahead 0).kind ≠ .endOfInput ∧ (c.ahead 0).kind ≠ .delimiter ∧
      (c.ahead 0).kind ≠ .stream := by
    rcases hkind with hkind | ⟨-, hkind⟩ <;> simp [hkind]
  refine Spans.last (spans_discardAdvance hne.1) fun _ _ _ hused => ?_
  rw [hused]
  refine ⟨.word hne.2 fun _ => rfl, fun hcut => ?_⟩
  have ht := hcut (c.ahead 0) List.mem_cons_self
  rcases hkind with hkind | ⟨hscope, hkind⟩
  · exact ⟨(ht.identifier hkind).1, fun _ => (ht.identifier hkind).2⟩
  · exact ⟨ht.isWord (Or.inr hkind), fun hno => absurd hscope hno⟩

theorem spans_suffixStep {arguments : Parser (List Expr)} {subscript : Parser Expr}
    (harguments : ∀ c, SpansList p arguments c) (hsubscript : ∀ c, SpansExpr p' subscript c)
    (he : SpellsExpr p ts e) :
    Spans (suffixStep arguments subscript e) c fun used r _ =>
    SpellsExpr p (ts ++ used) r.value := by
  refine .look (a := c.ahead 0) rfl ?_
  split
  · refine Spans.last (harguments c) fun args _ used hargs => ?_
    exact (he.append hargs).node (fun _ => trivial) fun _ => rfl
  split
  · next hidx =>
    refine Spans.bind (spans_discardGrouping p 0 1 hidx (by decide)) fun _ d left _ hleft => ?_
    refine Spans.bind (hsubscript d) fun i d' used _ hi => ?_
    refine Spans.last (spans_expectGrouping p 1 0 (by decide) d') fun _ _ right hright => ?_
    exact (he.append (hleft.append (hi.inside.append hright))).node (fun _ => trivial) fun _ => by
      simp [Expr.words]
  cases hacc : access? (c.ahead 0) with
  | some access =>
    refine Spans.bind (spans_discardWord (p := p) (ordinary_of_access hacc).not_end
      (kind_of_access hacc)
      (symbol_of_access hacc)) fun _ d sign _ hsign => ?_
    refine Spans.last (spans_memberName (p := p) access d) fun field _ used hfld => ?_
    refine (he.append (hsign.append hfld.1)).node (fun hcut => hfld.2 fun t ht => hcut t ?_)
      fun _ => rfl
    simp [ht]
  | none =>
    cases hop : stepOp? (c.ahead 0) with
    | some op =>
      obtain ⟨hkind, htext⟩ := symbol_of_stepOp hop
      refine Spans.last (spans_discardWord (p := p) (ordinary_of_step hop).not_end (by simp [hkind])
        fun _ => htext)
        fun _ _ sign hsign => ?_
      exact (he.append hsign).node (fun _ => trivial) fun _ => rfl
    | none => exact .pure (by rwa [List.append_nil])

/-! ### Expressions -/

/-- The rules for expressions spell what they read. -/
structure SpellsRules (depth : Nat) : Prop where
  expression : ∀ least c, SpansExpr (Tight least) (expression depth least) c
  unary : ∀ p c, SpansExpr p (unary depth) c
  suffixes : ∀ p e ts c, SpellsExpr p ts e → Spans (suffixes depth e) c fun used e' _ =>
    SpellsExpr p (ts ++ used) e'
  arguments : ∀ p c, SpansList p (arguments depth) c
  primary : ∀ p c, SpansExpr p (primary depth) c
  allocation : ∀ p (c : Cursor), (c.ahead 0).isKeyword ["new"] = true →
    SpansExpr p (allocation depth) c
  listBetween : ∀ p opening close (c : Cursor), Groups 0 opening 1 → Groups 1 close 0 →
    (c.ahead 0).isDelimiter opening = true → SpansExpr p (listBetween depth close) c

namespace SpellsRules

theorem zero : SpellsRules 0 := by
  constructor
  case expression => intro least c; rw [Parse.expression]; exact .throw
  case unary => intro p c; rw [Parse.unary]; exact .throw
  case suffixes => intro p e ts c _; rw [Parse.suffixes]; exact .throw
  case arguments => intro p c; rw [Parse.arguments]; exact .throw
  case primary => intro p c; rw [Parse.primary]; exact .throw
  case allocation => intro p c _; rw [Parse.allocation]; exact .throw
  case listBetween => intro p opening close c _ _ _; rw [Parse.listBetween]; exact .throw

variable (h : SpellsRules depth)

include h

theorem expression_succ (least : Nat) (c : Cursor) :
    SpansExpr (Tight least) (Parse.expression (depth + 1) least) c := by
  rw [Parse.expression]
  exact Spans.bind (h.unary (Tight least) c) fun left d used _ hleft =>
    spans_climb h.expression least hleft d

theorem unary_succ (c : Cursor) : SpansExpr p (Parse.unary (depth + 1)) c := by
  rw [Parse.unary]
  refine .look (a := c.ahead 0) rfl ?_
  cases hop : unaryOp? (c.ahead 0) with
  | some op =>
    obtain ⟨hkind, htext⟩ := symbol_of_unaryOp hop
    refine Spans.bind (spans_discardWord (p := p) (ordinary_of_unaryOp hop).not_end
      (by simp [hkind]) fun _ => htext)
      fun _ d sign _ hsign => ?_
    refine Spans.last (h.unary p d) fun operand _ used hoperand => ?_
    exact (hsign.append hoperand).node (fun _ => trivial) fun _ => rfl
  | none => exact Spans.bind (h.primary p c) fun e d used _ he => h.suffixes _ e used d he

theorem suffixes_succ (he : SpellsExpr p ts e) (c : Cursor) :
    Spans (Parse.suffixes (depth + 1) e) c fun used e' _ => SpellsExpr p (ts ++ used) e' := by
  rw [Parse.suffixes]
  refine .look (a := c) rfl ?_
  exact spans_stepUpTo (fun _ _ _ => spans_suffixStep (h.arguments _) (h.expression _)) _ c e ts he

theorem arguments_succ (c : Cursor) : SpansList p (Parse.arguments (depth + 1)) c := by
  rw [Parse.arguments]
  refine Spans.bind (spans_expectGrouping p 0 1 (by decide) c) fun _ d left _ hleft => ?_
  refine .look (a := (d.ahead 0).isDelimiter ")") rfl ?_
  have hclose : ∀ (args : List Expr) (d : Cursor) (used : List Token),
    Spells p 1 1 used args (Expr.wordsOf args) →
      Spans (discard (expectDelimiter ")") >>= fun _ => pure args) d
        fun more args' _ => Spells p 0 0 (left ++ (used ++ more)) args' (Expr.wordsOf args') := by
    intro args d used hargs
    refine Spans.bind (spans_expectGrouping p 1 0 (by decide) d) fun _ _ right _ hright => .pure ?_
    have hparts := hleft.append (hargs.append hright)
    simpa using hparts
  refine .ite (fun _ => hclose [] d [] .nil) fun _ => ?_
  exact Spans.bind (spans_commaSeparated (h.expression _) d) fun args d' used _ hargs =>
    hclose args d' used hargs.inside

theorem primary_succ (c : Cursor) : SpansExpr p (Parse.primary (depth + 1)) c := by
  rw [Parse.primary]
  refine .look (a := c.ahead 0) rfl ?_
  -- an expression of one token has the word of the token
  have hleaf : ∀ {e : Expr} {w : String}, (c.ahead 0).kind ≠ .endOfInput →
      (c.ahead 0).kind ≠ .delimiter ∧ (c.ahead 0).kind ≠ .stream → (c.ahead 0).text = w →
      e.children = [] → e.words = [w] → ((c.ahead 0).Cut → e.Spelled) →
      SpansExpr p (discard advance >>= fun _ => pure e) c := by
    intro e w hend hkind htext hchildren hwords hspelled
    refine Spans.last (spans_discardAdvance hend) fun _ _ _ hused => ?_
    rw [hused]
    refine Spells.node ?_ (fun hcut => hspelled (hcut _ List.mem_cons_self)) fun _ => hwords.symm
    rw [hchildren]
    exact .word hkind fun _ => htext
  cases hlit : literal? (c.ahead 0) with
  | error fault =>
    intro a d hrun
    cases hrun
  | ok value =>
    refine .look (a := value) rfl ?_
    cases value with
    | some value =>
      obtain ⟨hkind, htext, hspelled⟩ := literal_of_token hlit
      exact hleaf (ordinary_of_literal hlit).not_end hkind htext rfl rfl hspelled
    | none =>
      refine .ite (fun hname => ?_) fun _ => .ite (fun hendl => ?_) fun _ =>
        .ite (fun hnew => ?_) fun _ =>
        .ite (fun hparen => ?_) fun _ => .ite (fun hbracket => ?_) fun _ =>
        .ite (fun hbrace => ?_) fun _ => ?_
      · have hkind : (c.ahead 0).kind = .identifier := by simpa using hname
        exact hleaf (by simp [hkind]) (by simp [hkind]) rfl rfl rfl fun hcut =>
          hcut.identifier hkind
      · have hword : (c.ahead 0).kind = .keyword ∧ (c.ahead 0).text = "endl" := by
          simpa [Token.isKeyword] using hendl
        exact hleaf (by simp [hword.1]) (by simp [hword.1]) hword.2 rfl rfl fun _ => trivial
      · exact h.allocation _ c hnew
      · refine Spans.bind (spans_discardGrouping p 0 1 hparen (by decide))
          fun _ d left _ hleft => ?_
        refine Spans.bind (h.expression _ d) fun e d' used _ he => ?_
        refine Spans.bind (spans_expectGrouping p 1 0 (by decide) d')
          fun _ _ right _ hright => .pure ?_
        have hparts := hleft.append (he.inside.append hright)
        simpa using hparts
      · exact h.listBetween _ _ _ c (by decide) (by decide) hbracket
      · exact h.listBetween _ _ _ c (by decide) (by decide) hbrace
      · exact .look (a := c.ahead 0) rfl .throw

theorem allocation_succ (hnew : (c.ahead 0).isKeyword ["new"] = true) :
    SpansExpr p (Parse.allocation (depth + 1)) c := by
  rw [Parse.allocation]
  refine Spans.bind (.advance (R := fun used _ _ => ∀ t ∈ used, Flat t)
    (quiet_of_isKeyword hnew).kind_ne
    (List.forall_mem_singleton.mpr (quiet_of_isKeyword hnew).flat)) fun t d sign _ hsign => ?_
  refine Spans.bind ((level_typeExpr depth).1 d) fun type d' front _ hfront => ?_
  have hhead : Spells p 0 0 (sign ++ front) [] (spelling (sign ++ front)) :=
    .flat (List.forall_mem_append.mpr ⟨hsign, hfront.1⟩)
  refine Spans.bind (spans_matchGrouping (p := p) (j := 1) (by decide) d') fun b d'' left _ hleft =>
    .ite (fun hb => ?_) fun hb => ?_
  · rw [hb] at hleft
    refine Spans.bind (h.expression _ d'') fun size e used _ hsize => ?_
    refine Spans.last (spans_expectGrouping p 1 0 (by decide) e) fun _ _ right hright => ?_
    have hparts := hhead.append (hleft.append (hsize.inside.append hright))
    have hnode := hparts.node (e := .newArray t.position type size) (fun _ => trivial)
      fun h => by cases h
    simpa only [List.append_assoc] using hnode
  · rw [Bool.not_eq_true] at hb
    rw [hb] at hleft
    -- parentheses without arguments add no word
    have hplain : ∀ {used}, Spells p 0 0 used [] [] →
        SpellsExpr p (sign ++ (front ++ (left ++ used))) (.new t.position type) := fun hused => by
      have hnode := (hhead.append (hleft.append hused)).node (e := .new t.position type)
        (fun _ => trivial)
        fun h => by cases h
      simpa only [List.append_assoc] using hnode
    refine .look (a := (d''.ahead 0).isDelimiter "(") rfl (.look (a := d''.ahead 1) rfl ?_)
    refine .ite (fun hparens => ?_) fun _ => .pure (hplain .nil)
    obtain ⟨hopen, hclose⟩ := Bool.and_eq_true_iff.mp hparens
    have hsecond : d''.next.ahead 0 = d''.ahead 1 :=
        d''.ahead_one (ordinary_of_isDelimiter hopen).not_end fun h => by
      rw [h] at hclose
      simp only [Token.isDelimiter, Token.is, Bool.and_eq_true, beq_iff_eq] at hopen hclose
      exact absurd (hopen.2.symm.trans hclose.2) (by decide)
    refine Spans.bind (spans_discardGrouping p 0 1 hopen (by decide))
      fun _ e first hrun hfirst => ?_
    cases hrun
    refine Spans.last (spans_discardGrouping p 1 0 (hsecond ▸ hclose) (by decide))
      fun _ _ second hsecond => ?_
    exact hplain (hfirst.append hsecond)

theorem listBetween_succ {opening close : String} (hopening : Groups 0 opening 1)
    (hclose : Groups 1 close 0)
    (hhead : (c.ahead 0).isDelimiter opening = true) :
    SpansExpr p (Parse.listBetween (depth + 1) close) c := by
  rw [Parse.listBetween]
  refine Spans.bind (.advance (R := fun used _ _ => Spells p 0 1 used [] [])
    (ordinary_of_isDelimiter hhead).not_end
    (.grouping hhead hopening)) fun t d left _ hleft => ?_
  refine Spans.bind (spans_commaTerminated close (h.expression _) d) fun es d' used _ hes => ?_
  refine Spans.last (spans_expectGrouping p 1 0 hclose d') fun _ _ right hright => ?_
  have hparts := hleft.append (hes.inside.append hright)
  simp only [List.nil_append, List.append_nil] at hparts
  exact hparts.node (fun _ => trivial) fun _ => rfl

end SpellsRules

/-- Every rule for expressions spells what it reads. -/
theorem spellsRules (depth : Nat) : SpellsRules depth := by
  induction depth with
  | zero => exact .zero
  | succ depth ih =>
    exact ⟨ih.expression_succ, fun _ => ih.unary_succ, fun _ _ _ c he => ih.suffixes_succ he c,
      fun _ => ih.arguments_succ, fun _ => ih.primary_succ, fun _ _ => ih.allocation_succ,
      fun _ _ _ _ => ih.listBetween_succ⟩

/-- **Reading an expression loses, repeats and reorders nothing.**  Wherever in a source an
expression without allocations is read, its words are the texts of the tokens that were consumed, in
their order, up to brackets and commas. -/
theorem expression_words {text file : String} {tokens : List Token}
    (htoks : (Source.ofText text file).tokenize = .ok tokens) {c c' : Cursor}
    (hc : c.rest <:+ tokens)
    {depth least : Nat} {e : Expr} (hread : expression depth least c = .ok e c')
    (hplain : e.Every fun e => e.isNew = false) :
    ∃ used, c.rest = used ++ c'.rest ∧ e.words = (used.filter fun t => !isGrouping t).map
    Token.text := by
  obtain ⟨used, hrest, hused⟩ := (spellsRules depth).expression least c e c' hread
  have hcut : ∀ t ∈ used, t.Cut := fun t ht =>
    Source.cut_of_tokenize htoks t (hc.subset (hrest ▸ List.mem_append_left c'.rest ht))
  exact ⟨used, hrest, (hused.words hcut (by simpa using hplain)).symm⟩

/-- Calls, subscripts, lists and parentheses group words, and leave them in their places. -/
theorem expression_words_mixed :
    let e :
      Expr := .assign ⟨1, 1⟩ .assign
      (.step ⟨1, 1⟩ .increment (.index ⟨1, 1⟩ (.call ⟨1, 1⟩ (.member ⟨1, 1⟩
      (.name ⟨1, 1⟩ "p") .arrow "f") [.name ⟨1, 6⟩ "x", .unary ⟨1, 9⟩ .negate (.name ⟨1, 10⟩ "w")])
      (.name ⟨1, 13⟩ "i")))
      (.braces ⟨1, 20⟩ [.name ⟨1, 21⟩ "y", .binary ⟨1, 25⟩ .mul (.binary ⟨1, 25⟩ .add
      (.name ⟨1, 25⟩ "z") (.literal ⟨1, 29⟩ (.char 'c' "'c'"))) (.name ⟨1, 36⟩ "u")])
    ∃ tokens c', (Source.ofText "p->f(x, -w)[i]++ = \x7by, (z + 'c') * u,\x7d;" "<input>").tokenize
    = .ok tokens ∧
      expression 20 assignPower (Cursor.start tokens) = .ok e c' ∧
      e.words = ["p", "->", "f", "x", "-", "w", "i", "++", "=", "y", "z", "+", "'c'", "*", "u"] ∧
      ∃ used, (Cursor.start tokens).rest = used ++ c'.rest ∧
        e.words = (used.filter fun t => !isGrouping t).map Token.text := by
  intro e
  obtain ⟨tokens, c', htoks, hrest, hread⟩ : ∃ tokens c',
      (Source.ofText "p->f(x, -w)[i]++ = \x7by, (z + 'c') * u,\x7d;" "<input>").tokenize =
      .ok tokens ∧
        (Cursor.start tokens).rest = tokens ∧
        expression 20 assignPower (Cursor.start tokens) = .ok e c' :=
    ⟨_, _, rfl, rfl, rfl⟩
  have hsuf : (Cursor.start tokens).rest <:+ tokens := ⟨[], hrest⟩
  have hplain : e.Every fun e =>
    e.isNew = false := by simp [e, Expr.Every, Expr.EveryOf, Expr.isNew]
  exact ⟨tokens, c', htoks, hread, rfl, expression_words htoks hsuf hread hplain⟩

end Parse

end SmallCpp
