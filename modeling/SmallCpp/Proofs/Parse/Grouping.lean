import SmallCpp.Proofs.Number.Numeral
import SmallCpp.Proofs.Parse.Reading

/-!
# Precedence climbing

Operands with operators between them are grouped by the powers of the operators: a chain is split at
its first assignment, and if it has none at its last operator of the lowest power.  Precedence
climbing finds this grouping from left to right, without looking at the whole chain.  It needs one
level of nesting for each right operand inside a right operand, so a long chain of assignments meets
the nesting limit.

## Main results

* `expression_groups` — **precedence climbing is the grouping by powers**, as far as the chain has
  the least power, or the nesting limit is met. -/

namespace SmallCpp.Parse

variable {before before' after' : List (Joint × Expr)} {x x' : Joint × Expr}
  {least more depth : Nat} {links : List Link} {last : Token} {joint : Joint}

/-! ### Grouping by powers -/

def Joint.isAssign : Joint → Bool
  | assign _ => true
  | binary _ => false

theorem BinaryOp.power_pos (op : BinaryOp) : 0 < op.power := by
  cases op <;> decide

theorem Joint.power_eq_zero_iff (joint : Joint) : joint.power = 0 ↔ joint.isAssign = true := by
  cases joint with
  | assign op => simp [power, assignPower, isAssign]
  | binary op => simp [power, isAssign, Nat.pos_iff_ne_zero.mp (BinaryOp.power_pos op)]

/-- A chain is split at its first assignment, and if it has none at its last operator of the lowest
power.  No assignment stands beside that operator, since assignments have the lowest power of
all. -/
def IsPivot (before : List (Joint × Expr)) (joint : Joint) (after : List (Joint × Expr)) : Prop :=
  if joint.isAssign then ∀ x ∈ before, x.1.isAssign = false
  else (∀ x ∈ before, joint.power ≤ x.1.power) ∧ ∀ x ∈ after, joint.power < x.1.power

instance (before : List (Joint × Expr)) (joint : Joint) (after : List (Joint × Expr)) :
    Decidable (IsPivot before joint after) := by
  unfold IsPivot
  infer_instance

/-- The ways to split a list at one of its elements. -/
def splits {α : Type} : List α → List (List α × α × List α)
  | [] => []
  | a :: as => ([], a, as) :: (splits as).map fun s => (a :: s.1, s.2)

theorem mem_splits_iff {α : Type} {l before after : List α} {a : α} :
    (before, a, after) ∈ splits l ↔ l = before ++ a :: after := by
  induction l generalizing before with
  | nil => simp [splits]
  | cons x l ih =>
    cases before with
    | nil => simp [splits, eq_comm]
    | cons y before =>
      simp only [splits, List.mem_cons, Prod.mk.injEq, List.mem_map, Prod.exists]
      constructor
      · rintro (⟨hnil, -⟩ | ⟨before', a', after', hmem, ⟨rfl, rfl⟩, rfl, rfl⟩)
        · cases hnil
        · simp [ih.mp hmem]
      · rintro heq
        cases heq
        exact Or.inr ⟨before, a, after, ih.mpr rfl, rfl, rfl, rfl⟩

/-- The grouping of a chain by the powers of its operators. -/
def group (first : Expr) (links : List (Joint × Expr)) : Expr :=
  match _hfind : (splits links).find? fun s => decide (IsPivot s.1 s.2.1.1 s.2.2) with
  | none => first
  | some (before, (joint, operand), after) =>
    joint.build (group first before) (group operand after)
termination_by links.length
decreasing_by
  all_goals
    have hmem := mem_splits_iff.mp (List.mem_of_find?_eq_some _hfind)
    simp only [hmem, List.length_append, List.length_cons]
    omega

theorem IsPivot.power_le {after : List (Joint × Expr)} (h : IsPivot before joint after) :
    ∀ x ∈ before, joint.power ≤ x.1.power := by
  unfold IsPivot at h
  split at h
  · next hassign => simp [joint.power_eq_zero_iff.mpr hassign]
  · exact h.1

/-- The pivot stays the pivot behind operators of its power that are no assignments. -/
theorem IsPivot.append_left {front after : List (Joint × Expr)}
    (h : IsPivot before joint after) (hfront : ∀ x ∈ front, joint.power ≤ x.1.power ∧
      0 < x.1.power) :
    IsPivot (front ++ before) joint after := by
  unfold IsPivot at h ⊢
  split
  · next hassign =>
    rw [if_pos hassign] at h
    refine List.forall_mem_append.mpr ⟨fun x hx => ?_, h⟩
    rw [Bool.eq_false_iff, ne_eq, ← x.1.power_eq_zero_iff]
    have := hfront x hx
    omega
  · next hassign =>
    rw [if_neg hassign] at h
    exact ⟨List.forall_mem_append.mpr ⟨fun x hx => (hfront x hx).1, h.1⟩, h.2⟩

theorem IsPivot.not_mem {after : List (Joint × Expr)}
    (h : IsPivot before x.1 after) (h' : IsPivot before' x'.1 after') (hx : x ∈ before')
    (hx' : x' ∈ after) : False := by
  unfold IsPivot at h h'
  by_cases hassign : x'.1.isAssign = true
  · have hzero := x'.1.power_eq_zero_iff.mpr hassign
    rw [if_pos hassign] at h'
    rw [if_neg (by simp [h' x hx])] at h
    have := h.2 x' hx'
    omega
  · rw [if_neg hassign] at h'
    have hle := h'.1 x hx
    have hpos : x.1.isAssign ≠ true := by
      intro hzero
      have := x.1.power_eq_zero_iff.mpr hzero
      exact hassign (x'.1.power_eq_zero_iff.mp (by omega))
    rw [if_neg hpos] at h
    have := h.2 x' hx'
    omega

theorem IsPivot.unique {after : List (Joint × Expr)}
    (h : IsPivot before x.1 after) (h' : IsPivot before' x'.1 after')
    (heq : before ++ x :: after = before' ++ x' :: after') :
    before = before' ∧ x = x' ∧ after = after' := by
  rcases List.append_eq_append_iff.mp heq with ⟨mid, hbefore, hafter⟩ | ⟨mid, hbefore, hafter⟩
  · cases mid with
    | nil =>
      rw [List.nil_append, List.cons.injEq] at hafter
      rw [List.append_nil] at hbefore
      exact ⟨hbefore.symm, hafter⟩
    | cons y mid =>
      rw [List.cons_append, List.cons.injEq] at hafter
      obtain ⟨rfl, rfl⟩ := hafter
      exact absurd (h.not_mem h' (by simp [hbefore]) (by simp)) not_false
  · cases mid with
    | nil =>
      rw [List.nil_append, List.cons.injEq] at hafter
      rw [List.append_nil] at hbefore
      exact ⟨hbefore, hafter.1.symm, hafter.2.symm⟩
    | cons y mid =>
      rw [List.cons_append, List.cons.injEq] at hafter
      obtain ⟨rfl, rfl⟩ := hafter
      exact absurd (h'.not_mem h (by simp [hbefore]) (by simp)) not_false

theorem exists_isPivot {links : List (Joint × Expr)} (hne : links ≠ []) :
    ∃ before x after, links = before ++ x :: after ∧ IsPivot before x.1 after := by
  induction links with
  | nil => exact absurd rfl hne
  | cons x links ih =>
    by_cases hnil : links = []
    · subst hnil
      exact ⟨[], x, [], rfl, by simp [IsPivot]⟩
    · obtain ⟨before, y, after, rfl, hpivot⟩ := ih hnil
      unfold IsPivot at hpivot
      by_cases hx : x.1.isAssign = true
      · exact ⟨[], x, _, rfl, by simp [IsPivot, hx]⟩
      · by_cases hy : y.1.isAssign = true
        · rw [if_pos hy] at hpivot
          exact ⟨x :: before, y, after, rfl, by simp [IsPivot, hy, hx]; simpa using hpivot⟩
        · rw [if_neg hy] at hpivot
          by_cases hlt : x.1.power < y.1.power
          · refine ⟨[], x, before ++ y :: after, rfl, ?_⟩
            rw [IsPivot, if_neg hx]
            refine ⟨by simp, ?_⟩
            intro z hz
            rcases List.mem_append.mp hz with hz | hz
            · have := hpivot.1 z hz
              omega
            · rcases List.mem_cons.mp hz with rfl | hz
              · exact hlt
              · have := hpivot.2 z hz
                omega
          · refine ⟨x :: before, y, after, rfl, ?_⟩
            rw [IsPivot, if_neg hy]
            exact ⟨List.forall_mem_cons.mpr ⟨by omega, hpivot.1⟩, hpivot.2⟩

@[simp] theorem group_nil (first : Expr) : group first [] = first := by
  rw [group]
  rfl

/-- A chain is split at its pivot. -/
theorem group_of_isPivot (first : Expr) {after : List (Joint × Expr)}
    (h : IsPivot before x.1 after) :
    group first (before ++ x :: after) = x.1.build (group first before) (group x.2 after) := by
  rw [group]
  split
  · next hnone =>
    have hno := List.find?_eq_none.mp hnone _ (mem_splits_iff.mpr rfl)
    exact absurd (decide_eq_true h) hno
  · next before' joint operand after' hsome =>
    have hpivot : IsPivot before' joint after' := by simpa using List.find?_some hsome
    have heq := mem_splits_iff.mp (List.mem_of_find?_eq_some hsome)
    obtain ⟨rfl, rfl, rfl⟩ := h.unique hpivot heq
    rfl

/-- The power of the operators on the right of an operator is at least its own. -/
theorem Joint.power_le_rightPower (joint : Joint) : joint.power ≤ joint.rightPower := by
  cases joint with
  | assign op => exact Nat.le_refl _
  | binary op => exact Nat.le_succ _

/-- An operator takes the operators of its right power, up to the first weaker one, and the rest of
the chain is grouped around it. -/
theorem group_append (first operand : Expr) (joint : Joint) (inner outer : List (Joint × Expr))
    (hinner : ∀ x ∈ inner, joint.rightPower ≤ x.1.power)
    (houter : ∀ x ∈ outer.head?, x.1.power < joint.rightPower) :
    group first ((joint, operand) :: (inner ++ outer)) =
      group (joint.build first (group operand inner)) outer := by
  -- an assignment takes everything, and beside any other operator stand no assignments
  have hbinary : ∀ x ∈ outer.head?, joint.rightPower = joint.power + 1 := by
    intro x hx
    have hlt := houter x hx
    cases joint with
    | assign op => exact absurd hlt (Nat.not_lt_zero _)
    | binary op => rfl
  induction hn : outer.length using Nat.strongRecOn generalizing outer with
  | ind n ih =>
    subst hn
    by_cases hnil : outer = []
    · subst hnil
      have hpivot : IsPivot [] joint inner := by
        unfold IsPivot
        split
        · simp
        · next hassign =>
          refine ⟨by simp, fun x hx => ?_⟩
          have hle := hinner x hx
          cases joint with
          | assign op => exact absurd rfl hassign
          | binary op => exact hle
      rw [List.append_nil, group_nil]
      have hsplit := group_of_isPivot (x := (joint, operand)) first hpivot
      rwa [group_nil, List.nil_append] at hsplit
    · obtain ⟨before, y, after, rfl, hpivot⟩ := exists_isPivot hnil
      have hhead : ∃ x, x ∈ (before ++ y :: after).head? ∧ (x = y ∨ x ∈ before) := by
        cases before with
        | nil => exact ⟨y, rfl, Or.inl rfl⟩
        | cons x before => exact ⟨x, rfl, Or.inr (by simp)⟩
      obtain ⟨x, hx, hmem⟩ := hhead
      have hlt := houter x hx
      have hright := hbinary x hx
      have hle : y.1.power ≤ joint.power := by
        rcases hmem with rfl | hmem
        · omega
        · have := hpivot.power_le x hmem
          omega
      have hpivot' : IsPivot ((joint, operand) :: inner ++ before) y.1 after := by
        refine hpivot.append_left (List.forall_mem_cons.mpr ⟨⟨hle, ?_⟩, ?_⟩)
        · cases joint with
          | assign op => exact absurd hright (by simp [Joint.rightPower, Joint.power])
          | binary op => exact BinaryOp.power_pos op
        · intro z hz
          have := hinner z hz
          omega
      have hfront : ∀ z ∈ before.head?, z ∈ (before ++ y :: after).head? := by
        intro z hz
        rw [List.head?_append, hz]
        rfl
      have hbefore := ih before.length (by simp) before (fun z hz => houter z (hfront z hz))
        (fun z hz => hbinary z (hfront z hz)) rfl
      have hsplit := group_of_isPivot first hpivot'
      rw [List.cons_append, hbefore, ← group_of_isPivot _ hpivot, List.cons_append,
        List.append_assoc] at hsplit
      exact hsplit

/-! ### The nesting of a grouping -/

/-- How many right operands are nested in one another, with nothing around them. -/
def rightNesting : Expr → Nat
  | .binary _ _ left right | .assign _ _ left right =>
    max (rightNesting left) (rightNesting right + 1)
  | _ => 0

theorem rightNesting_build (joint : Joint) (left right : Expr) :
    rightNesting (joint.build left right) = max (rightNesting left) (rightNesting right + 1) := by
  cases joint with
  | assign op => simp only [Joint.build, rightNesting]
  | binary op => simp only [Joint.build, rightNesting]

theorem rightNesting_le_group (first : Expr) (links : List (Joint × Expr)) :
    rightNesting first ≤ rightNesting (group first links) := by
  fun_induction group first links with
  | case1 => exact Nat.le_refl _
  | case2 first links before joint operand after hfind ih _ =>
    rw [rightNesting_build]
    omega

/-! ### The tokens of a chain -/

/-- A name or a literal; an integer has at most as many digits as can be converted. -/
def IsOperand (t : Token) : Prop :=
  match t.kind with
  | .identifier | .string | .char => True
  | .keyword => t.text = "true" ∨ t.text = "false"
  | .number =>
    IsNumber t.text.toList ∧ (t.text.toList.any isDecimalMark = true ∨ t.text.length ≤ digitLimit)
  | _ => False

/-- An operand of one token. -/
structure Operand where
  token : Token
  isOperand : IsOperand token

/-- An operator with the operand on its right. -/
structure Link where
  joint : Joint
  sign : Token
  spelled : sign.lexeme = joint.lexeme
  operand : Operand

/-- The expression of an operand: a literal or a name. -/
def Operand.node (o : Operand) : Expr :=
  match literal? o.token with
  | .ok (some value) => .literal o.token.position value
  | _ => .name o.token.position o.token.text

namespace Link

/-- The tokens of the links of a chain. -/
def tokens (links : List Link) : List Token :=
  links.flatMap fun link => [link.sign, link.operand.token]

/-- The operators of a chain with the expressions of their right operands. -/
def nodes (links : List Link) : List (Joint × Expr) :=
  links.map fun link => (link.joint, link.operand.node)

@[simp] theorem tokens_nil : tokens [] = [] := rfl

@[simp] theorem tokens_cons (link : Link) (links : List Link) :
    tokens (link :: links) = link.sign :: link.operand.token :: tokens links := rfl

@[simp] theorem nodes_nil : nodes [] = [] := rfl

@[simp] theorem nodes_cons (link : Link) (links : List Link) :
    nodes (link :: links) = (link.joint, link.operand.node) :: nodes links := rfl

/-- The links up to the first operator below a power. -/
def upTo (least : Nat) (links : List Link) : List Link :=
  links.takeWhile fun link => decide (least ≤ link.joint.power)

/-- The links from the first operator below a power. -/
def after (least : Nat) (links : List Link) : List Link :=
  links.dropWhile fun link => decide (least ≤ link.joint.power)

theorem length_tokens (links : List Link) : (tokens links).length = 2 * links.length := by
  induction links with
  | nil => rfl
  | cons link links ih =>
    simp only [tokens_cons, List.length_cons, ih]
    omega

theorem after_after (h : least ≤ more) (links : List Link) :
    after least (after more links) = after least links := by
  induction links with
  | nil => rfl
  | cons link links ih =>
    by_cases hlink : more ≤ link.joint.power
    · have hleast : least ≤ link.joint.power := by omega
      simpa [after, hlink, hleast] using ih
    · simp [after, hlink]

theorem upTo_eq_append (h : least ≤ more) (links : List Link) :
    upTo least links = upTo more links ++ upTo least (after more links) := by
  induction links with
  | nil => rfl
  | cons link links ih =>
    by_cases hlink : more ≤ link.joint.power
    · have hleast : least ≤ link.joint.power := by omega
      simpa [upTo, after, hlink, hleast] using ih
    · simp [upTo, after, hlink]

theorem power_of_mem_upTo : ∀ link ∈ upTo least links, least ≤ link.joint.power := by
  intro link hlink
  simpa using List.all_eq_true.mp List.all_takeWhile link hlink

theorem power_of_mem_head?_after :
    ∀ link ∈ (after least links).head?, link.joint.power < least := by
  intro link hlink
  have hnot := List.head?_dropWhile_not (fun link : Link => decide (least ≤ link.joint.power)) links
  rw [after] at hlink
  rw [Option.mem_def.mp hlink] at hnot
  simpa using hnot

theorem sign_kind (link : Link) : link.sign.kind ≠ .endOfInput := by
  have hkind : link.sign.kind = link.joint.lexeme.kind := congrArg Lexeme.kind link.spelled
  rw [hkind]
  exact link.joint.lexeme_kind

end Link

theorem Operand.kind_ne (o : Operand) {kind : TokenKind}
    (h : kind ∈ [TokenKind.stream, .operator, .scope, .delimiter, .directive, .endOfInput]) :
    o.token.kind ≠ kind := by
  rintro rfl
  have := o.isOperand
  unfold IsOperand at this
  simp only [List.mem_cons, List.not_mem_nil, or_false] at h
  rcases h with h | h | h | h | h | h <;> rw [h] at this <;> exact this

theorem Operand.literal?_cases (o : Operand) :
    (∃ value, literal? o.token = .ok (some value)) ∨
      literal? o.token = .ok none ∧ o.token.kind = .identifier := by
  have hoperand := o.isOperand
  unfold IsOperand at hoperand
  unfold literal?
  cases hkind : o.token.kind with
  | identifier => exact Or.inr ⟨rfl, rfl⟩
  | string => exact Or.inl ⟨_, rfl⟩
  | char => exact Or.inl ⟨_, rfl⟩
  | keyword =>
    rw [hkind] at hoperand
    rcases hoperand with htext | htext
    · exact Or.inl ⟨.bool true, by simp [htext]⟩
    · exact Or.inl ⟨.bool false, by simp [htext]⟩
  | number =>
    rw [hkind] at hoperand
    obtain ⟨value, hval⟩ := exists_numberLiteral hoperand.1 hoperand.2
    exact Or.inl ⟨value, by simp [hval, Except.map]⟩
  | _ => exact absurd hkind (o.kind_ne (by simp))

/-! ### Climbing -/

/-- The tokens ahead, and there are no more of them than at the start. -/
structure Cursor.At (c : Cursor) (ts : List Token) : Prop where
  rest : c.rest = ts
  /-- The size still bounds the number of tokens. -/
  within : ts.length ≤ c.size

namespace Cursor.At

variable {c : Cursor} {t : Token} {ts : List Token}

theorem head (h : c.At (t :: ts)) : c.ahead 0 = t := by
  simp [Cursor.ahead, h.rest]

theorem next (h : c.At (t :: ts)) (hkind : t.kind ≠ .endOfInput) : c.next.At ts := by
  have hnext : c.next = { c with rest := ts, previous := some t } := by
    simp [Cursor.next, h.rest, hkind]
  rw [hnext]
  exact ⟨rfl, Nat.le_of_succ_le h.within⟩

end Cursor.At

theorem reads_unary (o : Operand) {t : Token} {ts : List Token} {c : Cursor}
    (hc : c.At (o.token :: t :: ts)) (ht : EndsOperand t) (depth : Nat) :
    Reads (2 ≤ depth) (unary depth) c fun e c' => e = o.node ∧ c'.At (t :: ts) := by
  have hprefix : unaryOp? (c.ahead 0) = none := by
    rw [hc.head, unaryOp?, if_neg (by simpa using o.kind_ne (by simp))]
  have hnext : c.next.At (t :: ts) := hc.next (o.kind_ne (by simp))
  have hprim : ∀ d, primary (d + 1) c = .ok o.node c.next := by
    intro d
    rw [primary, run_peek, hc.head]
    rcases o.literal?_cases with ⟨value, hval⟩ | ⟨hval, hkind⟩
    · simp only [hval, run_orFault_ok, run_discard_advance, Operand.node]
      rfl
    · simp only [hval, run_orFault_ok, hkind, Operand.node]
      rfl
  match depth with
  | 0 => exact Reads.tooDeep.congr (by simp)
  | 1 =>
    have hrun : unary 1 c = .error .tooDeep c := by
      rw [unary, run_peek, hprefix]
      rfl
    exact ⟨fun hle => absurd hle (by omega), fun _ => ⟨c, hrun⟩⟩
  | d + 2 =>
    have hsuffixes : suffixes (d + 1) o.node c.next = .ok o.node c.next := by
      rw [suffixes, run_get]
      exact suffixes_of_endsOperand (hnext.head ▸ ht) _ _
    have hrun : unary (d + 2) c = .ok o.node c.next := by
      rw [unary, run_peek, hprefix]
      exact (run_bind_ok (hprim d)).trans hsuffixes
    exact (Reads.of_ok hrun ⟨rfl, hnext⟩).congr (by simp)

/-- The chain that starts with `first`, as far as its operators have at least the power `least`. -/
def climbed (least : Nat) (first : Expr) (links : List Link) : Expr :=
  group first (Link.nodes (Link.upTo least links))

/-- The first operator of enough power takes its right operand, and climbing goes on behind it. -/
theorem climbed_cons {link : Link} (hpow : least ≤ link.joint.power) (first : Expr)
    (links : List Link) :
    climbed least first (link :: links) =
      climbed least
        (link.joint.build first (climbed link.joint.rightPower link.operand.node links))
        (Link.after link.joint.rightPower links) := by
  have hright := link.joint.power_le_rightPower
  have hhead : Link.upTo least (link :: links) = link :: Link.upTo least links := by
    simp [Link.upTo, hpow]
  unfold climbed
  rw [hhead, Link.nodes_cons, Link.upTo_eq_append (Nat.le_trans hpow hright), Link.nodes,
    List.map_append]
  refine group_append _ _ _ _ _ ?_ ?_
  · intro x hx
    obtain ⟨other, hother, rfl⟩ := List.mem_map.mp hx
    exact Link.power_of_mem_upTo other hother
  · intro x hx
    rw [List.head?_map, Link.upTo, List.head?_takeWhile] at hx
    obtain ⟨other, hother, rfl⟩ := Option.map_eq_some_iff.mp hx
    exact Link.power_of_mem_head?_after other (Option.filter_eq_some_iff.mp hother).1

/-- What a rule for the operands does, as far as `depth` levels reach. -/
def ReadsChains (last : Token) (depth : Nat) (rule : Nat → Parser Expr) : Prop :=
  ∀ (least : Nat) (first : Operand) (links : List Link) (c : Cursor),
    c.At (first.token :: (Link.tokens links ++ [last])) →
    Reads (rightNesting (climbed least first.node links) + 3 ≤ depth) (rule least) c fun e c' =>
      e = climbed least first.node links ∧ c'.At (Link.tokens (Link.after least links) ++ [last])

theorem reads_operators (hlast : last.kind = .endOfInput) {operand : Nat → Parser Expr}
    (hoperand : ReadsChains last depth operand) (least bound : Nat) (left : Expr)
    (links : List Link)
    (c : Cursor) (hbd : links.length < bound) (hleft : rightNesting left + 3 ≤ depth + 1)
    (hc : c.At (Link.tokens links ++ [last])) :
    Reads (rightNesting (climbed least left links) + 3 ≤ depth + 1)
      (stepUpTo (operatorStep operand least) bound left) c fun e c' =>
        e = climbed least left links ∧ c'.At (Link.tokens (Link.after least links) ++ [last]) := by
  induction bound generalizing left links c with
  | zero => exact absurd hbd (Nat.not_lt_zero _)
  | succ bound ih =>
    cases links with
    | nil =>
      have hnone : Joint.ofToken? (c.ahead 0) = .ok none := by
        rw [hc.head]
        exact Joint.ofToken?_of_endOfInput hlast
      have hsame : climbed least left [] = left := group_nil left
      rw [hsame]
      exact (Reads.of_ok (operators_of_none hnone _ left) ⟨rfl, hc⟩).congr
        (by simp [hleft])
    | cons link links =>
      have hsome : Joint.ofToken? (c.ahead 0) = .ok (some link.joint) := by
        rw [hc.head]
        exact Joint.ofToken?_of_lexeme link.spelled
      by_cases hpow : link.joint.power < least
      · have hstop : climbed least left (link :: links) = left ∧
            Link.after least (link :: links) = link :: links := by
          have hnot : ¬ least ≤ link.joint.power := by omega
          simp [climbed, Link.upTo, Link.after, hnot]
        rw [hstop.1, hstop.2]
        exact (Reads.of_ok (operators_of_lower hsome hpow _ left) ⟨rfl, hc⟩).congr
          (by simp [hleft])
      · have hnext := hc.next link.sign_kind
        -- the right operand takes the links that bind tighter, the loop goes on with the others
        have hshorter : (Link.after link.joint.rightPower links).length ≤ links.length :=
          (List.dropWhile_suffix _).length_le
        have hright := hoperand link.joint.rightPower link.operand links c.next hnext
        have hleast : least ≤ link.joint.power := by omega
        have hafter : Link.after least (link :: links) =
            Link.after least (Link.after link.joint.rightPower links) := by
          rw [Link.after_after (Nat.le_trans hleast link.joint.power_le_rightPower)]
          simp [Link.after, hleast]
        rw [climbed_cons hleast, hafter]
        refine Reads.run (Reads.bind_of_imp hright ?_ ?_) (run_operators hsome hpow _ left)
        · -- the right operand is part of the whole
          intro hfits
          have hle : rightNesting
            (link.joint.build left (climbed link.joint.rightPower link.operand.node links)) ≤
              rightNesting (climbed least _ (Link.after link.joint.rightPower links)) :=
              rightNesting_le_group _ _
          rw [rightNesting_build] at hle
          omega
        · rintro right c' hfits ⟨rfl, hc'⟩
          refine ih _ _ _ (by simp at hbd; omega) ?_ hc'
          rw [rightNesting_build]
          omega

/-- Expressions are read by climbing: one level is for the expression, and two are for an
operand. -/
theorem readsChains_expression (hlast : last.kind = .endOfInput) (depth : Nat) :
    ReadsChains last depth (expression depth) := by
  induction depth with
  | zero =>
    intro least first links c _
    rw [expression]
    exact Reads.tooDeep.congr (by simp)
  | succ depth ih =>
    intro least first links c hc
    have hnext : ∃ t ts, Link.tokens links ++ [last] = t :: ts ∧ EndsOperand t := by
      cases links with
      | nil => exact ⟨last, [], rfl, endsOperand_of_endOfInput hlast⟩
      | cons link links => exact ⟨link.sign, _, rfl, Joint.endsOperand_of_lexeme link.spelled⟩
    obtain ⟨t, ts, htoks, ht⟩ := hnext
    have hunary := reads_unary first (htoks ▸ hc) ht depth
    rw [expression]
    refine Reads.bind_of_imp hunary (fun hfits => by omega) ?_
    rintro left c' hdepth ⟨rfl, hc'⟩
    rw [← htoks] at hc'
    have hzero : rightNesting first.node = 0 := by
      unfold Operand.node
      split <;> rfl
    have hwithin := hc'.within
    rw [List.length_append, Link.length_tokens] at hwithin
    exact Reads.run (reads_operators hlast ih least (c'.size + 1) first.node links c' (by omega)
      (by omega) hc') rfl

theorem Cursor.at_start (tokens : List Token) (hlast : last.kind = .endOfInput) :
    (Cursor.start (tokens ++ [last])).At (tokens ++ [last]) := by
  have hended : ended (tokens ++ [last]) = tokens ++ [last] := by
    simp [ended, hlast]
  exact ⟨hended, by simp only [Cursor.start, hended, Nat.le_refl]⟩

/-- A chain of assignments needs a level for each of them. -/
theorem length_le_rightNesting (first : Expr) (links : List (Joint × Expr))
    (h : ∀ x ∈ links, x.1.isAssign = true) : links.length ≤ rightNesting (group first links) := by
  induction links generalizing first with
  | nil => exact Nat.zero_le _
  | cons x links ih =>
    have hpivot : IsPivot [] x.1 links := by simp [IsPivot, h x (by simp)]
    have hsplit := group_of_isPivot first hpivot
    rw [List.nil_append, group_nil] at hsplit
    have htail := ih x.2 fun y hy => h y (List.mem_cons_of_mem x hy)
    rw [hsplit, rightNesting_build, List.length_cons]
    omega

/-- A chain of more assignments than there are levels is not read. -/
theorem assignments_tooDeep (first : Operand) (last : Token)
    (hlast : last.kind = .endOfInput) (hassign : ∀ link ∈ links, link.joint.isAssign = true)
    (hlong : depth ≤ links.length) :
    ∃ c, expression depth 0 (Cursor.start (first.token :: (Link.tokens links ++ [last]))) =
    .error .tooDeep c := by
  have hall : Link.upTo 0 links = links :=
    List.takeWhile_eq_self_iff.mpr fun _ _ => decide_eq_true (Nat.zero_le _)
  have hnesting : links.length ≤ rightNesting (climbed 0 first.node links) := by
    have hlen := length_le_rightNesting first.node (Link.nodes links)
      (by simpa [Link.nodes] using hassign)
    rwa [Link.nodes, List.length_map, ← Link.nodes, ← hall, ← climbed, hall] at hlen
  have hstart := Cursor.at_start (first.token :: Link.tokens links) hlast
  exact (readsChains_expression hlast depth 0 first links _ hstart).2 (by omega)

/-- **Precedence climbing is the grouping by powers.**  Names and literals with operators between
them are read up to the first operator below the least power, and what was read is the grouping of
that part of the chain, if three levels and one for each nested right operand are left; otherwise
reading stops at the nesting limit. -/
theorem expression_groups (depth least : Nat) (first : Operand) (links : List Link) (last : Token)
    (hlast : last.kind = .endOfInput) :
    let start := Cursor.start (first.token :: (Link.tokens links ++ [last]))
    let tree := group first.node (Link.nodes (Link.upTo least links))
    if rightNesting tree + 3 ≤ depth then
      ∃ c, expression depth least start = .ok tree c ∧
        c.rest = Link.tokens (Link.after least links) ++ [last]
    else ∃ c, expression depth least start = .error .tooDeep c := by
  intro start tree
  have hstart : start.At (first.token :: (Link.tokens links ++ [last])) :=
    Cursor.at_start (first.token :: Link.tokens links) hlast
  obtain ⟨hfits, hdeep⟩ := readsChains_expression hlast depth least first links start hstart
  split
  · next hle =>
    obtain ⟨_, c, hrun, rfl, hc⟩ := hfits hle
    exact ⟨c, hrun, hc.rest⟩
  · next hnot => exact hdeep hnot

/-- Differences are grouped to the left, and the assignment takes all of them. -/
theorem expression_groups_differences :
    let name (s : String) : Token := ⟨.identifier, s, 0, {}⟩
    let sign (s : String) : Token := ⟨.operator, s, 0, {}⟩
    let last : Token := ⟨.endOfInput, "", 0, {}⟩
    last.kind = .endOfInput ∧
      ∃ c, expression 5 0 (Cursor.start [name "a", sign "=", name "b", sign "-", name "c", sign "-",
          name "d", last]) =
        .ok (.assign {} .assign (.name {} "a")
          (.binary {} .sub (.binary {} .sub (.name {} "b") (.name {} "c")) (.name {} "d"))) c ∧
        c.rest = [last] := by
  intro name sign last
  have htree : group (.name {} "a") [(.assign .assign, .name {} "b"), (.binary .sub, .name {} "c"),
      (.binary .sub, .name {} "d")] = .assign {} .assign (.name {} "a")
        (.binary {} .sub (.binary {} .sub (.name {} "b") (.name {} "c")) (.name {} "d")) := by
    cbv
  have hread := expression_groups 5 0 ⟨name "a", trivial⟩
    [⟨.assign .assign, sign "=", rfl, ⟨name "b", trivial⟩⟩,
     ⟨.binary .sub, sign "-", rfl, ⟨name "c", trivial⟩⟩,
     ⟨.binary .sub, sign "-", rfl, ⟨name "d", trivial⟩⟩] last rfl
  rw [if_pos] at hread
  · exact ⟨rfl, htree ▸ hread⟩
  · exact htree ▸ (by decide : 5 ≤ 5)

/-- Twenty-five hundred assignments in a row have a grouping, but they are not read. -/
theorem expression_assignments_not_ok :
    ∃ (first : Operand) (links : List Link) (last : Token), last.kind = .endOfInput ∧
      ∀ tree c, expression deepest 0
        (Cursor.start (first.token :: (Link.tokens links ++ [last]))) ≠ .ok tree c := by
  let name : Operand := ⟨⟨.identifier, "a", 0, {}⟩, trivial⟩
  let link : Link := ⟨.assign .assign, ⟨.operator, "=", 0, {}⟩, rfl, name⟩
  let last : Token := ⟨.endOfInput, "", 0, {}⟩
  refine ⟨name, List.replicate 2500 link, last, rfl, ?_⟩
  intro tree c hrun
  have hassign : ∀ other ∈ List.replicate 2500 link, other.joint.isAssign = true := by
    intro other hother
    rw [List.eq_of_mem_replicate hother]
    rfl
  have hlong : deepest ≤ (List.replicate 2500 link).length := by
    rw [List.length_replicate]
    decide
  obtain ⟨c', hdeep⟩ := assignments_tooDeep name last rfl hassign hlong
  rw [hdeep] at hrun
  cases hrun

end SmallCpp.Parse
