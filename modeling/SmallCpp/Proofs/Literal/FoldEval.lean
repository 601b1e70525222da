import SmallCpp.Literal.Check
import SmallCpp.Machine.Run
import SmallCpp.Proofs.Machine.Inversion

/-!
# Folded constants and evaluation

Folding finds the value of an initializer without running anything.  Evaluating the same expression
gives the same value and changes nothing, in any state, as long as the limit on nested evaluations
leaves room for it: folding counts one level for each node, and evaluation two.

A double that is not a number is the one point where values say more than constants: evaluation
gives each such result a mark of its own.  There is only one non-number among the doubles, so the
mark does not change what later operations do.

## Main results

* `eval_folded` — **evaluation agrees with folding** where the nesting allows it, and stops
  otherwise. -/

namespace SmallCpp

variable {n : Number} {op : BinaryOp} {c : Constant} {x : Float} {v : Value} {p : Position}

/-! ### The non-number -/

open Float.Model in
theorem toBitVec_of_isNaN (h : x.isNaN = true) :
    x.toModel.toBits.toBitVec = UnpackedFloat.packedNaN .binary64 := by
  have hunpack : (UnpackedFloat.unpack .binary64 x.toModel.toBits.toBitVec).isNaN = true := h
  delta UnpackedFloat.unpack at hunpack
  dsimp only at hunpack
  by_cases hexp : @UnpackedFloat.unpackExponent .binary64 x.toModel.toBits.toBitVec = -1#11
  · by_cases hman : @UnpackedFloat.unpackMantissa .binary64 x.toModel.toBits.toBitVec = 0#52
    · rw [if_pos hexp, if_pos hman] at hunpack
      cases hunpack
    · exact x.toModel.valid.eq_packedNaN hexp hman
  rw [if_neg hexp] at hunpack
  by_cases hzero : @UnpackedFloat.unpackExponent .binary64 x.toModel.toBits.toBitVec = 0#11
  · rw [if_pos hzero] at hunpack
    by_cases hman : @UnpackedFloat.unpackMantissa .binary64 x.toModel.toBits.toBitVec = 0#52
    · rw [dif_pos hman] at hunpack
      cases hunpack
    · rw [dif_neg hman] at hunpack
      cases hunpack
  · rw [if_neg hzero] at hunpack
    cases hunpack

/-- There is one non-number among the doubles. -/
theorem eq_notANumber_of_isNaN (h : x.isNaN = true) : x = notANumber := by
  have hnan : notANumber.isNaN = true := by decide +kernel
  have hbits := (toBitVec_of_isNaN h).trans (toBitVec_of_isNaN hnan).symm
  generalize notANumber = y at hbits
  obtain ⟨⟨⟨xb⟩, hx⟩⟩ := x
  obtain ⟨⟨⟨yb⟩, hy⟩⟩ := y
  obtain rfl : xb = yb := hbits
  rfl

/-! ### Constants as values -/

/-- The value is the constant; a non-number may have a mark. -/
def Constant.Denotes : Constant → Value → Prop
  | .number (.int n), v => v = .int n
  | .number (.real x), v => v = .real x ∨ x.isNaN = true ∧ ∃ mark, v = .nan mark
  | .text s, v => v = .ofString s

/-- The state with another number of marks in use. -/
def State.withMarks (s : State) (marks : Nat) : State :=
  { s with heap := { s.heap with marks } }

/-- The operation succeeds with a value that is the constant, and changes nothing but the number of
marks in use. -/
def Yields (c : Constant) (op : HeapM Value) : Prop :=
  ∀ h, ∃ v marks, c.Denotes v ∧ op h = .ok v { h with marks }

/-- A number in a value is read back as it is: its mark does not count. -/
theorem Constant.Denotes.number?_eq (h : (Constant.number n).Denotes v) : v.number? = some n := by
  cases n with
  | int n =>
    obtain rfl : v = .int n := h
    rfl
  | real x =>
    rcases h with rfl | ⟨hnan, mark, rfl⟩
    · rfl
    · rw [eq_notANumber_of_isNaN hnan]
      rfl

theorem Constant.Denotes.asNumber_eq (h : (Constant.number n).Denotes v) : v.asNumber = .ok v := by
  cases n with
  | int n =>
    obtain rfl : v = .int n := h
    rfl
  | real x =>
    rcases h with rfl | ⟨-, mark, rfl⟩
    · rfl
    · rfl

/-! ### Operators on constants -/

theorem yields_newReal (x : Float) : Yields (.number (.real x)) (newReal x) := by
  intro h
  cases hnan : x.isNaN with
  | true =>
    refine ⟨.nan h.marks, h.marks + 1, Or.inr ⟨hnan, _, rfl⟩, ?_⟩
    rw [newReal, hnan]
    rfl
  | false =>
    refine ⟨.real x, h.marks, Or.inl rfl, ?_⟩
    rw [newReal, hnan]
    rfl

theorem yields_newNumber (n : Number) : Yields (.number n) (newNumber n) := by
  cases n with
  | int n => exact fun h => ⟨.int n, h.marks, rfl, rfl⟩
  | real x => exact yields_newReal x

section Operators

variable {m r : Number} {a b : Value}

theorem yields_negate (hv : (Constant.number n).Denotes v) :
    Yields (.number n.neg) (applyUnary .negate v) := by
  have hop : applyUnary .negate v = newNumber n.neg := by
    unfold applyUnary Value.number
    rw [hv.number?_eq]
    rfl
  rw [hop]
  exact yields_newNumber n.neg

theorem yields_plus (hv : (Constant.number n).Denotes v) :
    Yields (.number n) (applyUnary .plus v) := by
  have hop : applyUnary .plus v = pure v := by
    unfold applyUnary Value.number
    rw [hv.number?_eq, hv.asNumber_eq]
    rfl
  rw [hop]
  exact fun h => ⟨v, h.marks, hv, rfl⟩

/-- On two numbers, an operator of arithmetic is that of numbers. -/
theorem applyBinary_of_denotes (hop : op.folds = true) (ha : (Constant.number m).Denotes a)
    (hb : (Constant.number n).Denotes b) : applyBinary op a b = numericOperator op a b m n := by
  have htext : ∀ {k : Number} {w : Value}, (Constant.number k).Denotes w → w.isText = false := by
    intro k w hw
    have hk := hw.number?_eq
    cases w <;> first | rfl | cases hk
  have hcomparison : op.isComparison = false := by
    cases op <;> first | rfl | cases hop
  have hm := ha.number?_eq
  have hn := hb.number?_eq
  unfold applyBinary
  rw [hcomparison, htext ha, htext hb, Bool.or_false, Bool.and_false]
  simp only [Bool.false_eq_true, if_false]
  split
  · cases hm
  · rw [Value.isScalar_of_number? hm, Value.isScalar_of_number? hn, Value.number_of_number? hm,
      Value.number_of_number? hn]
    rfl

theorem yields_combined {result : Except Fault Number} {op : HeapM Value}
    (hr : result.map some = .ok (some r))
    (hop : op = do newNumber (← orFault result)) : Yields (.number r) op := by
  cases result with
  | error fault => cases hr
  | ok k =>
    cases hr
    rw [hop]
    exact yields_newNumber r

theorem yields_divideDoubles
    (hr : (do
      if n.isZero then return none
      let x ← m.toDouble
      let y ← n.toDouble
      return some (.real (x / y)) : Except Fault (Option Number)) = .ok (some r)) :
    Yields (.number r) (do
      if n.isZero then
        if m.isZero then return .real notANumber
        let x ← orFault m.toDouble
        let y ← orFault n.toDouble
        return .real (if x.isNaN then notANumber else infinity (signBit x != signBit y))
      else
        let x ← orFault m.toDouble
        let y ← orFault n.toDouble
        newReal (x / y)) := by
  cases hzero : n.isZero with
  | true =>
    rw [hzero] at hr
    cases hr
  | false =>
    rw [hzero] at hr
    cases hx : m.toDouble with
    | error fault =>
      rw [hx] at hr
      cases hr
    | ok x =>
      cases hy : n.toDouble with
      | error fault =>
        rw [hx, hy] at hr
        cases hr
      | ok y =>
        rw [hx, hy] at hr
        cases hr
        exact yields_newReal (x / y)

theorem yields_divide (hr : divideConstants? m n = .ok (some r)) :
    Yields (.number r) (divideNumbers m n) := by
  cases m with
  | int x =>
    cases n with
    | int y =>
      change Except.ok (if y == 0 then none else some (Number.int (Number.quotient x y))) = _ at hr
      change Yields _ (if y == 0 then fail .zeroDivision else pure (.int (Number.quotient x y)))
      cases hy : y == 0 with
      | true =>
        rw [hy] at hr
        cases hr
      | false =>
        rw [hy] at hr
        cases hr
        exact fun h => ⟨.int (Number.quotient x y), h.marks, rfl, rfl⟩
    | real y => exact yields_divideDoubles hr
  | real x => exact yields_divideDoubles hr

theorem yields_binary (ha : (Constant.number m).Denotes a) (hb : (Constant.number n).Denotes b)
    (hop : op.folds = true) (hr : foldOperator? op m n = .ok (some r)) :
    Yields (.number r) (applyBinary op a b) := by
  rw [applyBinary_of_denotes hop ha hb]
  cases op with
  | add => exact yields_combined hr rfl
  | sub => exact yields_combined hr rfl
  | mul => exact yields_combined hr rfl
  | div => exact yields_divide hr
  | _ => cases hop

end Operators

/-! ### Evaluation -/

theorem checkNesting_of_lt {l : Limits} {n : Nat} (h : l.maxNesting < n) (s : State) :
    checkNesting l n s = .error .tooDeep s := by
  rw [checkNesting, if_neg (Nat.not_le.mpr h)]
  rfl

theorem Expr.one_le_height (e : Expr) : 1 ≤ e.height := by
  cases e <;> simp [Expr.height]

theorem Yields.onHeap {op : HeapM Value} (h : Yields c op) (s : State) :
    ∃ v marks, c.Denotes v ∧ onHeap op s = .ok v (s.withMarks marks) := by
  obtain ⟨v, marks, hv, hop⟩ := h s.heap
  refine ⟨v, marks, hv, ?_⟩
  rw [SmallCpp.onHeap]
  dsimp only
  rw [hop]
  rfl

/-- The evaluation of an expression with a constant value: it succeeds if the deepest of the nested
evaluations is within the limit, and is given up otherwise; only marks are used up. -/
structure EvaluatesTo (m : Machine) (enter : Enter) (nesting : Nat) (e : Expr) (c : Constant)
    (s : State) : Prop where
  /-- Within the limit the value is the constant. -/
  within : nesting + 2 * (e.height - 1) ≤ m.limits.maxNesting →
    ∃ v marks, c.Denotes v ∧ eval m enter nesting e s = .ok v (s.withMarks marks)
  beyond : m.limits.maxNesting < nesting + 2 * (e.height - 1) →
    ∃ marks, eval m enter nesting e s = .error .tooDeep (s.withMarks marks)

section Evaluation

variable {m : Machine} {enter : Enter} {nesting : Nat}

theorem evaluatesTo_literal (p : Position) {l : Literal} (h : c.Denotes l.value) (s : State) :
    EvaluatesTo m enter nesting (.literal p l) c s := by
  have hheight : (Expr.literal p l).height - 1 = 0 := by rw [Expr.height]
  constructor
  · intro hle
    rw [hheight, Nat.mul_zero, Nat.add_zero] at hle
    refine ⟨l.value, s.heap.marks, h, ?_⟩
    rw [eval, checked_of_le hle]
    rfl
  · intro hlt
    rw [hheight, Nat.mul_zero, Nat.add_zero] at hlt
    refine ⟨s.heap.marks, ?_⟩
    rw [eval, bind_of_error (checkNesting_of_lt hlt s)]
    rfl

/-- One operand: the evaluation goes two levels down. -/
theorem evaluatesTo_unary {op : UnaryOp} {e : Expr} {c' : Constant}
    (heval : eval m enter nesting (.unary p op e) = (checkNesting m.limits nesting >>= fun _ =>
      eval m enter (nesting + 2) e >>= fun v => onHeap (applyUnary op v)))
    (he : ∀ s, EvaluatesTo m enter (nesting + 2) e c s)
    (hop : ∀ v, c.Denotes v → Yields c' (applyUnary op v)) (s : State) :
    EvaluatesTo m enter nesting (.unary p op e) c' s := by
  have hheight : (Expr.unary p op e).height - 1 = (e.height - 1) + 1 := by
    have := e.one_le_height
    rw [Expr.height]
    omega
  constructor
  · intro hle
    rw [hheight] at hle
    obtain ⟨v, marks, hv, heq⟩ := (he s).within (by omega)
    obtain ⟨w, marks', hw, hwop⟩ := (hop v hv).onHeap (s.withMarks marks)
    refine ⟨w, marks', hw, ?_⟩
    rw [heval, checked_of_le (by omega), bind_of_ok heq, hwop]
    rfl
  · intro hlt
    rw [hheight] at hlt
    rw [heval]
    by_cases hn : nesting ≤ m.limits.maxNesting
    · obtain ⟨marks, heq⟩ := (he s).beyond (by omega)
      refine ⟨marks, ?_⟩
      rw [checked_of_le hn, bind_of_error heq]
    · refine ⟨s.heap.marks, ?_⟩
      rw [bind_of_error (checkNesting_of_lt (by omega) s)]
      rfl

/-- Two operands: both evaluations go two levels down, and the second sees the marks of the
first. -/
theorem evaluatesTo_binary {a b : Expr} {ca cb : Constant}
    (hfolds : op.folds = true) (ha : ∀ s, EvaluatesTo m enter (nesting + 2) a ca s)
    (hb : ∀ s, EvaluatesTo m enter (nesting + 2) b cb s)
    (hop : ∀ x y, ca.Denotes x → cb.Denotes y → Yields c (applyBinary op x y)) (s : State) :
    EvaluatesTo m enter nesting (.binary p op a b) c s := by
  have hplain : ¬(op = .logicalAnd ∨ op = .logicalOr) := by rintro (rfl | rfl) <;> cases hfolds
  have hheight : (Expr.binary p op a b).height - 1 = max (a.height - 1) (b.height - 1) + 1 := by
    have := a.one_le_height
    have := b.one_le_height
    rw [Expr.height]
    omega
  constructor
  · intro hle
    rw [hheight] at hle
    obtain ⟨x, marks, hx, heqx⟩ := (ha s).within (by omega)
    obtain ⟨y, marks', hy, heqy⟩ := (hb (s.withMarks marks)).within (by omega)
    obtain ⟨w, marks'', hw, hwop⟩ := (hop x y hx hy).onHeap ((s.withMarks marks).withMarks marks')
    refine ⟨w, marks'', hw, ?_⟩
    rw [eval_binary hplain, checked_of_le (by omega), bind_of_ok heqx, bind_of_ok heqy, hwop]
    rfl
  · intro hlt
    rw [hheight] at hlt
    rw [eval_binary hplain]
    by_cases hn : nesting ≤ m.limits.maxNesting
    · rw [checked_of_le hn]
      -- The first operand may be too deep, or the second one if the first is not.
      by_cases hleft : nesting + 2 + 2 * (a.height - 1) ≤ m.limits.maxNesting
      · obtain ⟨x, marks, -, heqx⟩ := (ha s).within hleft
        obtain ⟨marks', heqy⟩ := (hb (s.withMarks marks)).beyond (by omega)
        refine ⟨marks', ?_⟩
        rw [bind_of_ok heqx, bind_of_error heqy]
        rfl
      · obtain ⟨marks, heqx⟩ := (ha s).beyond (by omega)
        exact ⟨marks, bind_of_error heqx⟩
    · refine ⟨s.heap.marks, ?_⟩
      rw [bind_of_error (checkNesting_of_lt (by omega) s)]
      rfl

theorem except_bind_ok {ε α β : Type} {x : Except ε α} {f : α → Except ε β} {b : β}
    (h : x >>= f = .ok b) : ∃ a, x = .ok a ∧ f a = .ok b := by
  cases x with
  | error e => cases h
  | ok a => exact ⟨a, rfl, h⟩

theorem eq_number_of_bind {o : Option Constant} (h : o.bind Constant.number? = some n) :
    o = some (.number n) := by
  obtain ⟨c, rfl, hc⟩ := Option.bind_eq_some_iff.mp h
  cases c with
  | number k =>
    cases hc
    rfl
  | text s => cases hc

/-- **Evaluation agrees with folding**, by induction on the depth that folding is allowed. -/
theorem evaluatesTo_of_foldWithin (depth : Nat) :
    ∀ (nesting : Nat) (e : Expr) (c : Constant) (s : State),
      e.foldWithin depth = .ok (some c) → EvaluatesTo m enter nesting e c s := by
  induction depth with
  | zero => exact fun _ _ _ _ h => nomatch h
  | succ depth ih =>
    intro nesting e c s h
    -- one case for each form that folds; the operands are nested two levels deeper
    unfold Expr.foldWithin at h
    split at h
    · next p n text =>
      cases h
      have hn : (Constant.number (.int n)).Denotes (Literal.int n text).value := rfl
      exact evaluatesTo_literal p hn s
    · next p x text =>
      cases h
      have hx : (Constant.number (.real x)).Denotes (Literal.real x text).value := Or.inl rfl
      exact evaluatesTo_literal p hx s
    · next p string text =>
      cases h
      have hs : (Constant.text string).Denotes (Literal.string string text).value := rfl
      exact evaluatesTo_literal p hs s
    · next p operand =>
      obtain ⟨o, hfold, hn⟩ := except_bind_ok h
      obtain ⟨n, hnum, rfl⟩ := Option.map_eq_some_iff.mp (Except.ok.inj hn)
      rw [eq_number_of_bind hnum] at hfold
      exact evaluatesTo_unary (by rw [eval_step]) (fun t => ih (nesting + 2) operand _ t hfold)
        (fun v => yields_negate) s
    · next p operand =>
      obtain ⟨o, hfold, hn⟩ := except_bind_ok h
      obtain ⟨n, hnum, rfl⟩ := Option.map_eq_some_iff.mp (Except.ok.inj hn)
      rw [eq_number_of_bind hnum] at hfold
      exact evaluatesTo_unary (by rw [eval_step]) (fun t => ih (nesting + 2) operand _ t hfold)
        (fun v => yields_plus) s
    · next p op left right =>
      split at h
      · next hop =>
        obtain ⟨oa, hfolda, h⟩ := except_bind_ok h
        obtain ⟨ob, hfoldb, h⟩ := except_bind_ok h
        split at h
        · next k n ha hb =>
          rw [eq_number_of_bind ha] at hfolda
          rw [eq_number_of_bind hb] at hfoldb
          split at h
          · next result hres =>
            obtain ⟨r, rfl, rfl⟩ := Option.map_eq_some_iff.mp (Except.ok.inj h)
            exact evaluatesTo_binary hop
              (fun t => ih (nesting + 2) left _ t hfolda)
              (fun t => ih (nesting + 2) right _ t hfoldb)
              (fun x y hx hy => yields_binary hx hy hop hres) s
          · cases h
        · cases h
      · cases h
    · cases h

end Evaluation

/-- **Evaluation agrees with folding.**  Let `e` fold to the constant `c`, in whatever room.  If the
evaluations that are nested in that of `e` stay within the limit, then `e` evaluates to `c` in every
state: to that integer, to that text, or to the double that the same operations on the same operands
give.  Otherwise the evaluation is given up as too deep.  In both cases variables, containers,
names, input, output and the counters are what they were; only marks of non-numbers are used up. -/
theorem eval_folded (m : Machine) (enter : Enter) (nesting : Nat) (e : Expr) (c : Constant)
    (room : Nat)
    (h : e.foldWithin room = .ok (some c)) (s : State) :
    (nesting + 2 * (e.height - 1) ≤ m.limits.maxNesting →
      ∃ v marks, c.Denotes v ∧ eval m enter nesting e s = .ok v (s.withMarks marks)) ∧
    (m.limits.maxNesting < nesting + 2 * (e.height - 1) →
      ∃ marks, eval m enter nesting e s = .error .tooDeep (s.withMarks marks)) := by
  have heval : EvaluatesTo m enter nesting e c s := evaluatesTo_of_foldWithin room nesting e c s h
  exact ⟨heval.within, heval.beyond⟩

/-- A quotient of a negative number, in the empty state: folded and evaluated toward zero. -/
theorem eval_folded_quotient :
    let e : Expr := .binary ⟨1, 4⟩ .div (.unary ⟨1, 1⟩ .negate (.literal ⟨1, 2⟩ (.int 7 "7")))
      (.literal ⟨1, 6⟩ (.int 2 "2"))
    e.foldWithin Stack.room = .ok (some (.number (.int (-3)))) ∧
      ∃ v marks, (Constant.number (.int (-3))).Denotes v ∧
        eval ⟨{}, ⟨10, 0⟩⟩ (fun _ _ _ => throw .tooDeep) startNesting e {} =
          .ok v (State.withMarks {} marks) := by
  intro e
  have hfold : e.foldWithin Stack.room = .ok (some (.number (.int (-3)))) := by rfl
  exact ⟨hfold, (eval_folded ⟨{}, ⟨10, 0⟩⟩ _ startNesting e _ _ hfold {}).1 (by decide)⟩

/-! ### Long sums -/

def ones : Nat → Expr
  | 0 => .literal ⟨1, 1⟩ (.int 1 "1")
  | n + 1 => .binary ⟨1, 1⟩ .add (ones n) (.literal ⟨1, 1⟩ (.int 1 "1"))

theorem height_ones (n : Nat) : (ones n).height = n + 1 := by
  induction n with
  | zero => rfl
  | succ n ih =>
    rw [ones, Expr.height, ih, Expr.height]
    omega

theorem foldWithin_ones (n : Nat) :
    ∀ depth, n < depth → (ones n).foldWithin depth = .ok (some (.number (.int (n + 1)))) := by
  induction n with
  | zero =>
    intro depth h
    obtain ⟨d, rfl⟩ : ∃ d, depth = d + 1 := ⟨depth - 1, by omega⟩
    rfl
  | succ n ih =>
    intro depth h
    obtain ⟨d, rfl⟩ : ∃ d, depth = d + 2 := ⟨depth - 2, by omega⟩
    rw [ones, Expr.foldWithin, ih (d + 1) (by omega)]
    rfl

/-- A sum of seven hundred ones folds, and yet it cannot be evaluated under a limit of one nested
call: the limit on nested evaluations is then 1040. -/
theorem folded_sum_too_deep :
    (ones 699).fold = .ok (some (.number (.int 700))) ∧
      ∀ (m : Machine) (enter : Enter) (s : State), m.limits.maxCallDepth = 1 →
        ∃ marks, eval m enter startNesting (ones 699) s = .error .tooDeep (s.withMarks marks) := by
  have hfold := foldWithin_ones 699 Stack.room (by decide)
  refine ⟨?_, fun m enter s hdepth => ?_⟩
  · rw [Expr.fold, Expr.foldIn, hfold]
    rfl
  · have hlimit : m.limits.maxNesting = 1040 := by
      rw [Limits.maxNesting, hdepth]
      rfl
    refine (evaluatesTo_of_foldWithin _ startNesting (ones 699) _ s hfold).beyond ?_
    rw [hlimit, height_ones]
    decide

end SmallCpp
