import SmallCpp.Proofs.Heap.Scalar
import SmallCpp.Proofs.Machine.Inversion

/-!
# Division of integers

Integers, truth values and characters are divided as integers.  The quotient is cut off toward zero,
so the remainder goes the way of the dividend, and the two fit together.  Only the divisor zero is
refused.  An assignment that divides a variable of integers reads the variable after its operand was
evaluated, and stores what the operator gives.

## Main results

* `division_truncates` — **quotients and remainders of integers**, by operators and by assignments.
-/

namespace SmallCpp

/-! ### Quotients toward zero -/

/-- The quotient of two integers toward zero, and the remainder. -/
structure IsDivision (m n q r : Int) : Prop where
  whole : m = q * n + r
  small : r.natAbs < n.natAbs
  side : r = 0 ∨ r.sign = m.sign
  /-- The quotient is that of the magnitudes, rounded down. -/
  magnitude : q.natAbs = m.natAbs / n.natAbs
  direction : q = 0 ∨ q.sign = m.sign * n.sign

namespace Number

theorem natAbs_quotient (m n : Int) : (quotient m n).natAbs = m.natAbs / n.natAbs := by
  unfold quotient
  dsimp only
  split
  · rw [Int.natAbs_natCast]
  · rw [Int.natAbs_neg, Int.natAbs_natCast]

theorem natAbs_remainder (m n : Int) : (remainder m n).natAbs = m.natAbs % n.natAbs := by
  unfold remainder
  dsimp only
  split
  · rw [Int.natAbs_natCast]
  · rw [Int.natAbs_neg, Int.natAbs_natCast]

/-- The remainder is zero or has the sign of the dividend, since only its magnitude is computed. -/
theorem sign_remainder (m n : Int) : remainder m n = 0 ∨ (remainder m n).sign = m.sign := by
  unfold remainder
  dsimp only
  generalize hr : m.natAbs % n.natAbs = r
  cases r with
  | zero => exact .inl (by split <;> rfl)
  | succ r =>
    right
    have hle : r + 1 ≤ m.natAbs := hr ▸ Nat.mod_le m.natAbs n.natAbs
    split
    · next hm =>
      rw [Int.sign_eq_one_of_pos (by omega), Int.sign_eq_one_of_pos (by omega)]
    · next hm =>
      rw [Int.sign_eq_neg_one_of_neg (by omega), Int.sign_eq_neg_one_of_neg (by omega)]

/-- The quotient is zero or lies on the side that the signs of the two operands give. -/
theorem sign_quotient (m n : Int) : quotient m n = 0 ∨ (quotient m n).sign = m.sign * n.sign := by
  unfold quotient
  dsimp only
  generalize hq : m.natAbs / n.natAbs = q
  cases q with
  | zero => exact .inl (by split <;> rfl)
  | succ q =>
    right
    -- a quotient that is not zero has operands that are not zero
    have hpos : 0 < m.natAbs / n.natAbs := by omega
    have hn : n ≠ 0 := fun hn => by simp [hn] at hpos
    have hm : m ≠ 0 := fun hm => by simp [hm] at hpos
    rcases Int.lt_or_gt_of_ne hm with hm | hm <;> rcases Int.lt_or_gt_of_ne hn with hn | hn
    · rw [if_pos (by simp [hm, hn]), Int.sign_eq_neg_one_of_neg hm, Int.sign_eq_neg_one_of_neg hn]
      rfl
    · rw [if_neg (by simp [hm, Int.le_of_lt hn]), Int.sign_eq_neg_one_of_neg hm,
        Int.sign_eq_one_of_pos hn]
      rfl
    · rw [if_neg (by simp [hn, Int.le_of_lt hm]), Int.sign_eq_one_of_pos hm,
        Int.sign_eq_neg_one_of_neg hn]
      rfl
    · rw [if_pos (by simp; omega), Int.sign_eq_one_of_pos hm, Int.sign_eq_one_of_pos hn]
      rfl

/-- The two formulas split the signs in different ways, and fit together. -/
theorem quotient_mul_add_remainder (m n : Int) : quotient m n * n + remainder m n = m := by
  have hparts : m.natAbs / n.natAbs * n.natAbs + m.natAbs % n.natAbs = m.natAbs :=
    Nat.div_add_mod' m.natAbs n.natAbs
  -- the product of the magnitudes is the only part that is not linear
  have hprod : ((m.natAbs / n.natAbs * n.natAbs : Nat) : Int) =
      (m.natAbs / n.natAbs : Nat) * (n.natAbs : Int) := Int.natCast_mul _ _
  unfold quotient remainder
  dsimp only
  generalize m.natAbs / n.natAbs = q, m.natAbs % n.natAbs = r at hparts hprod ⊢
  rcases Int.lt_or_le m 0 with hm | hm <;> rcases Int.lt_or_le n 0 with hn | hn
  · rw [Int.ofNat_natAbs_of_nonpos (Int.le_of_lt hn), Int.mul_neg] at hprod
    rw [if_pos (by simp [hm, hn]), if_neg (Int.not_le.mpr hm)]
    omega
  · rw [Int.natAbs_of_nonneg hn] at hprod
    rw [if_neg (by simp [hm, hn]), if_neg (Int.not_le.mpr hm), Int.neg_mul]
    omega
  · rw [Int.ofNat_natAbs_of_nonpos (Int.le_of_lt hn), Int.mul_neg] at hprod
    rw [if_neg (by simp [hm, hn]), if_pos hm, Int.neg_mul]
    omega
  · rw [Int.natAbs_of_nonneg hn] at hprod
    rw [if_pos (by simp [Int.not_lt.mpr hm, Int.not_lt.mpr hn]), if_pos hm]
    omega

end Number

theorem isDivision_quotient (m : Int) {n : Int} (hn : n ≠ 0) :
    IsDivision m n (Number.quotient m n) (Number.remainder m n) where
  whole := (Number.quotient_mul_add_remainder m n).symm
  small := by
    rw [Number.natAbs_remainder]
    exact Nat.mod_lt _ (Int.natAbs_pos.mpr hn)
  side := Number.sign_remainder m n
  magnitude := Number.natAbs_quotient m n
  direction := Number.sign_quotient m n

/-! ### Operators -/

/-- The result of dividing by a divisor that is not zero, for the two operators that divide. -/
def BinaryOp.divide (op : BinaryOp) (m n : Int) : Int :=
  if op == .div then Number.quotient m n else Number.remainder m n

variable {x y : Value} {m n : Int} {op : BinaryOp}

theorem applyBinary_of_integers (hop : op = .div ∨ op = .mod) (hx : x.number? = some (.int m))
    (hy : y.number? = some (.int n)) :
    applyBinary op x y = if n = 0 then fail .zeroDivision else pure (.int (op.divide m n)) := by
  have hnumeric : applyBinary op x y = numericOperator op x y (.int m) (.int n) := by
    have hplain : op.isComparison = false ∧ (op == .add) = false := by
      rcases hop with rfl | rfl <;> decide
    cases x with
    | bool | int | char =>
      simp [applyBinary, hplain, Value.isScalar_of_number? hx, Value.isScalar_of_number? hy,
        Value.number_of_number? hx, Value.number_of_number? hy, orFail]
    | _ => cases hx
  rw [hnumeric]
  rcases hop with rfl | rfl
  · simp [numericOperator, BinaryOp.isIntegral, divideNumbers, BinaryOp.divide]
  · simp [numericOperator, BinaryOp.isIntegral, integerOperator, BinaryOp.divide]

/-! ### Assignments -/

/-- The name stands for a variable of integers. -/
def State.IntVariable (s : State) (id : String) (i : Nat) : Prop :=
  ∃ t : TypeExpr, s.lookup? id = some ⟨.variable i, some t⟩ ∧ t.base = .int ∧ t.isPointer = false

/-- The state with another value in a variable. -/
def State.setCell (s : State) (i : Nat) (v : Value) : State :=
  { s with cells := s.cells.modify i fun c => { c with value := v } }

/-- A variable of integers takes an integer as it is, and it is read back. -/
theorem assign_then_read {t : TypeExpr} (hbase : t.base = .int) (hpointer : t.isPointer = false)
    {i : Nat}
    {s : State} (hi : i < s.cells.size) (k : Int) :
    ((Reference.assign ⟨.variable i, some t⟩ (.int k)) >>= fun _ =>
      Reference.read ⟨.variable i, some t⟩) s =
      .ok (.int k) (s.setCell i (.int k)) := by
  have hconv : onHeap (coerce t (.int k)) s = .ok (.int k) s := by
    rw [coerce_of_scalar hpointer (by rw [hbase]; rfl), hbase]
    rfl
  have hassign : (Reference.assign ⟨.variable i, some t⟩ (.int k)) s =
      .ok () (s.setCell i (.int k)) :=
    bind_of_ok hconv
  refine (bind_of_ok hassign).trans ?_
  show EStateM.Result.ok _ _ = _
  simp [State.setCell, hi, Array.getElem_modify]

/-- An assignment that combines a variable of integers with an operand reads the variable after the
operand was evaluated. -/
theorem eval_compound {machine : Machine} {enter : Enter} {nesting i : Nat} {p q : Position}
    {id : String}
    {e : Expr} {s u : State} {type : TypeExpr} {how : AssignOp} (hhow : how.arithmetic? = some op)
    (hop : op = .div ∨ op = .mod) (hid : s.IntVariable id i)
    (he : eval machine enter (nesting + 2) e s = .ok y u) (hi : u.cells[i]? = some ⟨.int m, type⟩)
    (hy : y.number? = some (.int n)) :
    eval machine enter nesting (.assign p how (.name q id) e) s =
      if n = 0 then .error (.failed .zeroDivision none) u
      else .ok (.int (op.divide m n)) (u.setCell i (.int (op.divide m n))) := by
  obtain ⟨t, hlookup, hbase, hpointer⟩ := hid
  have hdeep := le_of_eval he
  rw [eval_step]
  refine (checked_of_le (by omega) _ s).trans ((bind_of_ok (refer_name hdeep hlookup)).trans
    ((bind_of_ok he).trans ?_))
  have hread : (Reference.read ⟨.variable i, some t⟩) u = .ok (.int m) u := by
    show EStateM.Result.ok _ _ = _
    rw [hi]
    rfl
  have hres : onHeap (applyBinary op (.int m) y) u =
      if n = 0 then .error (.failed .zeroDivision none) u else .ok (.int (op.divide m n)) u := by
    rw [applyBinary_of_integers hop rfl hy]
    split <;> rfl
  rw [storeWith, hhow]
  refine (bind_of_ok hread).trans ?_
  by_cases hn : n = 0
  · rw [if_pos hn] at hres ⊢
    exact bind_of_error hres
  · rw [if_neg hn] at hres ⊢
    have hlt : i < u.cells.size := (Array.getElem?_eq_some_iff.mp hi).1
    exact (bind_of_ok hres).trans (assign_then_read hbase hpointer hlt _)

/-! ### Quotients and remainders -/

/-- **Division of integers.**  Operands that stand for the integers `m` and `n` have a quotient and
a remainder unless `n` is zero, which is refused.  The compound assignments store them in a variable
of integers that holds `m` once the operand was evaluated, and change nothing else. -/
theorem division_truncates (hx : x.number? = some (.int m)) (hy : y.number? = some (.int n)) :
    ∃ quotient remainder : Int, (n ≠ 0 → IsDivision m n quotient remainder) ∧
      (∀ h, applyBinary .div x y h = if n = 0 then .error (.error .zeroDivision) h else .ok
      (.int quotient) h) ∧
      (∀ h, applyBinary .mod x y h =
        if n = 0 then .error (.error .zeroDivision) h else .ok (.int remainder) h) ∧
      ∀ (machine : Machine) (enter : Enter) (nesting i : Nat) (p q : Position) (id : String)
      (e : Expr)
        (s u : State) (type : TypeExpr), s.IntVariable id i →
        eval machine enter (nesting + 2) e s = .ok y u → u.cells[i]? = some ⟨.int m, type⟩ →
        eval machine enter nesting (.assign p .div (.name q id) e) s =
            (if n = 0 then .error (.failed .zeroDivision none) u
              else .ok (.int quotient) (u.setCell i (.int quotient))) ∧
          eval machine enter nesting (.assign p .mod (.name q id) e) s =
            (if n = 0 then .error (.failed .zeroDivision none) u
              else .ok (.int remainder) (u.setCell i (.int remainder))) := by
  have hoperator : ∀ {op : BinaryOp}, op = .div ∨ op = .mod → ∀ h, applyBinary op x y h =
      if n = 0 then .error (.error .zeroDivision) h else .ok (.int (op.divide m n)) h := by
    intro op hop h
    rw [applyBinary_of_integers hop hx hy]
    split <;> rfl
  refine ⟨Number.quotient m n, Number.remainder m n, isDivision_quotient m, hoperator (.inl rfl),
    hoperator (.inr rfl), ?_⟩
  intro machine enter nesting i p q id e s u type hid he hi
  exact ⟨eval_compound rfl (.inl rfl) hid he hi hy, eval_compound rfl (.inr rfl) hid he hi hy⟩

/-- A negative integer is divided by a character, and a variable by a negative one. -/
theorem division_truncates_negative :
    let pos : Position := ⟨1, 1⟩
    let s : State := { cells := #[⟨.int (-7), .of .int []⟩], globals :=
      [("a", ⟨.variable 0, some (.of .int [])⟩)] }
    let operand : Expr := .literal pos (.char '\x02' "'\\x02'")
    (Value.int (-7)).number? = some (.int (-7)) ∧ (Value.char [2]).number? = some (.int 2) ∧
    s.IntVariable "a" 0 ∧
      ∃ quotient remainder : Int, IsDivision (-7) 2 quotient remainder ∧
        (∀ h, applyBinary .div (.int (-7)) (.char [2]) h = .ok (.int quotient) h) ∧
        ∀ machine : Machine, ∀ enter nesting, nesting + 2 ≤ machine.limits.maxNesting →
          eval machine enter nesting (.assign pos .mod (.name pos "a") operand) s =
            .ok (.int remainder) (s.setCell 0 (.int remainder)) := by
  intro pos s operand
  have hvariable : s.IntVariable "a" 0 := ⟨.of .int [], rfl, rfl, rfl⟩
  obtain ⟨quotient, remainder, hdivision, hdiv, -, hassign⟩ :=
    division_truncates (x := .int (-7)) (y := .char [2]) (m := -7) (n := 2) rfl rfl
  refine ⟨rfl, rfl, hvariable, quotient, remainder, hdivision (by decide), hdiv, ?_⟩
  intro machine enter nesting hn
  exact (hassign machine enter nesting 0 pos pos "a" operand s s _ hvariable
    (eval_literal _ hn s) rfl).2

end SmallCpp
