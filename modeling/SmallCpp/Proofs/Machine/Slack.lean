import SmallCpp.Proofs.Machine.Carry

/-!
# Computations with room to spare

Two budgets may stop a computation: that of the steps, and that of the evaluations in progress.  A
computation that neither of them stops does not depend on them: it ends in the same way if some more
steps were counted before it, as long as these are left in the budget, and if it is nested less
deeply.

## Main results

* `eval_advanced`, `refer_advanced` — **evaluation ends in the same way later and nested less
  deeply.** -/

namespace SmallCpp

variable {v : Value} {r : Reference}

/-- The state after `k` more steps. -/
def State.advanced (s : State) (k : Nat) : State :=
  { s with steps := s.steps + k }

@[simp]
theorem State.advanced_zero (s : State) : s.advanced 0 = s := by
  simp [State.advanced]

theorem State.advanced_advanced (s : State) (j k : Nat) :
    (s.advanced j).advanced k = s.advanced (j + k) := by
  simp [State.advanced, Int.add_assoc]

/-! ### Room to spare -/

/-- The second run has done `k` more steps, and these are left in the budget when the first one
ends.  Nesting that is too deep is spared. -/
def slack (limits : Limits) (k : Nat) : Comparison limits where
  Meets g g' := g' = { g with steps := g.steps + k }
  Room g := g.steps + k ≤ limits.maxSteps
  Spared e := e = .tooDeep
  room_before hbefore hroom := by
    have hle := hbefore.steps
    omega
  charge := by
    rintro g _ n rfl hroom
    dsimp only at hroom ⊢
    exact ⟨by rw [Int.add_right_comm], by omega⟩
  pull := by
    rintro g _ token input rfl hinput _
    exact ⟨input, hinput, rfl⟩
  starved := by
    rintro g _ rfl hinput _
    exact hinput
  spared h := .inl h

/-- Less deep nesting is as good. -/
theorem nests_slack (m : Machine) (k : Nat) :
    Compatible.Nests m (fun c d => Carries (slack m.limits k) c d) fun n n' => n' ≤ n where
  check {n n'} hn := by
    unfold checkNesting
    by_cases hdeep : n ≤ m.limits.maxNesting
    · rw [if_pos hdeep, if_pos (Nat.le_trans hn hdeep)]
      exact .of_commutes fun _ _ => rfl
    · rw [if_neg hdeep]
      exact ⟨fun s => .refl _, fun s _ _ _ hspared => absurd rfl (hspared .tooDeep s rfl)⟩
  inside hn j := Nat.add_le_add_right hn j

/-! ### Evaluation -/

section Evaluation

variable {m : Machine} {level n n' k : Nat} {e : Expr} {s t : State}

theorem slack_expression (m : Machine) (level k : Nat) (e : Expr) :
    Compatible.Expression m (fun c d => Carries (slack m.limits k) c d) (fun n n' => n' ≤ n)
      (invoke m (exec m level)) (invoke m (exec m level)) e :=
  have h := (slack m.limits k).compatibleRun
  have hN := nests_slack m k
  h.expression hN (h.invoke hN (h.execAt hN level)) e

/-- What is found is found later as well, if there is room. -/
theorem Carries.advanced {α : Type} {c d : Run α} {a : α} (h : Carries (slack m.limits k) c d)
    (hrun : c s = .ok a t) (hroom : t.steps + k ≤ m.limits.maxSteps) :
    d (s.advanced k) = .ok a (t.advanced k) := by
  have hsame := h.same s _ rfl
  rw [stateAfter, hrun] at hsame
  obtain ⟨_, rfl, hd⟩ := hsame hroom nofun
  exact hd

/-- **A value that was found is found later and nested less deeply.** -/
theorem eval_advanced (hrun : eval m (invoke m (exec m level)) n e s = .ok v t) (hn : n' ≤ n)
    (hroom : t.steps + k ≤ m.limits.maxSteps) :
    eval m (invoke m (exec m level)) n' e (s.advanced k) = .ok v (t.advanced k) :=
  ((slack_expression m level k e).evaluates hn).advanced hrun hroom

/-- **So is a location.** -/
theorem refer_advanced (hrun : refer m (invoke m (exec m level)) n e s = .ok r t)
    (hn : n' ≤ n) (hroom : t.steps + k ≤ m.limits.maxSteps) :
    refer m (invoke m (exec m level)) n' e (s.advanced k) = .ok r (t.advanced k) :=
  ((slack_expression m level k e).refers hn).advanced hrun hroom

theorem steps_le_of_eval (hrun : eval m (invoke m (exec m level)) n e s = .ok v t) :
    s.steps ≤ t.steps := by
  have hbefore := ((slack_expression m level 0 e).evaluates (Nat.le_refl n)).before s
  rw [stateAfter, hrun] at hbefore
  exact hbefore.steps

theorem steps_le_of_refer (hrun : refer m (invoke m (exec m level)) n e s = .ok r t) :
    s.steps ≤ t.steps := by
  have hbefore := ((slack_expression m level 0 e).refers (Nat.le_refl n)).before s
  rw [stateAfter, hrun] at hbefore
  exact hbefore.steps

end Evaluation

end SmallCpp
