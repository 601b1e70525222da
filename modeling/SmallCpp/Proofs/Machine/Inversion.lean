import SmallCpp.Machine.Exec

/-!
# What a successful evaluation did

An evaluation that gave a value went through the evaluations of its parts, one after the other.  For
each form of expression one lemma takes it apart, down to the operation on values at its end.
-/

namespace SmallCpp

variable {s t : State} {id name : String} {e o a b i : Expr} {α : Type} {v : Value} {c : Bool}
  {es : List Expr} {type : TypeExpr} {op : BinaryOp} {access : Access} {m : Machine} {enter : Enter}
  {n : Nat} {p : Position} {r : Reference}

/-! ### Single operations -/

/-- An operation on the heap changes nothing else of the state. -/
theorem onHeap_eq_ok {op : HeapM α} {a : α} (h : onHeap op s = .ok a t) :
    ∃ k, op s.heap = .ok a k ∧ t = { s with heap := k } := by
  rw [onHeap] at h
  dsimp only at h
  split at h
  · next b k hop =>
    cases h
    exact ⟨k, hop, rfl⟩
  · cases h

theorem truth_eq_ok (h : truth v s = .ok c t) : v.condition = .ok c ∧ t = s := by
  obtain ⟨k, hop, rfl⟩ := onHeap_eq_ok h
  cases hv : v.condition with
  | ok b =>
    rw [hv] at hop
    cases hop
    exact ⟨rfl, rfl⟩
  | error e =>
    rw [hv] at hop
    cases hop

theorem truth_of_condition (hv : v.condition = .ok c) : truth v s = .ok c s := by
  rw [truth, hv]
  rfl

/-- A computation that first checks the nesting of the evaluations. -/
theorem eq_ok_of_checked {limits : Limits} {c : Run α} {a : α}
    (h : (checkNesting limits n >>= fun _ => c) s = .ok a t) : c s = .ok a t := by
  obtain ⟨_, u, hchk, h⟩ := bind_eq_ok h
  rw [checkNesting] at hchk
  split at hchk
  · cases hchk
    exact h
  · cases hchk

theorem resolve_eq (id : String) (s : State) : resolve id s = (match s.lookup? id with
    | some ref => pure ref
    | none => raise (.unboundName id) : Run Reference) s :=
  rfl

theorem resolve_eq_ok (h : resolve id s = .ok r t) : s.lookup? id = some r ∧ t = s := by
  rw [resolve_eq] at h
  cases hr : s.lookup? id with
  | some r' =>
    rw [hr] at h
    cases h
    exact ⟨rfl, rfl⟩
  | none =>
    rw [hr] at h
    cases h

/-! ### Values -/

theorem eval_literal_eq_ok {l : Literal} (h : eval m enter n (.literal p l) s = .ok v t) :
    v = l.value ∧ t = s := by
  rw [eval_step] at h
  cases eq_ok_of_checked h
  exact ⟨rfl, rfl⟩

/-- A name is looked up, then its location is read. -/
theorem eval_name_eq_ok (h : eval m enter n (.name p id) s = .ok v t) :
    ∃ r, s.lookup? id = some r ∧ readPlace r.place s = .ok v t := by
  rw [eval_step] at h
  obtain ⟨r, u, hresolve, hread⟩ := bind_eq_ok (eq_ok_of_checked h)
  obtain ⟨hr, rfl⟩ := resolve_eq_ok hresolve
  exact ⟨r, hr, hread⟩

theorem eval_unary_eq_ok {op : UnaryOp} (hinc : op ≠ .increment) (hdec : op ≠ .decrement)
    (h : eval m enter n (.unary p op e) s = .ok v t) :
    ∃ w u, eval m enter (n + 2) e s = .ok w u ∧ onHeap (applyUnary op w) u = .ok v t := by
  rw [eval_step] at h
  have h := eq_ok_of_checked h
  cases op with
  | increment => exact absurd rfl hinc
  | decrement => exact absurd rfl hdec
  -- the other operators evaluate their operand and leave it alone
  | negate | plus | not | complement =>
    obtain ⟨w, u, hw, h⟩ := bind_eq_ok h
    exact ⟨w, u, hw, h⟩

theorem eval_binary (hop : ¬(op = .logicalAnd ∨ op = .logicalOr)) (a b : Expr) :
    eval m enter n (.binary p op a b) = (checkNesting m.limits n >>= fun _ => do
      let x ← eval m enter (n + 2) a
      let y ← eval m enter (n + 2) b
      onHeap (applyBinary op x y)) := by
  rw [eval_step]
  cases op with
  | logicalAnd => exact absurd (.inl rfl) hop
  | logicalOr => exact absurd (.inr rfl) hop
  | _ => rfl

theorem eval_binary_eq_ok (hop : ¬(op = .logicalAnd ∨ op = .logicalOr))
    (h : eval m enter n (.binary p op a b) s = .ok v t) :
    ∃ x u y w, eval m enter (n + 2) a s = .ok x u ∧ eval m enter (n + 2) b u = .ok y w ∧
      onHeap (applyBinary op x y) w = .ok v t := by
  rw [eval_binary hop] at h
  obtain ⟨x, u, hx, h⟩ := bind_eq_ok (eq_ok_of_checked h)
  obtain ⟨y, w, hy, h⟩ := bind_eq_ok h
  exact ⟨x, u, y, w, hx, hy, h⟩

/-- A logical operator evaluates its right operand unless the left one settles the matter. -/
theorem eval_logical (hop : op = .logicalAnd ∨ op = .logicalOr) (a b : Expr) :
    eval m enter n (.binary p op a b) = checkNesting m.limits n >>= fun _ => do
      let c ← truth (← eval m enter (n + 2) a)
      if c = (op == .logicalOr) then return .bool c
      else return .bool (← truth (← eval m enter (n + 2) b)) := by
  rw [eval_step]
  refine bind_congr fun _ => ?_
  rcases hop with rfl | rfl
  all_goals
    refine bind_congr fun x => bind_congr fun c => ?_
    cases c <;> rfl

/-- Either the left operand has settled the matter, or the right one has the answer. -/
theorem eval_logical_eq_ok (hop : op = .logicalAnd ∨ op = .logicalOr)
    (h : eval m enter n (.binary p op a b) s = .ok v t) :
    ∃ x u c, eval m enter (n + 2) a s = .ok x u ∧ x.condition = .ok c ∧
      (c = (op == .logicalOr) ∧ v = .bool c ∧ t = u ∨
        c ≠ (op == .logicalOr) ∧
          ∃ y d, eval m enter (n + 2) b u = .ok y t ∧ y.condition = .ok d ∧ v = .bool d) := by
  rw [eval_logical hop] at h
  obtain ⟨x, u, hx, hrest⟩ := bind_eq_ok (eq_ok_of_checked h)
  obtain ⟨c, u', htruth, hend⟩ := bind_eq_ok hrest
  obtain ⟨hc, rfl⟩ := truth_eq_ok htruth
  -- the test of the left operand leaves the state, so the rest starts where it ended
  refine ⟨x, _, c, hx, hc, ?_⟩
  split at hend
  · next hdecides =>
    cases hend
    exact .inl ⟨hdecides, rfl, rfl⟩
  · next hdecides =>
    obtain ⟨y, w, hy, hrest⟩ := bind_eq_ok hend
    obtain ⟨d, w', htruth, hend⟩ := bind_eq_ok hrest
    obtain ⟨hd, rfl⟩ := truth_eq_ok htruth
    cases hend
    exact .inr ⟨hdecides, y, d, hy, hd, rfl⟩

theorem eval_index_eq_ok (h : eval m enter n (.index p o i) s = .ok v t) :
    ∃ c u j w, eval m enter (n + 2) o s = .ok c u ∧ eval m enter (n + 2) i u = .ok j w ∧
      onHeap (elementOf c j) w = .ok v t := by
  rw [eval_step] at h
  obtain ⟨c, u, hc, h⟩ := bind_eq_ok (eq_ok_of_checked h)
  obtain ⟨j, w, hj, h⟩ := bind_eq_ok h
  exact ⟨c, u, j, w, hc, hj, h⟩

theorem eval_member_eq_ok (h : eval m enter n (.member p o access name) s = .ok v t) :
    ∃ c u, eval m enter (n + 2) o s = .ok c u ∧ onHeap (memberOf c name) u = .ok v t := by
  rw [eval_step] at h
  have h := eq_ok_of_checked h
  cases access with
  | scope => cases h
  | dot | arrow =>
    obtain ⟨c, u, hc, h⟩ := bind_eq_ok h
    exact ⟨c, u, hc, h⟩

/-! ### Locations -/

theorem refer_name_eq_ok (h : refer m enter n (.name p id) s = .ok r t) :
    s.lookup? id = some r ∧ t = s := by
  rw [refer_step] at h
  exact resolve_eq_ok (eq_ok_of_checked h)

/-- An element of a container is found by one evaluation of its parts. For a character of a text,
the location of the text is looked for afterwards. -/
theorem refer_index_eq_ok (h : refer m enter n (.index p o i) s = .ok r t) :
    ∃ c u j w, eval m enter (n + 1) o s = .ok c u ∧ eval m enter (n + 1) i u = .ok j w ∧
      ((∃ loc, c = .vector loc ∧ t = w ∧ r = ⟨.vectorSlot loc j, (w.heap.vectorAt loc).1⟩) ∨
        (∃ loc, c = .map loc ∧ t = w ∧ r = ⟨.mapSlot loc j, (w.heap.mapAt loc).2.1⟩) ∨
        ∃ q x k, c.asText? ≠ none ∧ refer m enter (n + 1) o w = .ok q x ∧
        onHeap (asIndex j) x = .ok k t ∧
          r = characterOf q k) := by
  rw [refer_step] at h
  obtain ⟨c, u, hc, hrest⟩ := bind_eq_ok (eq_ok_of_checked h)
  obtain ⟨j, w, hj, hrest⟩ := bind_eq_ok hrest
  -- `slot` is there for a container, and absent for a text
  obtain ⟨slot, x, hslot, hrest⟩ := bind_eq_ok hrest
  refine ⟨c, u, j, w, hc, hj, ?_⟩
  cases c with
  | vector loc =>
    cases hslot
    cases hrest
    exact Or.inl ⟨loc, rfl, rfl, rfl⟩
  | map loc =>
    cases hslot
    cases hrest
    exact Or.inr (Or.inl ⟨loc, rfl, rfl, rfl⟩)
  | char | text =>
    cases hslot
    obtain ⟨q, x, hq, hrest⟩ := bind_eq_ok hrest
    obtain ⟨k, y, hk, hrest⟩ := bind_eq_ok hrest
    cases hrest
    exact Or.inr (Or.inr ⟨q, x, k, nofun, hq, hk, rfl⟩)
  | _ =>
    cases hslot
    cases hrest

/-- A field is one of a pair or of an entry, and has the type that is recorded there. -/
theorem refer_member_eq_ok (h : refer m enter n (.member p o access name) s = .ok r t) :
    ∃ c field, access ≠ .scope ∧ eval m enter (n + 1) o s = .ok c t ∧
    PairField.ofName? name = some field ∧
      ((∃ loc, c = .pair loc ∧ r = ⟨.pairField loc field,
          if field == .first then (t.heap.pairAt loc).2.2.1 else (t.heap.pairAt loc).2.2.2⟩) ∨
        ∃ loc key mark, c = .entry loc key mark ∧ r = ⟨.entryField loc key field,
          if field == .first then (t.heap.mapAt loc).1 else (t.heap.mapAt loc).2.1⟩) := by
  rw [refer_step] at h
  have h := eq_ok_of_checked h
  dsimp only at h
  split at h
  · cases h
  · next hacc =>
    obtain ⟨c, u, hc, hrest⟩ := bind_eq_ok h
    obtain ⟨o', x, hfld, hrest⟩ := bind_eq_ok hrest
    unfold fieldOf? at hfld
    cases hname : PairField.ofName? name with
    | none =>
      rw [hname] at hfld
      -- no value has a field of another name
      cases c <;> (cases hfld; cases hrest)
    | some field =>
      rw [hname] at hfld
      refine ⟨c, field, fun h => hacc (by rw [h]; rfl), ?_⟩
      cases c with
      | pair loc =>
        cases hfld
        cases hrest
        exact ⟨hc, rfl, Or.inl ⟨loc, rfl, rfl⟩⟩
      | entry loc key mark =>
        cases hfld
        cases hrest
        exact ⟨hc, rfl, Or.inr ⟨loc, key, mark, rfl, rfl⟩⟩
      | _ =>
        cases hfld
        cases hrest

/-! ### Evaluations with room -/

section Room

variable {limits : Limits}

/-- Within the limit the check of the nesting does nothing. -/
theorem checked_of_le (hn : n ≤ limits.maxNesting) (c : Run α) (s : State) :
    (checkNesting limits n >>= fun _ => c) s = c s := by
  rw [checkNesting, if_pos hn]
  rfl

theorem le_of_checked {c : Run α} {a : α} (hrun : (checkNesting limits n >>= fun _ => c) s =
    .ok a t) :
    n ≤ limits.maxNesting := by
  by_cases hn : n ≤ limits.maxNesting
  · exact hn
  · rw [checkNesting, if_neg hn] at hrun
    cases hrun

/-- Whatever was evaluated was within the limit. -/
theorem le_of_eval (hrun : eval m enter n e s = .ok v t) : n ≤ m.limits.maxNesting := by
  rw [eval_step] at hrun
  exact le_of_checked hrun

theorem le_of_refer (hrun : refer m enter n e s = .ok r t) : n ≤ m.limits.maxNesting := by
  rw [refer_step] at hrun
  exact le_of_checked hrun

theorem eval_literal (l : Literal) (hn : n ≤ m.limits.maxNesting) (s : State) :
    eval m enter n (.literal p l) s = .ok l.value s := by
  rw [eval_step]
  exact checked_of_le hn _ s

theorem resolve_of_lookup? (hr : s.lookup? id = some r) : resolve id s = .ok r s := by
  rw [resolve_eq, hr]
  rfl

theorem refer_name (hn : n ≤ m.limits.maxNesting) (hr : s.lookup? id = some r) :
    refer m enter n (.name p id) s = .ok r s := by
  rw [refer_step]
  exact (checked_of_le hn _ s).trans (resolve_of_lookup? hr)

theorem eval_name (hn : n ≤ m.limits.maxNesting) (hr : s.lookup? id = some r) :
    eval m enter n (.name p id) s = r.read s := by
  rw [eval_step]
  exact (checked_of_le hn _ s).trans (bind_of_ok (resolve_of_lookup? hr))

/-- The container is evaluated before the index. -/
theorem eval_index {c j : Value} {u : State} (hn : n ≤ m.limits.maxNesting)
    (hc : eval m enter (n + 2) o s = .ok c t)
    (hj : eval m enter (n + 2) i t = .ok j u) :
    eval m enter n (.index p o i) s = onHeap (elementOf c j) u := by
  rw [eval_step]
  exact (checked_of_le hn _ s).trans ((bind_of_ok hc).trans (bind_of_ok hj))

theorem eval_member (hacc : access ≠ .scope) (hn : n ≤ m.limits.maxNesting)
    (ho : eval m enter (n + 2) o s = .ok v t) :
    eval m enter n (.member p o access name) s = onHeap (memberOf v name) t := by
  rw [eval_step]
  refine (checked_of_le hn _ s).trans ?_
  cases access with
  | scope => exact absurd rfl hacc
  | dot | arrow => exact bind_of_ok ho

end Room

end SmallCpp
