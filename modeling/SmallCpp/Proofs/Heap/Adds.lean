import SmallCpp.Proofs.Heap.Key

/-!
# Operations that only add to the heap

Copies, defaults and conversions create containers, and change none that is there, whether they
succeed or fail.  So what a container holds may be read before them or after them. -/

namespace SmallCpp

variable {α β : Type} {h h' : Heap} {op : HeapM α} {f : α → HeapM β}

/-- The operation changes no container, whether it succeeds or fails. -/
def Adds (op : HeapM α) : Prop :=
  ∀ h, Fresh h (heapAfter op h)

namespace Adds

theorem of_ok {a : α} (hop : Adds op) (hrun : op h = .ok a h') : Fresh h h' :=
  heapAfter_of_ok hrun ▸ hop h

theorem of_error {e : Failure} (hop : Adds op) (hrun : op h = .error e h') : Fresh h h' :=
  heapAfter_of_error hrun ▸ hop h

theorem bind (hop : Adds op) (hf : ∀ a, Adds (f a)) : Adds (op >>= f) := by
  intro h
  rw [heapAfter]
  cases hrun : op h with
  | ok a h₁ =>
    rw [bind_of_ok hrun]
    exact (hop.of_ok hrun).trans (hf a h₁)
  | error e h₁ =>
    rw [bind_of_error hrun]
    exact hop.of_error hrun

theorem mapM (hf : ∀ a, Adds (f a)) (as : List α) : Adds (as.mapM f) := by
  induction as with
  | nil => exact fun h => .refl h
  | cons a as ih =>
    rw [List.mapM_cons]
    exact (hf a).bind fun b => ih.bind fun bs h => .refl h

theorem mapM_array (hf : ∀ a, Adds (f a)) (as : Array α) : Adds (as.mapM f) := by
  rw [Array.mapM_eq_mapM_toList]
  exact (mapM hf as.toList).bind fun bs h => .refl h

theorem alloc (o : Object) : Adds (alloc o) :=
  fun h => h.fresh_push o

theorem newMark : Adds newMark :=
  fun _ => ⟨id, Nat.le_succ _, rfl⟩

end Adds

theorem ReadOnly.adds (hop : ReadOnly op) : Adds op := by
  intro h
  rw [heapAfter]
  cases hrun : op h with
  | ok a h' => exact hop.ok hrun ▸ .refl h
  | error e h' => exact hop.error hrun ▸ .refl h

theorem Answers.adds {P : α → Prop} (hop : Answers P op) : Adds op := by
  cases hop with
  | value => exact (ReadOnly.pure _).adds
  | failure e => exact (ReadOnly.throw e).adds

theorem adds_newVector (e : Option TypeExpr) (items : Array Value) : Adds (newVector e items) :=
  (Adds.alloc _).bind fun _ => (ReadOnly.pure _).adds

theorem adds_newMap (s t : Option TypeExpr) (entries : List (Value × Value)) :
    Adds (newMap s t entries) :=
  (Adds.alloc _).bind fun _ => (ReadOnly.pure _).adds

theorem adds_newPair (v w : Value) (s t : Option TypeExpr) : Adds (newPair v w s t) :=
  (Adds.alloc _).bind fun _ => (ReadOnly.pure _).adds

theorem Adds.descend {frames room : Nat} {inner : Nat → HeapM α}
    (h : ∀ n, n + frames ≤ room → Adds (inner n)) : Adds (descend frames room inner) := by
  unfold SmallCpp.descend
  split
  · exact (ReadOnly.throw _).adds
  · exact h _ (by omega)

theorem Adds.inRoom {op : Nat → HeapM α} (h : ∀ room, Adds (op room)) : Adds (inRoom op) :=
  fun k => h k.room k

theorem adds_copyWithin (room : Nat) (v : Value) : Adds (copyWithin room v) := by
  induction room using Nat.strongRecOn generalizing v with
  | ind room ih =>
    rw [copyWithin_eq]
    cases v with
    | vector loc =>
      exact .descend fun n hn => (ReadOnly.getVector loc).adds.bind fun _ =>
        (Adds.mapM_array (ih n (by omega)) _).bind fun _ => adds_newVector _ _
    | map loc =>
      refine .descend fun n hn => (ReadOnly.getMap loc).adds.bind fun _ =>
        (Adds.mapM (fun e => ?_) _).bind fun _ => adds_newMap _ _ _
      exact (ih n (by omega) e.2).bind fun _ => (ReadOnly.pure _).adds
    | pair loc =>
      exact .descend fun n hn => (ReadOnly.getPair loc).adds.bind fun p =>
        (ih n (by omega) p.1).bind fun _ => (ih n (by omega) p.2.1).bind fun _ =>
        adds_newPair _ _ _ _
    | _ => exact (ReadOnly.pure _).adds

theorem adds_copyValue (v : Value) : Adds (copyValue v) :=
  .inRoom fun room => adds_copyWithin room v

theorem adds_defaultValue (t : Option TypeExpr) : Adds (defaultValue t) := by
  intro h
  obtain ⟨v, h', hrun, hfresh, -⟩ := bears_defaultValue t h
  rw [heapAfter_of_ok hrun]
  exact hfresh

theorem adds_toScalar (room : Nat) (base : BaseType) (v : Value) :
    Adds (toScalar (copyWithin room) base v) := by
  cases base with
  | int => exact (answers_toInteger (P := fun _ => True) (fun _ => trivial) v).adds
  | float | double =>
    exact (answers_toReal (P := fun _ => True) (fun _ => trivial) _ fun _ _ => trivial).adds
  | char => exact (answers_toCharacter (P := fun _ => True) (fun _ => trivial) v).adds
  | bool => exact (Oblivious.orFail _).adds.bind fun _ => (ReadOnly.pure _).adds
  | string => exact (answers_toText (P := fun _ => True) (fun _ => trivial) v).adds
  | _ => exact adds_copyWithin room v

theorem adds_twoValues (v : Value) : Adds (twoValues v) := by
  unfold twoValues
  split
  · exact (ReadOnly.pure _).adds
  · exact (ReadOnly.getPair _).adds.bind fun _ => (ReadOnly.pure _).adds
  · exact (ReadOnly.fail _).adds

theorem adds_pairParts (v : Value) : Adds (pairParts v) := by
  unfold pairParts
  split
  · next map key _ =>
    refine Adds.bind ((ReadOnly.getMap map).adds.bind fun m => ?_) fun _ => (ReadOnly.pure _).adds
    dsimp only
    split
    · exact (ReadOnly.pure _).adds
    · exact (ReadOnly.missingKey _).adds
  · exact adds_twoValues _
  · exact adds_twoValues _
  · exact (ReadOnly.fail _).adds

theorem adds_entriesOf {copy toKey toValue : Value → HeapM Value} (hcopy : ∀ v, Adds (copy v))
    (hkey : ∀ v, Adds (toKey v)) (hval : ∀ v, Adds (toValue v)) (items : List Value) :
    ∀ entries, Adds (entriesOf copy toKey toValue items entries) := by
  induction items with
  | nil => exact fun _ => (ReadOnly.pure _).adds
  | cons item items ih =>
    intro entries
    exact (adds_twoValues item).bind fun p => (hcopy p.1).bind fun first =>
      (hcopy p.2).bind fun second => (hval second).bind fun value => (hkey first).bind fun key =>
      (ReadOnly.checkKey key).adds.bind fun _ => ih _

theorem adds_coerceToWithin (t : Option TypeExpr) : ∀ room v, Adds (coerceToWithin room t v) := by
  induction t using TypeExpr.inductOption with
  | hnone => exact adds_copyWithin
  | hsome t ih =>
    intro room v
    rw [coerceToWithin, coerceWithin_eq]
    split
    · exact adds_copyWithin room v
    split
    · exact .descend fun n _ => (Adds.mapM (ih 0 n) _).bind fun _ => adds_newVector _ _
    · exact adds_copyWithin room _
    · exact (ReadOnly.fail _).adds
    · exact .descend fun n _ =>
        (adds_entriesOf (adds_copyWithin n) (ih 0 n) (ih 1 (n + 2)) _ _).bind fun _ =>
        adds_newMap _ _ _
    · exact adds_copyWithin room _
    · exact (ReadOnly.fail _).adds
    · exact .descend fun n _ => (adds_pairParts _).bind fun p => (ih 0 n p.1).bind fun _ =>
        (ih 1 n p.2).bind fun _ => adds_newPair _ _ _ _
    · split
      · exact adds_toScalar room _ _
      · exact (ReadOnly.fail _).adds

/-- **A conversion only adds to the heap.** -/
theorem adds_coerceTo (t : Option TypeExpr) (v : Value) : Adds (coerceTo t v) :=
  .inRoom fun room => adds_coerceToWithin t room v

end SmallCpp
