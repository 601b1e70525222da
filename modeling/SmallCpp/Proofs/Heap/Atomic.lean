import SmallCpp.Proofs.Heap.Adds

/-!
# Failing operations on vectors

An operation on a vector checks and converts first and changes the vector last, so where it fails
the vector is as it was.  Conversions only add to the heap, and what follows the change cannot fail.

Two operations are different.  To resize a vector is to convert the new element again for each copy,
so copies may be there already when a conversion fails.  They are containers then: any other value
is converted in the same way each time.  To assign to a vector is to clear it before anything is
checked, so a call that fails has lost the elements.

## Main results

* `failed_calls_spare_vector` — **what a failing operation leaves of a vector.**
-/

namespace SmallCpp

variable {α β : Type} {h h' : Heap} {loc : Nat} {element type : Option TypeExpr}
  {items : Array Value} {value : Value} {e : Failure} {op : HeapM α} {f : α → HeapM β}

/-! ### Changes that come last -/

/-- Where the operation fails, the container at the place is as it was. -/
def Spares (loc : Nat) (op : HeapM α) : Prop :=
  ∀ (h h' : Heap) (e : Failure) (o : Object), h.objects[loc]? = some o → op h = .error e h' →
    h'.objects[loc]? = some o

theorem Adds.spares (hop : Adds op) : Spares loc op :=
  fun _ _ _ _ ho hrun => (hop.of_error hrun).object ho

/-- What follows additions starts from the container as it was. -/
theorem Adds.bind_error {o : Object} (hop : Adds op)
    (ho : h.objects[loc]? = some o) (hrun : (op >>= f) h = .error e h') :
    h'.objects[loc]? = some o ∨
      ∃ a h₁, h₁.objects[loc]? = some o ∧ op h = .ok a h₁ ∧ f a h₁ = .error e h' := by
  cases hfirst : op h with
  | ok a h₁ =>
    rw [bind_of_ok hfirst] at hrun
    exact .inr ⟨a, h₁, (hop.of_ok hfirst).object ho, rfl, hrun⟩
  | error e₁ h₁ =>
    rw [bind_of_error hfirst] at hrun
    cases hrun
    exact .inl ((hop.of_error hfirst).object ho)

theorem Adds.bind_spares (hop : Adds op) (hf : ∀ a, Spares loc (f a)) : Spares loc (op >>= f) := by
  intro h h' e o ho hrun
  rcases hop.bind_error ho hrun with hsame | ⟨a, h₁, ho₁, -, hrest⟩
  · exact hsame
  · exact hf a h₁ h' e o ho₁ hrest

theorem spares_updateVector (place : Nat) (f : Array Value → Array Value) (a : α) :
    Spares loc (do updateVector place f; return a) :=
  fun _ _ _ _ _ hrun => nomatch hrun

theorem readOnly_itemAt (place i : Nat) : ReadOnly (itemAt place i) :=
  (ReadOnly.getVector place).bind fun _ => .pure _

theorem spares_callVector {method : VectorMethod} (hresize : method ≠ .resize)
    (hassign : method ≠ .assign)
    (place : Nat) (args : List Value) : Spares loc (callVector method place args) := by
  have houter : ∀ operation index, ReadOnly (outerItem operation place index) := by
    refine fun operation index => (ReadOnly.getVector place).bind fun _ => ?_
    dsimp only
    split
    · exact .fail _
    · exact readOnly_itemAt place _
  unfold callVector
  split
  · exact (ReadOnly.getVector place).adds.bind_spares fun _ =>
      (adds_coerceTo _ _).bind_spares fun _ =>
      spares_updateVector place _ _
  · refine (ReadOnly.getVector place).adds.bind_spares fun _ => ?_
    dsimp only
    split
    · exact (ReadOnly.fail _).adds.bind_spares fun _ => spares_updateVector place _ _
    · exact spares_updateVector place _ _
  · exact ((ReadOnly.checkIndex _ _ _).bind (readOnly_itemAt place)).adds.spares
  · exact ((ReadOnly.getVector place).bind fun _ => .pure _).adds.spares
  · exact ((ReadOnly.getVector place).bind fun _ => .pure _).adds.spares
  · exact spares_updateVector place _ _
  · exact (houter _ _).adds.spares
  · exact (houter _ _).adds.spares
  · exact absurd rfl hresize
  · exact absurd rfl hresize
  · exact absurd rfl hassign
  · exact (ReadOnly.pure _).adds.spares
  · exact ((ReadOnly.getVector place).bind fun _ => .pure _).adds.spares
  · exact (ReadOnly.failOperands _).adds.spares

theorem spares_callLibrary {f : LibraryFunction} (hf : f = .sort ∨ f = .reverse)
    (args : List Value) :
    Spares loc (callLibrary f args) := by
  have hrange : ∀ name first last, ReadOnly (rangeOf name first last) := by
    intro name first last
    unfold rangeOf
    split
    · exact (ReadOnly.getVector _).bind fun _ => .pure _
    · split
      · exact .pure _
      · exact .fail _
    · exact .fail _
  have hsort : ∀ first last, Spares loc (sortRange first last) := by
    refine fun first last => (hrange _ _ _).adds.bind_spares fun p => ?_
    refine (ReadOnly.getVector p.1).adds.bind_spares fun _ => ?_
    refine (ReadOnly.mapM (fun v => (ReadOnly.orderKey v).bind fun _ => .pure _) _).adds.bind_spares
      fun _ => ?_
    dsimp only
    split
    · exact (ReadOnly.failOperands _).adds.bind_spares fun _ => spares_updateVector p.1 _ _
    · exact spares_updateVector p.1 _ _
  have hreverse : ∀ first last, Spares loc (reverseRange first last) := fun first last =>
    (hrange _ _ _).adds.bind_spares fun p => (ReadOnly.getVector p.1).adds.bind_spares fun _ =>
      spares_updateVector p.1 _ _
  rcases hf with rfl | rfl
  · match args with
    | [v] => exact hsort v .null
    | [first, last] => exact hsort first last
    | [] | _ :: _ :: _ :: _ => exact (ReadOnly.failOperands _).adds.spares
  · match args with
    | [v] => exact hreverse v .null
    | [first, last] => exact hreverse first last
    | [] | _ :: _ :: _ :: _ => exact (ReadOnly.failOperands _).adds.spares

/-! ### Copies of an element -/

theorem objects_updateVector (hloc : h.objects[loc]? = some (.vector element items))
    (f : Array Value → Array Value) :
    (h.updateVector loc f).objects[loc]? = some (.vector element (f items)) := by
  rw [Heap.updateVector, Array.getElem?_modify, if_pos rfl, hloc]
  rfl

theorem appendCopies_succeeds {v : Value} (hconv : ∀ g, coerceTo type value g = .ok v g)
    (n : Nat) : ∀ g, ∃ k, appendCopies loc type value n g = .ok () k := by
  induction n with
  | zero => exact fun g => ⟨g, rfl⟩
  | succ n ih =>
    intro g
    obtain ⟨k, hk⟩ := ih (g.updateVector loc fun items => items.push v)
    exact ⟨k, (bind_of_ok (hconv g)).trans hk⟩

/-- The vector at the place holds the elements, and perhaps containers behind them. -/
def Heap.Keeps (h : Heap) (loc : Nat) (element : Option TypeExpr) (items : Array Value) : Prop :=
  ∃ copies, h.objects[loc]? = some (.vector element (items ++ copies)) ∧ ∀ v ∈ copies,
    unhashable? v ≠ none

theorem Heap.keeps_of_eq (hloc : h.objects[loc]? = some (.vector element items)) :
    h.Keeps loc element items :=
  ⟨#[], by rw [hloc, Array.append_empty], nofun⟩

/-- Filling fails where a conversion does, and keeps the copies that were made before. -/
theorem appendCopies_fails (n : Nat) : ∀ {h : Heap} {items : Array Value},
    h.objects[loc]? = some (.vector element items) → appendCopies loc type value n h = .error e h' →
      h'.Keeps loc element items := by
  induction n with
  | zero => exact fun _ hrun => nomatch hrun
  | succ n ih =>
    intro h items hloc hrun
    rw [appendCopies] at hrun
    cases hconv : coerceTo type value h with
    | error e₁ h₁ =>
      rw [bind_of_error hconv] at hrun
      cases hrun
      exact Heap.keeps_of_eq (((adds_coerceTo type value).of_error hconv).object hloc)
    | ok v h₁ =>
      rw [bind_of_ok hconv] at hrun
      have hpush := objects_updateVector (((adds_coerceTo type value).of_ok hconv).object hloc)
        fun items => items.push v
      obtain ⟨copies, hcopies, hcontainers⟩ := ih hpush hrun
      refine ⟨#[v] ++ copies, by rw [hcopies, ← Array.append_assoc]; rfl, ?_⟩
      -- a value that is no container would have been converted each time
      have hcont : unhashable? v ≠ none := fun hkey => by
        obtain ⟨k, hk⟩ := appendCopies_succeeds (coerceTo_of_hashable hconv hkey).2 n
          (h₁.updateVector loc fun items => items.push v)
        cases hk.symm.trans hrun
      simpa [hcont] using hcontainers

/-- The value that a vector is filled with. -/
def fillOf (element : Option TypeExpr) (value : Value) : HeapM Value :=
  match value with
  | .null => defaultValue element
  | v => pure v

theorem resizeVector_eq (count value : Value) : resizeVector loc count value = (do
    let n ← asIndex count
    if n < 0 then fail (.negativeResize n)
    else
      let (element, items) ← getVector loc
      let fill ← fillOf element value
      updateVector loc fun items => items.take n.toNat
      appendCopies loc element fill (n.toNat - items.size)
      return .null) := by
  rw [resizeVector]
  refine bind_congr fun n => ?_
  dsimp only
  split
  · rfl
  · cases value <;> rfl

theorem adds_fillOf (element : Option TypeExpr) (value : Value) : Adds (fillOf element value) := by
  unfold fillOf
  split
  · exact adds_defaultValue element
  · exact (ReadOnly.pure _).adds

/-- To resize a vector fails before it changes, or when copies are made. -/
theorem resizeVector_fails (hloc : h.objects[loc]? = some (.vector element items)) {count : Value}
    (hrun : resizeVector loc count value h = .error e h') : h'.Keeps loc element items := by
  rw [resizeVector_eq] at hrun
  rcases (ReadOnly.asIndex count).adds.bind_error hloc hrun with hsame | ⟨n, h₁, hloc₁, -, hrun⟩
  · exact Heap.keeps_of_eq hsame
  split at hrun
  · exact Heap.keeps_of_eq ((ReadOnly.fail _).adds.spares _ _ _ _ hloc₁ hrun)
  rw [bind_of_ok (getVector_of_object hloc₁)] at hrun
  rcases (adds_fillOf element value).bind_error hloc₁ hrun with hsame | ⟨fill, h₂, hloc₂, -, hrun⟩
  · exact Heap.keeps_of_eq hsame
  -- a conversion fails only if there are copies to make, and then no element is dropped
  have hcopies : items.size < n.toNat := by
    refine Nat.lt_of_not_le fun hle => ?_
    rw [Nat.sub_eq_zero_of_le hle] at hrun
    cases hrun
  have htake := objects_updateVector hloc₂ fun items => items.take n.toNat
  rw [show items.take n.toNat = items by simp [Array.take_eq_extract, hcopies.le]] at htake
  change ((appendCopies loc element fill (n.toNat - items.size) >>= fun _ => pure .null) :
    HeapM Value)
    (h₂.updateVector loc _) = _ at hrun
  cases happend : appendCopies loc element fill (n.toNat - items.size)
      (h₂.updateVector loc fun items => items.take n.toNat) with
  | ok _ h₃ =>
    rw [bind_of_ok happend] at hrun
    cases hrun
  | error e₃ h₃ =>
    rw [bind_of_error happend] at hrun
    cases hrun
    exact appendCopies_fails _ htake happend

/-! ### What is left of a vector -/

/-- **What a failing operation leaves of a vector.**  Most calls of its member functions, sorting,
reversing, reading and assigning an element leave it as it was.  A call that resizes it may leave
containers behind its elements, and a call that assigns to it leaves nothing else. -/
theorem failed_calls_spare_vector (hloc : h.objects[loc]? = some (.vector element items)) :
    (∀ method args e h', method ≠ .resize → method ≠ .assign →
      callVector method loc args h = .error e h' →
      h'.objects[loc]? = some (.vector element items)) ∧
    (∀ f args e h', f = .sort ∨ f = .reverse → callLibrary f args h = .error e h' →
      h'.objects[loc]? = some (.vector element items)) ∧
    (∀ index e h', vectorGet loc index h = .error e h' →
      h'.objects[loc]? = some (.vector element items)) ∧
    (∀ index v e h', (coerceTo element v >>= vectorSet loc index) h = .error e h' →
      h'.objects[loc]? = some (.vector element items)) ∧
    (∀ args e h', callVector .resize loc args h = .error e h' → h'.Keeps loc element items) ∧
    ∀ args e h', callVector .assign loc args h = .error e h' →
      if args.length = 2 then h'.Keeps loc element #[] else h'.objects[loc]? =
        some (.vector element items) := by
  have hnum : ∀ {e h'}, (failOperands "wrong number of arguments" : HeapM Value) h = .error e h' →
      h'.objects[loc]? = some (.vector element items) := fun hrun =>
    (ReadOnly.failOperands _).adds.spares _ _ _ _ hloc hrun
  refine ⟨fun method args e h' hresize hassign => spares_callVector hresize hassign loc args _ _
    _ _ hloc,
    fun f args e h' hf => spares_callLibrary hf args _ _ _ _ hloc, fun index e h' =>
    ?_, fun index v e h' => ?_,
    fun args e h' hrun => ?_, fun args e h' hrun => ?_⟩
  · exact ((ReadOnly.checkIndex _ _ _).bind (readOnly_itemAt loc)).adds.spares _ _ _ _ hloc
  · refine (adds_coerceTo element v).bind_spares (fun w => ?_) _ _ _ _ hloc
    exact (ReadOnly.checkIndex _ _ _).adds.bind_spares fun _ _ _ _ _ _ hrun => nomatch hrun
  · match args with
    | [count] =>
      have hrun : resizeVector loc count .null h = .error e h' := hrun
      exact resizeVector_fails hloc hrun
    | [count, value] => exact resizeVector_fails hloc hrun
    | [] | _ :: _ :: _ :: _ => exact Heap.keeps_of_eq (hnum hrun)
  · match args with
    | [count, value] => exact resizeVector_fails (objects_updateVector hloc fun _ => #[]) hrun
    | [] | [_] | _ :: _ :: _ :: _ => exact hnum hrun

/-- Two integers are still there after a call that resizes the vector with a text, and lost after
one that assigns the text. -/
theorem failed_calls_spare_vector_text :
    let int : Option TypeExpr := some (.of .int [])
    let h : Heap := { objects := #[.vector int #[.int 1, .int 2]] }
    ∃ e h₁ h₂, callVector .resize 0 [.int 3, .text []] h = .error e h₁ ∧
      callVector .assign 0 [.int 3, .text []] h = .error e h₂ ∧
      h₁.objects[0]? = some (.vector int #[.int 1, .int 2]) ∧ h₂.Keeps 0 int #[] := by
  intro int h
  have hloc : h.objects[0]? = some (.vector int #[.int 1, .int 2]) := rfl
  obtain ⟨-, -, -, -, -, hassign⟩ := failed_calls_spare_vector hloc
  have hfirst : callVector .resize 0 [.int 3, .text []] h =
    .error (.error (.conversion "string" "int")) h := rfl
  have hsecond : callVector .assign 0 [.int 3, .text []] h =
    .error (.error (.conversion "string" "int")) (h.updateVector 0 fun _ => #[]) := rfl
  exact ⟨_, _, _, hfirst, hsecond, rfl, hassign _ _ _ hsecond⟩

end SmallCpp
