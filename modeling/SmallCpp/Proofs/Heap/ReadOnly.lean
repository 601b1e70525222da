import SmallCpp.Machine.Eval

/-!
# Operations that only read the heap

Comparisons, shown forms, checks of indices and the look-ups of containers leave the heap as it is,
whether they succeed or fail.  So of such an operation only the result has to be described.
-/

namespace SmallCpp

variable {same : Value → Value → HeapM Bool}

/-- The operation leaves the heap as it is. -/
structure ReadOnly {α : Type} (op : HeapM α) : Prop where
  ok : ∀ {h h' a}, op h = .ok a h' → h' = h
  error : ∀ {h h' e}, op h = .error e h' → h' = h

namespace ReadOnly

variable {α β : Type}

/-! ### Composition -/

theorem pure (a : α) : ReadOnly (Pure.pure a : HeapM α) :=
  ⟨fun h => by cases h; rfl, fun h => nomatch h⟩

theorem throw (e : Failure) : ReadOnly (throw e : HeapM α) :=
  ⟨fun h => (nomatch h), fun h => by cases h; rfl⟩

/-- The second operation starts from the heap that the first one was given. -/
theorem bind {op : HeapM α} {f : α → HeapM β} (hop : ReadOnly op) (hf : ∀ a, ReadOnly (f a)) :
    ReadOnly (op >>= f) := by
  constructor
  · intro h h' b heq
    obtain ⟨a, h₁, hc, hb⟩ := bind_eq_ok heq
    obtain rfl := hop.ok hc
    exact (hf a).ok hb
  · intro h h' e heq
    cases hc : op h with
    | ok a h₁ =>
      rw [bind_of_ok hc] at heq
      obtain rfl := hop.ok hc
      exact (hf a).error heq
    | error e h₁ =>
      rw [bind_of_error hc] at heq
      cases heq
      exact hop.error hc

theorem get : ReadOnly (MonadState.get : HeapM Heap) :=
  ⟨fun h => by cases h; rfl, fun h => nomatch h⟩

theorem fail (e : RuntimeError) : ReadOnly (fail e : HeapM α) :=
  throw _

theorem failFault (f : Fault) : ReadOnly (failFault f : HeapM α) :=
  throw _

theorem failOperands (s : String) : ReadOnly (failOperands s : HeapM α) :=
  throw _

theorem orFail (r : Except Failure α) : ReadOnly (orFail r) := by
  cases r with
  | ok a => exact pure a
  | error e => exact throw e

theorem orFault (r : Except Fault α) : ReadOnly (orFault r) := by
  cases r with
  | ok a => exact pure a
  | error e => exact failFault e

theorem mapM {f : α → HeapM β} (hf : ∀ a, ReadOnly (f a)) (as : List α) : ReadOnly (as.mapM f) := by
  induction as with
  | nil => rw [List.mapM_nil]; exact pure _
  | cons a as ih =>
    rw [List.mapM_cons]
    exact (hf a).bind fun b => ih.bind fun bs => pure _

theorem inRoom {op : Nat → HeapM α} (h : ∀ room, ReadOnly (op room)) : ReadOnly (inRoom op) :=
  ⟨fun hrun => (h _).ok hrun, fun hrun => (h _).error hrun⟩

theorem getVector (loc : Nat) : ReadOnly (getVector loc) :=
  get.bind fun _ => pure _

theorem getMap (loc : Nat) : ReadOnly (getMap loc) :=
  get.bind fun _ => pure _

theorem getPair (loc : Nat) : ReadOnly (getPair loc) :=
  get.bind fun _ => pure _

/-! ### Shown forms -/

theorem integerText (n : Int) : ReadOnly (integerText n) := by
  unfold SmallCpp.integerText
  cases integerText? n with
  | none => exact failFault _
  | some s => exact pure s

/-- By induction on the room, of which each level of nesting takes some. -/
theorem shownWithin (room : Nat) (v : Value) : ReadOnly (shownWithin room v) := by
  induction room using Nat.strongRecOn generalizing v with
  | ind room ih =>
    rw [SmallCpp.shownWithin.eq_def]
    cases v with
    | null | bool | real | nan | char | text | iterator | mapEnd => exact pure _
    | int n => exact integerText n
    -- a container is shown in the room below its level, and fails where there is none
    | list items =>
      dsimp only
      split
      · exact (mapM (ih _ (by omega)) items).bind fun _ => pure _
      · exact throw _
    | vector loc =>
      dsimp only
      split
      · exact (getVector loc).bind fun _ => (mapM (ih _ (by omega)) _).bind fun _ => pure _
      · exact throw _
    | map loc =>
      dsimp only
      split
      · refine (getMap loc).bind fun _ => (mapM (fun e => ?_) _).bind fun _ => pure _
        exact (ih _ (by omega) e.1).bind fun _ => (ih _ (by omega) e.2).bind fun _ => pure _
      · exact throw _
    | pair loc =>
      dsimp only
      split
      · exact (getPair loc).bind fun p =>
          (ih _ (by omega) p.1).bind fun _ => (ih _ (by omega) p.2.1).bind fun _ => pure _
      · exact throw _
    | entry map key mark =>
      dsimp only
      split
      · exact (ih _ (by omega) key).bind fun _ => pure _
      · exact throw _

theorem shown (v : Value) : ReadOnly (shown v) :=
  inRoom fun room => shownWithin room v

/-- A missing key is an error, whether its text can be shown or not. -/
theorem missingKey_eq_error (key : Value) (h : Heap) :
    ∃ e, (missingKey key : HeapM α) h = .error e h := by
  unfold SmallCpp.missingKey
  split
  · next hshown => exact ⟨_, by rw [(shown key).ok hshown]⟩
  · next hshown => exact ⟨_, by rw [(shown key).error hshown]⟩
  · next hshown => exact ⟨_, by rw [(shown key).error hshown]⟩

theorem missingKey (key : Value) : ReadOnly (missingKey key : HeapM α) := by
  refine ⟨fun {h h' a} hrun => ?_, fun {h h' e} hrun => ?_⟩
  all_goals
    obtain ⟨e, he⟩ := missingKey_eq_error (α := α) key h
    rw [he] at hrun
    cases hrun
  rfl

theorem plainText (v : Value) : ReadOnly (plainText v) := by
  rw [SmallCpp.plainText]
  split
  · exact pure _
  · exact (shown v).bind fun _ => pure _

/-! ### Equality and order -/

theorem checkKey (v : Value) : ReadOnly (checkKey v) := by
  rw [SmallCpp.checkKey]
  split
  · exact pure _
  · exact failFault _

/-- Item by item, up to the first difference. -/
theorem sameItems (h : ∀ a b, ReadOnly (same a b)) (as : List Value) :
    ∀ bs, ReadOnly (sameItems same as bs) := by
  induction as with
  | nil => intro bs; cases bs <;> exact pure _
  | cons a as ih =>
    intro bs
    cases bs with
    | nil => exact pure _
    | cons b bs =>
      refine (h a b).bind fun r => ?_
      split
      · exact ih bs
      · exact pure _

theorem sameEntries (h : ∀ a b, ReadOnly (same a b))
    (others entries : List (Value × Value)) : ReadOnly (sameEntries same others entries) := by
  induction entries with
  | nil => exact pure _
  | cons e entries ih =>
    rw [SmallCpp.sameEntries]
    split
    · exact pure _
    · next b _ =>
      refine (h e.2 b).bind fun r => ?_
      split
      · exact ih
      · exact pure _

/-- By induction on the room, as for `shownWithin`. -/
theorem sameWithin (room : Nat) (a b : Value) : ReadOnly (sameWithin room a b) := by
  induction room using Nat.strongRecOn generalizing a b with
  | ind room ih =>
    unfold SmallCpp.sameWithin
    split
    · split
      · exact sameItems (ih _ (by omega)) _ _
      · exact throw _
    -- a container is equal to itself, and no room is taken to see that
    · next l m =>
      split
      · split
        · exact pure _
        · refine (getVector l).bind fun as => (getVector m).bind fun bs => ?_
          dsimp only
          split
          · exact sameItems (ih _ (by omega)) _ _
          · exact pure _
      · exact throw _
    · next l m =>
      split
      · split
        · exact pure _
        · refine (getMap l).bind fun as => (getMap m).bind fun bs => ?_
          dsimp only
          split
          · exact sameEntries (ih _ (by omega)) _ _
          · exact pure _
      · exact throw _
    · next l m =>
      split
      · refine (getPair l).bind fun p => (getPair m).bind fun q => ?_
        refine (ih _ (by omega) p.1 q.1).bind fun r => ?_
        split
        · exact ih _ (by omega) _ _
        · exact pure _
      · exact throw _
    · exact pure _

theorem sameValue (a b : Value) : ReadOnly (sameValue a b) :=
  inRoom fun room => sameWithin room a b

theorem compareValues (op : BinaryOp) (a b : Value) : ReadOnly (compareValues op a b) := by
  unfold SmallCpp.compareValues
  split
  · exact pure _
  · split
    · exact (orFail _).bind fun _ => (orFail _).bind fun _ => pure _
    · split
      · split
        · exact pure _
        · exact fail _
      -- what is neither a number nor a text is compared for equality only
      · split
        · exact sameValue a b
        · exact (sameValue a b).bind fun _ => pure _
        · exact fail _

theorem orderKey (v : Value) : ReadOnly (orderKey v) := by
  unfold SmallCpp.orderKey
  split
  · exact pure _
  · exact (orFail _).bind fun _ => pure _

theorem before (a b : OrderKey) : ReadOnly (a.before b) := by
  rw [OrderKey.before]
  split
  · exact pure _
  · exact failOperands _

/-! ### Elements and fields -/

theorem asIndex (v : Value) : ReadOnly (asIndex v) :=
  (orFail _).bind fun _ => orFault _

theorem checkIndex (operation : String) (loc : Nat) (index : Value) :
    ReadOnly (checkIndex operation loc index) := by
  refine (asIndex index).bind fun i => (getVector loc).bind fun v => ?_
  dsimp only
  split
  · exact pure _
  · exact fail _

/-! ### Texts -/

theorem readArgument {γ : Type} (name : String) (read : String → Option γ) (v : Value) :
    ReadOnly (readArgument name read v) := by
  refine (plainText v).bind fun s => ?_
  split
  · exact pure _
  · exact (shown v).bind fun _ => fail _

theorem argument (args : List Value) (i : Nat) : ReadOnly (argument args i) := by
  rw [SmallCpp.argument]
  split
  · exact pure _
  · exact failFault _

theorem indexArgument (args : List Value) (i : Nat) : ReadOnly (indexArgument args i) :=
  (argument args i).bind fun _ => (orFail _).bind fun _ => orFault _

theorem charAt (operation : String) (s : CodeText) (i : Int) : ReadOnly (charAt operation s i) := by
  rw [SmallCpp.charAt]
  split
  · exact pure _
  · exact fail _

theorem offsetOf (v : Value) : ReadOnly (offsetOf v) := by
  rw [SmallCpp.offsetOf]
  split
  · split
    · exact pure _
    · exact failFault _
    · exact failFault _
  · split
    · exact orFault _
    · exact failOperands _

/-- Only an integer may be too long to be written. -/
theorem printed (v : Value) : ReadOnly (printed v) := by
  unfold SmallCpp.printed
  split
  · exact pure _
  · exact pure _
  · exact pure _
  · exact (integerText _).bind fun _ => pure _
  · exact pure _
  · exact pure _
  · exact fail _

theorem lengthOf (v : Value) : ReadOnly (lengthOf v) := by
  unfold SmallCpp.lengthOf
  split
  · exact pure _
  · exact (getVector _).bind fun _ => pure _
  · split
    · exact pure _
    · exact failOperands _

theorem checkCharacter (v : Value) (index : Int) : ReadOnly (checkCharacter v index) := by
  refine (lengthOf v).bind fun size => ?_
  split
  · exact pure _
  · exact fail _

theorem isVacant (v : Value) : ReadOnly (isVacant v) := by
  unfold SmallCpp.isVacant
  split
  · exact pure _
  · exact pure _
  · exact (getVector _).bind fun _ => pure _
  all_goals exact pure _

end ReadOnly

end SmallCpp
