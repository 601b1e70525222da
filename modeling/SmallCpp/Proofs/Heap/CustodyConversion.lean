import SmallCpp.Proofs.Heap.Custody

/-!
# Conversions keep custody

Operators give plain values, or move positions.  Copies, defaults and conversions make new values:
each container in them is new, and no container that was there before is changed.  A copy is of the
same kind as the original, the default of a type is a value of that type, and so is a value that was
converted to it.

## Main results

* `makes_coerceTo` — **a converted value is new.**
-/

namespace SmallCpp

variable {a b v key value : Value} {op : HeapM Value} {s t u : Option TypeExpr}
  {f g : Value → HeapM Value} {entries : List (Value × Value)} {items : List Value} {C : Custody}
  {k : Int} {T : Nat → Prop} {h : Heap}

/-! ### Scalars -/

theorem Produces.bare (hop : Produces (C.Bare h) op) : Gives C k T h C.Bare op := by
  cases hop with
  | answer hop =>
    cases hop with
    | value hv => exact Gives.pure hv
    | failure e => exact .throw e
  | nan => exact .given gives_newMark fun m h' _ hmark => Gives.pure (.plain rfl hmark)

theorem Answers.bare (hop : Answers (C.Bare h) op) : Gives C k T h C.Bare op :=
  Produces.bare (.answer hop)

theorem gives_applyUnary (op : UnaryOp) (hv : C.Item h v) :
    Gives C k T h C.Bare (applyUnary op v) :=
  (produces_applyUnary .of_isSimple op fun _ hnan => ⟨hv, hnan ▸ rfl⟩).bare

/-- An operator gives a plain value, or moves a position inside its vector. -/
theorem gives_applyBinary (op : BinaryOp) (ha : C.Item h a) :
    Gives C k T h C.Bare (applyBinary op a b) := by
  cases hop : op.isComparison with
  | true =>
    unfold applyBinary
    rw [if_pos hop]
    exact (ReadOnly.compareValues op a b).then fun _ _ => Gives.pure (.of_isSimple rfl)
  | false =>
    refine (produces_arithmetic .of_isSimple hop ?_).bare
    rintro loc i j rfl
    exact ⟨(ha.of_iterator j).2, rfl⟩

/-! ### Copies, defaults and conversions -/

theorem Custody.Entry.kept {h' : Heap} (hk : Kept h h') {e : Value × Value} (he : C.Entry s t h e) :
    C.Entry s t h' e :=
  ⟨he.hashable, he.key.kept hk, he.value.kept hk⟩

theorem Custody.entry_nil (C : Custody) (s t : Option TypeExpr) (h : Heap) :
    ∀ e ∈ ([] : List (Value × Value)), C.Entry s t h e :=
  fun _ he => nomatch he

theorem Makes.descend {frames room : Nat} {inner : Nat → HeapM Value}
    (hinner : ∀ n, n + frames ≤ room → Makes C k T h t (inner n)) :
    Makes C k T h t (descend frames room inner) := by
  unfold SmallCpp.descend
  split
  · exact .throw _
  · exact hinner _ (by omega)

/-- By induction on the room, of which each level of nesting takes some. -/
theorem makes_copyWithin (room : Nat) (hv : C.Item h v) (hkind : C.Kind t v) :
    Makes C k T h t (copyWithin room v) := by
  induction room using Nat.strongRecOn generalizing h v t with
  | ind room ih =>
    rw [copyWithin_eq]
    cases v with
    | null | bool | int | real | nan | char | text | list | iterator | entry | mapEnd =>
      exact Makes.pure ⟨hv, rfl⟩ hkind
    | vector loc =>
      refine .descend fun n hn => Moves.assuming fun hc => .getVector ?_
      obtain ⟨hfit, hitems⟩ := hc.vectorAt loc
      -- the items are copied one by one, and the new vector takes the copies
      have hcopies := Makes.mapM_array fun w hw h' (hs : Same T h h') =>
        ih n (by omega) (((hitems w hw).1 (hv.look rfl)).kept hs.kept) (hitems w hw).2.2
      refine Moves.bind (r := []) hcopies fun ws h₁ _ hws => ?_
      rw [List.append_nil]
      exact moves_newVector hws.2 (fun _ => hws.1 ▸ hfit) fun l =>
        hkind.fills (Value.fills_of_base fun base => by cases base <;> exact ⟨id, id⟩)
    | map loc =>
      refine .descend fun n hn => Moves.assuming fun hc => .getMap ?_
      have hent : ∀ e ∈ (h.mapAt loc).2.2, ∀ h', Same T h h' →
          Moves C k T h' [] (fun e' => [e'.1, e'.2]) (C.Entry (h.mapAt loc).1 (h.mapAt loc).2.1)
            (copyWithin n e.2 >>= fun w => Pure.pure (e.1, w)) := by
        intro e he h' hs
        obtain ⟨hhash, hlook, -, hkey, hval⟩ := hc.mapAt loc e he
        have hitems := hlook (hv.look rfl)
        -- a key is no container, so the copy may share it
        have hloose := container?_of_hashable hhash
        refine .made (ih n (by omega) (hitems.2.kept hs.kept) hval) fun w h'' hs' hw =>
          .pure (fun l => ?_) ⟨hhash, ?_, hw⟩
        · exact Nat.le_of_eq (by rw [uses_cons l e.1, uses_loose hloose, Nat.zero_add])
        · exact Custody.Bare.own ⟨hitems.1.kept (hs.trans hs').kept, hloose⟩ hkey
      refine Moves.bind (r := []) (Moves.mapM (fun hs he => he.kept hs.kept) _ h hent) ?_
      intro es h₁ _ hes
      rw [List.append_nil]
      exact moves_newMap hes.2 fun l =>
        hkind.fills (Value.fills_of_base fun base => by cases base <;> exact ⟨id, id⟩)
    | pair loc =>
      refine .descend fun n hn => Moves.assuming fun hc => .getPair ?_
      obtain ⟨hlook, -, ha, hb⟩ := hc.pairAt loc
      have hitems := hlook (hv.look rfl)
      refine .made (ih n (by omega) hitems.1 ha) fun a h₁ h01 ha =>
        .made (ih n (by omega) (hitems.2.kept h01.kept) hb) fun b h₂ h12 hb => ?_
      refine (moves_newPair (ha.kept h12.kept) hb fun l => hkind.fills
        (Value.fills_of_base fun base => by cases base <;> exact ⟨id, id⟩)).cover fun l => ?_
      -- the new pair takes both copies, so neither of them is at hand any more
      rw [uses_cons l a, uses_cons l b [a]]
      omega

theorem makes_copyValue (hv : C.Item h v) (hkind : C.Kind t v) : Makes C k T h t (copyValue v) :=
  Moves.congr (show copyValue v h = copyWithin h.room v h from rfl)
    (makes_copyWithin h.room hv hkind)

theorem makes_newPair (ha : C.Own s h a) (hb : C.Own t h b) (hkind : ∀ loc, C.Kind u (.pair loc)) :
    Moves C k T h [b, a] (fun w => [w]) (C.Own u) (newPair a b s t) :=
  (moves_newPair ha hb hkind).cover fun l => by
    rw [uses_cons l a, uses_cons l b [a]]
    omega

theorem Custody.kind_of_base {t : TypeExpr}
    (hb : t.base.admits v = true ∧ t.base.tolerates v = true) :
    C.Kind (some t) v :=
  ⟨by simp [tolerates, hb.2], fun _ => by simp [admits, hb.1]⟩

theorem Custody.kind_of_isPointer {t : TypeExpr} (hp : t.isPointer = true) : C.Kind (some t) v :=
  ⟨by simp [tolerates, hp], fun _ => by simp [admits, hp]⟩

/-- By induction on the type: a pair holds the defaults of its arguments. -/
theorem makes_defaultValue (t : Option TypeExpr) : Makes C k T h t (defaultValue t) := by
  induction t using TypeExpr.inductOption generalizing h with
  | hnone => exact Makes.pure (.of_isSimple rfl) Custody.kind_none
  | hsome t ih =>
    rw [defaultValue, defaultOf_eq]
    split
    · next hp => exact Makes.pure (.of_isSimple rfl) (Custody.kind_of_isPointer hp)
    · cases hb : t.base with
      | vector =>
        exact moves_newVector (by simp) (fun hc => C.fit_zero hc.steps) fun _ =>
          Custody.kind_of_base (hb ▸ ⟨rfl, rfl⟩)
      | map =>
        exact moves_newMap (C.entry_nil _ _ h) fun _ => Custody.kind_of_base (hb ▸ ⟨rfl, rfl⟩)
      | pair =>
        refine .made (ih 0) fun v h₁ _ hv => .made (ih 1) ?_
        exact fun w h₂ h12 hw => makes_newPair (hv.kept h12.kept) hw fun _ =>
          Custody.kind_of_base (hb ▸ ⟨rfl, rfl⟩)
      | _ => exact Makes.pure (.of_isSimple rfl) (Custody.kind_of_base (hb ▸ ⟨rfl, rfl⟩))

theorem makes_defaultOf (t : TypeExpr) (h : Heap) : Makes C k T h (some t) (defaultOf t) :=
  makes_defaultValue (some t)

/-- What single braces wrap may be copied if the list may. -/
theorem unwrap?_item {w : Value} (hv : C.Item h v) (hw : unwrap? v = some w) : C.Item h w := by
  fun_induction unwrap? v with
  | case1 v ih => exact ih (hv.items v List.mem_cons_self) hw
  | case2 => cases hw
  | case3 => exact Option.some.inj hw ▸ hv

/-- Where nothing is converted, the value is copied. -/
theorem makes_toScalar {t : TypeExpr} (room : Nat) (hbase : t.base.isContainer = false)
    (hv : C.Item h v) :
    Makes C k T h (some t) (toScalar (copyWithin room) t.base v) := by
  have hmade : ∀ {op : HeapM Value},
    Answers (fun w => C.Bare h w ∧ t.base.admits w = true ∧ t.base.tolerates w = true)
      op → Makes C k T h (some t) op := by
    intro op hop
    cases hop with
    | value hw => exact Makes.pure hw.1 (Custody.kind_of_base hw.2)
    | failure e => exact .throw e
  cases hb : t.base with
  | int =>
    exact hmade (answers_toInteger (fun _ => ⟨.of_isSimple rfl, by rw [hb]; exact ⟨rfl, rfl⟩⟩) v)
  | float | double =>
    exact hmade (answers_toReal (fun _ => ⟨.of_isSimple rfl, by rw [hb]; exact ⟨rfl, rfl⟩⟩) _
      fun _ hnan => ⟨⟨hv, hnan ▸ rfl⟩, by rw [hb, hnan]; exact ⟨rfl, rfl⟩⟩)
  | char =>
    exact hmade (answers_toCharacter (fun _ => ⟨.of_isSimple rfl, by rw [hb]; exact ⟨rfl, rfl⟩⟩) v)
  | bool =>
    exact hmade ((Oblivious.orFail _).bind fun _ _ =>
      .value ⟨.of_isSimple rfl, by rw [hb]; exact ⟨rfl, rfl⟩⟩)
  | string =>
    exact hmade (answers_toText (fun _ => ⟨.of_isSimple rfl, by rw [hb]; exact ⟨rfl, rfl⟩⟩) v)
  | void | auto | named => exact makes_copyWithin room hv (Custody.kind_of_base (hb ▸ ⟨rfl, rfl⟩))
  | vector | map | pair =>
    rw [hb] at hbase
    cases hbase

theorem entryValue_eq (map : Nat) (key : Value) (h : Heap) : entryValue map key h =
    (match lookupKey key (h.mapAt map).2.2 with
      | some v => pure v
      | none => missingKey key : HeapM Value) h :=
  rfl

theorem gives_entryValue {map : Nat} (hmap : C.touch map) (key : Value) :
    Gives C k T h (fun h' v => C.Val h' v ∧ C.Kind (h.mapAt map).2.1 v) (entryValue map key) := by
  refine Moves.assuming fun hc => .congr (entryValue_eq map key h) ?_
  split
  · next v hv => exact Gives.pure (hc.lookup hmap hv)
  · refine (ReadOnly.missingKey key).gives fun _ v hv => ?_
    obtain ⟨e, he⟩ := ReadOnly.missingKey_eq_error (α := Value) key h
    cases he.symm.trans hv

/-- The two parts of an entry to be are held by a list or a pair. -/
theorem gives_twoValues (hv : C.Item h v) :
    Gives C k T h (fun h' p => C.Item h' p.1 ∧ C.Item h' p.2) (twoValues v) := by
  unfold twoValues
  split
  · exact Gives.pure ⟨hv.items _ (by simp), hv.items _ (by simp)⟩
  · next loc =>
    exact Moves.assuming fun hc => .getPair (Gives.pure ((hc.pairAt loc).1 (hv.look rfl)))
  · exact .fail _

theorem gives_pairParts (hv : C.Item h v) :
    Gives C k T h (fun h' p => C.Item h' p.1 ∧ C.Item h' p.2) (pairParts v) := by
  unfold pairParts
  split
  · next map key mark =>
    obtain ⟨hmap, hkey, -⟩ := hv.of_entry
    refine .given (gives_entryValue (C.point_touch hmap) key) fun value h₁ h01 hval => ?_
    exact Gives.pure ⟨hkey.kept h01.kept, hval.1.item⟩
  · exact gives_twoValues hv
  · exact gives_twoValues hv
  · exact .fail _

/-- What the entries hold, in their order. -/
def entryValues (entries : List (Value × Value)) : List Value :=
  entries.flatMap fun e => [e.1, e.2]

theorem entryValues_cons (e : Value × Value) (entries : List (Value × Value)) :
    entryValues (e :: entries) = e.1 :: e.2 :: entryValues entries :=
  rfl

/-- Storing an entry adds at most its key and its value to what the entries hold. -/
theorem subperm_storeEntry (key value : Value) (entries : List (Value × Value)) :
    (entryValues (storeEntry key value entries)).Subperm (entryValues entries ++ [key, value]) := by
  induction entries with
  | nil => exact List.Subperm.refl _
  | cons e entries ih =>
    rw [storeEntry]
    split
    -- the key from before stays, and the value from before is dropped for the new one
    · rw [entryValues_cons, entryValues_cons]
      refine (List.subperm_cons _).mpr ?_
      have hperm : (value :: entryValues entries).Perm (entryValues entries ++ [value]) :=
        (List.perm_append_singleton _ _).symm
      refine hperm.subperm.trans (List.Sublist.subperm ?_)
      exact .cons _ (List.Sublist.append_left (.cons _ (List.Sublist.refl _)) _)
    · rw [entryValues_cons, entryValues_cons]
      exact (List.subperm_cons _).mpr ((List.subperm_cons _).mpr ih)

/-- What holds of the new entry and of every entry from before holds of all entries after an entry
is stored, also if the new value is stored under a key from before. -/
theorem forall_mem_storeEntry {P : Value × Value → Prop} (hnew : P (key, value))
    (hval : ∀ e, P e → P (e.1, value)) (hents : ∀ e ∈ entries, P e) :
    ∀ e ∈ storeEntry key value entries, P e := by
  induction entries with
  | nil => exact fun e he => List.mem_singleton.mp he ▸ hnew
  | cons e entries ih =>
    have htail := fun e' he' => hents e' (List.mem_cons_of_mem e he')
    have hhead := hents e List.mem_cons_self
    intro e' he'
    rw [storeEntry] at he'
    split at he'
    · rcases List.mem_cons.mp he' with rfl | he'
      · exact hval e hhead
      · exact htail e' he'
    · rcases List.mem_cons.mp he' with rfl | he'
      · exact hhead
      · exact ih htail e' he'

theorem Custody.Entry.store (hnew : C.Entry s t h (key, value))
    (hents : ∀ e ∈ entries, C.Entry s t h e) :
    ∀ e ∈ storeEntry key value entries, C.Entry s t h e :=
  forall_mem_storeEntry hnew (fun _ he => ⟨he.hashable, he.key, hnew.value⟩) hents

theorem hashable_of_checkKey (hv : checkKey v h = .ok () h) : unhashable? v = none := by
  cases hu : unhashable? v with
  | none => rfl
  | some kind =>
    rw [checkKey, hu] at hv
    cases hv

/-- A conversion makes new values of a type, of all values that may be copied. -/
def Remakes (C : Custody) (k : Int) (T : Nat → Prop) (t : Option TypeExpr)
    (f : Value → HeapM Value) : Prop :=
  ∀ h v, C.Item h v → Makes C k T h t (f v)

theorem remakes_copyValue : Remakes C k T none copyValue :=
  fun _ _ hv => makes_copyValue hv Custody.kind_none

theorem remakes_copyWithin (room : Nat) : Remakes C k T none (copyWithin room) :=
  fun _ _ hv => makes_copyWithin room hv Custody.kind_none

/-- The entries so far are at hand beside what is made of the next item. -/
theorem moves_entriesOf {copy toKey toValue : Value → HeapM Value} (hcopy : Remakes C k T none copy)
    (hkey : Remakes C k T s toKey) (hval : Remakes C k T t toValue) (items : List Value) :
    ∀ {h entries}, (∀ v ∈ items, C.Item h v) → (∀ e ∈ entries, C.Entry s t h e) →
      Moves C k T h (entryValues entries) entryValues (fun h' es => ∀ e ∈ es, C.Entry s t h' e)
        (entriesOf copy toKey toValue items entries) := by
  induction items with
  | nil => exact fun _ hents => .pure (.refl _) hents
  | cons item items ih =>
    intro h entries hitems hents
    refine .given (gives_twoValues (hitems item List.mem_cons_self)) fun p h₁ h01 hp => ?_
    -- both parts are copied, then the value is converted, and then the key
    refine .made (hcopy h₁ p.1 hp.1) fun first h₂ h12 hfirst => ?_
    refine .made (hcopy h₂ p.2 (hp.2.kept h12.kept)) fun second h₃ h23 hsecond => ?_
    refine .made (hval h₃ second hsecond.item) fun value h₄ h34 hval => ?_
    refine .made (hkey h₄ first (hfirst.item.kept (h23.trans h34).kept)) fun key h₅ h45 hkey => ?_
    refine (ReadOnly.checkKey key).then fun _ hchk => ?_
    have h05 := ((h01.trans h12).trans ((h23.trans h34).trans h45)).kept
    have hnew : C.Entry s t h₅ (key, value) := ⟨hashable_of_checkKey hchk, hkey, hval.kept h45.kept⟩
    have hents' := hnew.store fun e he => (hents e he).kept h05
    refine (ih (fun v hv => (hitems v (List.mem_cons_of_mem _ hv)).kept h05) hents').cover ?_
    intro l
    have hle := uses_le_of_subperm (subperm_storeEntry key value entries) l
    simp only [uses, List.countP_append, List.countP_cons, List.countP_nil] at hle ⊢
    omega

/-- A list makes a vector no longer than itself. -/
theorem makes_vectorOf {e : Option TypeExpr} (hf : Remakes C k T e f)
    (hitems : C.Item h (.list items)) (hkind : ∀ loc, C.Kind t (.vector loc)) :
    Makes C k T h t (items.mapM f >>= fun ws => newVector e ws.toArray) := by
  have hmade := Makes.mapM fun v hv h' (hs : Same T h h') =>
    hf h' v ((hitems.items v hv).kept hs.kept)
  refine Moves.bind (r := []) hmade fun ws h₁ _ hws => ?_
  rw [List.append_nil]
  refine moves_newVector (fun w hw => hws.2 w (List.mem_toArray.mp hw)) (fun hc => ?_) hkind
  rw [List.size_toArray, hws.1]
  exact C.short_fit hc.steps hitems.short

theorem makes_mapOf {copy : Value → HeapM Value} (hcopy : Remakes C k T none copy)
    (hf : Remakes C k T s f)
    (hg : Remakes C k T t g) (hitems : C.Item h (.list items))
    (hkind : ∀ loc, C.Kind u (.map loc)) :
    Makes C k T h u (entriesOf copy f g items [] >>= fun es => newMap s t es) := by
  refine Moves.bind (r := [])
    (moves_entriesOf hcopy hf hg items hitems.items (C.entry_nil s t h)) ?_
  intro es h₁ _ hes
  rw [List.append_nil]
  exact moves_newMap hes hkind

theorem makes_pairOf (hf : Remakes C k T s f)
    (hg : Remakes C k T t g) (ha : C.Item h a) (hb : C.Item h b)
    (hkind : ∀ loc, C.Kind u (.pair loc)) :
    Makes C k T h u (f a >>= fun x => g b >>= fun y => newPair x y s t) := by
  refine .made (hf h a ha) fun x h₁ h01 hx => .made (hg h₁ b (hb.kept h01.kept)) ?_
  exact fun y h₂ h12 hy => makes_newPair (hx.kept h12.kept) hy hkind

/-- By induction on the type, whose arguments are the types of the parts. -/
theorem makes_coerceToWithin (t : Option TypeExpr) (room : Nat) :
    Remakes C k T t (coerceToWithin room t) := by
  induction t using TypeExpr.inductOption generalizing room with
  | hnone => exact remakes_copyWithin room
  | hsome t ih =>
    intro h v hv
    rw [coerceToWithin, coerceWithin_eq]
    split
    · next hp => exact makes_copyWithin room hv (Custody.kind_of_isPointer hp)
    have hkind : ∀ {base : BaseType} {w : Value}, t.base = base → base.admits w = true ∧
      base.tolerates w = true →
        C.Kind (some t) w := fun hb hw => Custody.kind_of_base (hb ▸ hw)
    split
    -- a list is converted item by item, but a container of the right kind is only copied
    · next hb => exact .descend fun n _ => makes_vectorOf (ih 0 n) hv fun _ => hkind hb ⟨rfl, rfl⟩
    · next hb => exact makes_copyWithin room hv (hkind hb ⟨rfl, rfl⟩)
    · exact .fail _
    · next hb =>
      refine .descend fun n _ => ?_
      exact makes_mapOf (remakes_copyWithin n) (ih 0 n) (ih 1 (n + 2)) hv fun _ =>
        hkind hb ⟨rfl, rfl⟩
    · next hb => exact makes_copyWithin room hv (hkind hb ⟨rfl, rfl⟩)
    · exact .fail _
    · next hb =>
      refine .descend fun n _ => .given (gives_pairParts hv) fun p h₁ _ hp => ?_
      exact makes_pairOf (ih 0 n) (ih 1 n) hp.1 hp.2 fun _ => hkind hb ⟨rfl, rfl⟩
    · have hbase : t.base.isContainer = false := by
        cases hb : t.base <;> simp_all [BaseType.isContainer]
      split
      · next inner hinner => exact makes_toScalar room hbase (unwrap?_item hv hinner)
      · exact .fail _

theorem makes_coerceTo (t : Option TypeExpr) : Remakes C k T t (coerceTo t) :=
  fun h v hv => Moves.congr (show coerceTo t v h = coerceToWithin h.room t v h from rfl)
    (makes_coerceToWithin t h.room h v hv)

theorem makes_coerce (t : TypeExpr) : Remakes C k T (some t) (coerce t) :=
  makes_coerceTo (some t)

end SmallCpp
