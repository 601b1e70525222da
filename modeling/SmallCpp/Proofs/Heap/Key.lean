import SmallCpp.Proofs.Heap.CustodyCall

/-!
# Keys

A value that can be a key is no container, so a conversion that gives one neither looks at the heap
nor changes it.  Reading by subscript converts the subscript to the key type, and finds the value
under the key or stores a default there. -/

namespace SmallCpp

variable {h k g : Heap} {loc : Nat} {key v w index : Value}

/-! ### Conversions to keys -/

/-- A copy that can be a key is the value itself, whatever the heap and the room are. -/
theorem copyWithin_of_hashable {room : Nat} (hrun : copyWithin room v h = .ok w k)
    (hkey : unhashable? w = none) : w = v ∧ k = h ∧ ∀ room g, copyWithin room v g = .ok v g := by
  cases v with
  | vector loc =>
    rw [copyWithin_eq] at hrun
    obtain ⟨-, hrun⟩ := descend_eq_ok hrun
    obtain ⟨a, k₁, -, hrun⟩ := bind_eq_ok hrun
    obtain ⟨items, k₂, -, hrun⟩ := bind_eq_ok hrun
    cases hrun
    cases hkey
  | map loc =>
    rw [copyWithin_eq] at hrun
    obtain ⟨-, hrun⟩ := descend_eq_ok hrun
    obtain ⟨a, k₁, -, hrun⟩ := bind_eq_ok hrun
    obtain ⟨entries, k₂, -, hrun⟩ := bind_eq_ok hrun
    cases hrun
    cases hkey
  | pair loc =>
    rw [copyWithin_eq] at hrun
    obtain ⟨-, hrun⟩ := descend_eq_ok hrun
    obtain ⟨a, k₁, -, hrun⟩ := bind_eq_ok hrun
    obtain ⟨first, k₂, -, hrun⟩ := bind_eq_ok hrun
    obtain ⟨second, k₃, -, hrun⟩ := bind_eq_ok hrun
    cases hrun
    cases hkey
  | _ =>
    rw [copyWithin_eq] at hrun
    cases hrun
    exact ⟨rfl, rfl, fun room g => by rw [copyWithin_eq]; rfl⟩

/-- A value that is converted to a container can be no key. -/
theorem unhashable?_of_coerceWithin {t : TypeExpr} {room : Nat} (hp : t.isPointer = false)
    (hb : t.base.isContainer = true) (hrun : coerceWithin room t v h = .ok w k) :
    unhashable? w ≠ none := by
  rw [coerceWithin_eq, if_neg (Bool.eq_false_iff.mp hp)] at hrun
  cases hbase : t.base with
  | vector =>
    rw [hbase] at hrun
    cases v with
    | list items =>
      obtain ⟨-, hrun⟩ := descend_eq_ok hrun
      obtain ⟨vs, g, -, hrun⟩ := bind_eq_ok hrun
      cases hrun
      exact nofun
    | vector loc => exact fun hkey => nomatch (copyWithin_of_hashable hrun hkey).1 ▸ hkey
    | _ => cases hrun
  | map =>
    rw [hbase] at hrun
    cases v with
    | list items =>
      obtain ⟨-, hrun⟩ := descend_eq_ok hrun
      obtain ⟨entries, g, -, hrun⟩ := bind_eq_ok hrun
      cases hrun
      exact nofun
    | map loc => exact fun hkey => nomatch (copyWithin_of_hashable hrun hkey).1 ▸ hkey
    | _ => cases hrun
  | pair =>
    rw [hbase] at hrun
    obtain ⟨-, hrun⟩ := descend_eq_ok hrun
    obtain ⟨parts, g, -, hrun⟩ := bind_eq_ok hrun
    obtain ⟨first, g₁, -, hrun⟩ := bind_eq_ok hrun
    obtain ⟨second, g₂, -, hrun⟩ := bind_eq_ok hrun
    cases hrun
    exact nofun
  | _ =>
    rw [hbase] at hb
    cases hb

theorem Number.compare?_self {x : Float} (hx : x.isNaN = false) :
    (Number.real x).compare? (.real x) = some .eq := by
  have hself : x.toModel.unpack.compare x.toModel.unpack = some .eq := by
    have hx : x.toModel.unpack.isNaN = false := hx
    revert hx
    cases x.toModel.unpack with
    | notANumber => exact nofun
    | infinity s => cases s <;> exact fun _ => rfl
    | zero => exact fun _ => rfl
    | finite s mantissa exponent =>
      have hsame : (compare exponent exponent).then (compare mantissa mantissa) = .eq := by simp
      cases s with
      | negative => exact fun _ => congrArg (fun o : Ordering => some o.swap) hsame
      | positive => exact fun _ => congrArg some hsame
  have hlt : ¬x < x := by
    intro hlt
    have hlt : (x.toModel.unpack.compare x.toModel.unpack == some .lt) = true :=
      of_decide_eq_true hlt
    rw [hself] at hlt
    cases hlt
  have heq : (x == x) = true := by
    show (x.toModel.unpack.compare x.toModel.unpack == some .eq) = true
    rw [hself]
    rfl
  rw [Number.compare?, if_neg hlt, if_pos heq]

theorem sameKey_self (hkey : unhashable? key = none) : sameKey key key = true := by
  cases key with
  | null | int | nan | text | iterator | entry | mapEnd => simp [sameKey, identical, samePlain]
  | bool b => cases b <;> rfl
  | char c => simp [sameKey, samePlain, Value.asText?]
  | real x =>
    cases hx : x.isNaN with
    | true => rw [sameKey, identical, hx]; rfl
    | false => simp [sameKey, samePlain, Value.asText?, Value.number?, Number.compare?_self hx]
  | list | vector | map | pair => cases hkey

/-- A conversion that gives a key looks neither at the heap nor at the room. -/
theorem coerceToWithin_of_hashable {t : Option TypeExpr} {room : Nat}
    (hrun : coerceToWithin room t v h = .ok key k) (hkey : unhashable? key = none) :
    k = h ∧ ∀ room g, coerceToWithin room t v g = .ok key g := by
  have hcopy : ∀ {v : Value}, copyWithin room v h = .ok key k →
      k = h ∧ ∀ room g, copyWithin room v g = .ok key g := by
    intro v hrun
    obtain ⟨rfl, hk, hagain⟩ := copyWithin_of_hashable hrun hkey
    exact ⟨hk, hagain⟩
  have hans : ∀ {op : HeapM Value}, Answers (fun _ => True) op → op h = .ok key k →
      k = h ∧ ∀ (_ : Nat) g, op g = .ok key g := fun hop hrun =>
      (hop.again hrun).imp_right fun h _ => h
  cases t with
  | none => exact hcopy hrun
  | some t =>
    simp only [coerceToWithin] at hrun ⊢
    cases hp : t.isPointer with
    | true =>
      simp only [coerceWithin_of_pointer hp] at hrun ⊢
      exact hcopy hrun
    | false =>
      cases hb : t.base.isContainer with
      | true =>
        -- a container is no key
        exact absurd hkey (unhashable?_of_coerceWithin hp hb hrun)
      | false =>
        simp only [coerceWithin_of_scalar hp hb] at hrun ⊢
        cases hw : unwrap? v with
        | none =>
          rw [hw] at hrun
          cases hrun
        | some w =>
          rw [hw] at hrun
          show k = h ∧ ∀ room g, toScalar (copyWithin room) t.base w g = .ok key g
          cases hbase : t.base with
          | int =>
            rw [hbase] at hrun
            exact hans (answers_toInteger (fun _ => trivial) w) hrun
          | float | double =>
            rw [hbase] at hrun
            exact hans (answers_toReal (fun _ => trivial) _ fun _ _ => trivial) hrun
          | char =>
            rw [hbase] at hrun
            exact hans (answers_toCharacter (fun _ => trivial) w) hrun
          | bool =>
            rw [hbase] at hrun
            exact hans ((Oblivious.orFail _).bind fun _ _ => .value trivial) hrun
          | string =>
            rw [hbase] at hrun
            exact hans (answers_toText (fun _ => trivial) w) hrun
          | _ =>
            rw [hbase] at hrun
            exact hcopy hrun

/-- A conversion that gives a key does not look at the heap. -/
theorem coerceTo_of_hashable {t : Option TypeExpr} (hrun : coerceTo t v h = .ok key k)
    (hkey : unhashable? key = none) : k = h ∧ ∀ g, coerceTo t v g = .ok key g :=
  (coerceToWithin_of_hashable hrun hkey).imp_right fun hagain g => hagain g.room g

/-! ### Elements -/

theorem lookupKey_append (key : Value) (entries added : List (Value × Value)) :
    lookupKey key (entries ++ added) = (lookupKey key entries).or (lookupKey key added) := by
  rw [lookupKey, lookupKey, lookupKey, List.find?_append, Option.map_or]

theorem mapKey_eq_ok (hrun : mapKey loc v h = .ok key k) :
    coerceTo (h.mapAt loc).1 v h = .ok key k ∧ unhashable? key = none := by
  have hrun : (coerceTo (h.mapAt loc).1 v >>= fun key => checkKey key >>= fun _ => pure key) h =
      .ok key k := hrun
  obtain ⟨key', k₁, hcoerce, hrun⟩ := bind_eq_ok hrun
  obtain ⟨_, k₂, hchk, hrun⟩ := bind_eq_ok hrun
  cases hrun
  cases hkey : unhashable? key with
  | none =>
    rw [checkKey, hkey] at hchk
    cases hchk
    exact ⟨hcoerce, rfl⟩
  | some kind =>
    rw [checkKey, hkey] at hchk
    cases hchk

/-- A read by subscript finds the converted subscript, or stores a default under it. -/
theorem mapGet_cases (hrun : mapGet loc index h = .ok v k) :
    ∃ key, unhashable? key = none ∧ (∀ g, coerceTo (h.mapAt loc).1 index g = .ok key g) ∧
      (lookupKey key (h.mapAt loc).2.2 = some v ∧ k = h ∨
        lookupKey key (h.mapAt loc).2.2 = none ∧ ∃ h', defaultValue (h.mapAt loc).2.1 h = .ok v h' ∧
          k = h'.updateMap loc (storeEntry key v)) := by
  obtain ⟨key, h₁, hkeyrun, hfound⟩ := bind_eq_ok hrun
  obtain ⟨hcoerce, hkey⟩ := mapKey_eq_ok hkeyrun
  obtain ⟨rfl, hcoerce⟩ := coerceTo_of_hashable hcoerce hkey
  refine ⟨key, hkey, hcoerce, ?_⟩
  obtain ⟨found, h₂, hfind, hrest⟩ := bind_eq_ok hfound
  obtain ⟨rfl, rfl⟩ : found = lookupKey key (h₁.mapAt loc).2.2 ∧ h₂ = h₁ := by
    cases hfind
    exact ⟨rfl, rfl⟩
  cases hlookup : lookupKey key (h₂.mapAt loc).2.2 with
  | some w =>
    rw [hlookup] at hrest
    cases hrest
    exact Or.inl ⟨rfl, rfl⟩
  | none =>
    rw [hlookup] at hrest
    obtain ⟨map, h₃, hmap, hrest⟩ := bind_eq_ok hrest
    obtain ⟨rfl, rfl⟩ : map = h₂.mapAt loc ∧ h₃ = h₂ := by
      cases hmap
      exact ⟨rfl, rfl⟩
    obtain ⟨w, h₄, hdef, hrest⟩ := bind_eq_ok hrest
    cases hrest
    exact Or.inr ⟨rfl, h₄, hdef, rfl⟩

theorem mapKey_of_coerceTo (hkey : unhashable? key = none)
    (hcoerce : coerceTo (g.mapAt loc).1 index g = .ok key g) : mapKey loc index g = .ok key g := by
  show (coerceTo (g.mapAt loc).1 index >>= fun key => checkKey key >>= fun _ => pure key) g =
    .ok key g
  rw [bind_of_ok hcoerce, checkKey, hkey]
  rfl

/-- A map that holds the converted subscript is left as it is. -/
theorem mapGet_of_lookupKey (hkey : unhashable? key = none)
    (hcoerce : coerceTo (g.mapAt loc).1 index g = .ok key g)
    (hv : lookupKey key (g.mapAt loc).2.2 = some v) : mapGet loc index g = .ok v g := by
  have hfind : mapFind? loc key g = .ok (some v) g := by
    rw [← hv]
    rfl
  rw [mapGet, bind_of_ok (mapKey_of_coerceTo hkey hcoerce), bind_of_ok hfind]
  rfl

theorem entryValue_eq_ok (hrun : entryValue loc key h = .ok v k) :
    lookupKey key (h.mapAt loc).2.2 = some v ∧ k = h := by
  rw [entryValue_eq] at hrun
  cases hfound : lookupKey key (h.mapAt loc).2.2 with
  | some w =>
    rw [hfound] at hrun
    cases hrun
    exact ⟨rfl, rfl⟩
  | none =>
    rw [hfound] at hrun
    obtain ⟨e, he⟩ := ReadOnly.missingKey_eq_error (α := Value) key h
    cases he.symm.trans hrun

/-- What is read from a vector is the item at the number of the index. -/
theorem vectorGet_eq_ok : vectorGet loc index h = .ok v k ↔
    k = h ∧ ∃ i : Nat, asIndex index h = .ok (i : Int) h ∧ (h.vectorAt loc).2[i]? = some v := by
  constructor
  · intro hrun
    obtain ⟨i, h₁, hchk, hitem⟩ := bind_eq_ok hrun
    obtain rfl := (ReadOnly.checkIndex _ loc index).ok hchk
    obtain ⟨hlt, hidx⟩ := checkIndex_eq_ok hchk
    cases hitem
    exact ⟨rfl, i, hidx, by rw [Array.getD_eq_getD_getElem?, Array.getElem?_eq_getElem hlt]; rfl⟩
  · rintro ⟨rfl, i, hidx, hv⟩
    obtain ⟨hlt, -⟩ := Array.getElem?_eq_some_iff.mp hv
    have hchk : checkIndex "vector[]" loc index k = .ok i k := by
      rw [checkIndex, bind_of_ok hidx]
      show (if 0 ≤ (i : Int) && (i : Int) < (k.vectorAt loc).2.size then pure i else _ : HeapM
        Nat) k = _
      rw [if_pos (by simp [hlt])]
      rfl
    rw [vectorGet, bind_of_ok hchk]
    show EStateM.Result.ok ((k.vectorAt loc).2.getD i .null) k = _
    rw [Array.getD_eq_getD_getElem?, hv]
    rfl

end SmallCpp
