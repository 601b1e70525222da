import SmallCpp.Proofs.Heap.Adds
import SmallCpp.Proofs.Machine.Characters

/-!
# Reading what was written

A value that is assigned to a location is read there afterwards, converted to the type of the
location, and nothing else has changed: one variable, element, field or entry of a map has another
value, or a map has one entry more.  A character is written by storing its text anew, at the
location of the text, which may be any other location; only the character at the index differs then.

## Main results

* `written_value_read` — **an assigned value is read back, and everything else is as it was.**
-/

namespace SmallCpp

variable {C : Custody} {s t u : State} {p : Place} {v w x key : Value} {loc : Nat} {h k : Heap}
  {i j : Int} {entries : List (Value × Value)} {y z : CodeText} {τ : Option TypeExpr} {α : Type}

/-! ### Entries and texts -/

/-- A value is stored in the first entry with the key, or in a new entry behind the others. -/
theorem storeEntry_cases (key w : Value) (entries : List (Value × Value)) :
    (∃ before k old after, entries = before ++ (k, old) :: after ∧ lookupKey key before = none ∧
      sameKey k key = true ∧ storeEntry key w entries = before ++ (k, w) :: after) ∨
    lookupKey key entries = none ∧ storeEntry key w entries = entries ++ [(key, w)] := by
  induction entries with
  | nil => exact .inr ⟨rfl, rfl⟩
  | cons e entries ih =>
    obtain ⟨k, old⟩ := e
    cases hk : sameKey k key with
    | true => exact .inl ⟨[], k, old, entries, rfl, rfl, hk, by rw [storeEntry, if_pos hk]; rfl⟩
    | false =>
      have hskip : ∀ es, lookupKey key ((k, old) :: es) = lookupKey key es := by
        simp [lookupKey, hk]
      rw [storeEntry, if_neg (by simp [hk]), hskip]
      rcases ih with ⟨before, k', old', after, rfl, hbefore, hk', hstore⟩ | ⟨habs, hstore⟩
      · exact .inl ⟨(k, old) :: before, k', old', after, rfl, (hskip _).trans hbefore, hk', by
          rw [hstore]; rfl⟩
      · exact .inr ⟨habs, by rw [hstore]; rfl⟩

theorem storeEntry_storeEntry (hkey : unhashable? key = none) :
    storeEntry key w (storeEntry key v entries) = storeEntry key w entries := by
  induction entries with
  | nil => rw [storeEntry, storeEntry, storeEntry, if_pos (sameKey_self hkey)]
  | cons e entries ih =>
    rw [storeEntry, storeEntry]
    split
    · next hk => rw [storeEntry, if_pos hk]
    · next hk => rw [storeEntry, if_neg hk, ih]

theorem lookupKey_entry {before after : List (Value × Value)} {k : Value}
    (hbefore : lookupKey key before = none)
    (hk : sameKey k key = true) : lookupKey key (before ++ (k, w) :: after) = some w := by
  rw [lookupKey_append, hbefore, Option.none_or, lookupKey, List.find?_cons, hk]
  rfl

/-- A text is the default of a type without new containers. -/
theorem eq_of_defaultValue (hrun : defaultValue τ h = .ok v k) (hv : v.asText? ≠ none) : k = h := by
  cases τ with
  | none => cases hrun; rfl
  | some τ =>
    rw [defaultValue, defaultOf_eq] at hrun
    split at hrun
    · cases hrun
      rfl
    · cases hbase : τ.base with
      | vector | map =>
        rw [hbase] at hrun
        cases hrun
        exact absurd rfl hv
      | pair =>
        rw [hbase] at hrun
        obtain ⟨a, h₁, -, hrun⟩ := bind_eq_ok hrun
        obtain ⟨b, h₂, -, hrun⟩ := bind_eq_ok hrun
        cases hrun
        exact absurd rfl hv
      | _ =>
        rw [hbase] at hrun
        cases hrun
        rfl

theorem withCharacter_eq_ok (hx : x.asText? = some y) (hrun : withCharacter v i x h = .ok w k) :
    k = h ∧ ∃ z, v.asText? = some z ∧ (0 ≤ i ∧ i < z.length) ∧
      w = .text (z.take i.toNat ++ y ++ z.drop (i.toNat + 1)) := by
  obtain ⟨n, h₁, hchk, hnew⟩ := bind_eq_ok hrun
  obtain rfl := (ReadOnly.checkCharacter v i).ok hchk
  cases hv : v.asText? with
  | some z =>
    have hjoin : ∀ a, plainSum (.text a) x = pure (.text (a ++ y)) := by
      intro a
      cases x with
      | char | text => cases hx; rfl
      | _ => cases hx
    have hchecked : (if 0 ≤ i && i < z.length then pure i.toNat
        else fail (.indexOutOfRange "string[]" i "string" z.length) : HeapM Nat) h₁ = .ok n h₁ ∧
        (plainSum (.text (z.take n)) x >>= fun a => plainSum a (.text (z.drop (n + 1)))) h₁ =
        .ok w k := by
      cases v with
      | char | text => cases hv; exact ⟨hchk, hnew⟩
      | _ => cases hv
    obtain ⟨hrange, hnew⟩ := hchecked
    split at hrange
    · next hin =>
      cases hrange
      rw [hjoin] at hnew
      cases hnew
      simp only [Bool.and_eq_true, decide_eq_true_eq] at hin
      exact ⟨rfl, z, rfl, hin, rfl⟩
    · cases hrange
  | none =>
    cases v with
    | list items =>
      -- nothing is joined with the entries of a list
      cases x with
      | char | text => cases hnew
      | _ => cases hx
    | char | text => cases hv
    | _ => cases hnew

theorem ReadOnly.characterAt (v : Value) (i : Int) : ReadOnly (characterAt v i) := by
  refine (checkCharacter v i).bind fun n => ?_
  split
  · exact (plainText _).bind fun _ => pure _
  · split
    · exact pure _
    · exact failOperands _

/-! ### Reading twice -/

theorem onHeap_of_ok {op : HeapM α} {a : α} (hrun : op s.heap = .ok a k) :
    onHeap op s = .ok a { s with heap := k } := by
  rw [onHeap]
  dsimp only
  rw [hrun]

theorem eq_of_readOnly {op : HeapM α} {a : α} (hop : ReadOnly op) (hrun : onHeap op s = .ok a t) :
    t = s := by
  obtain ⟨k, hk, rfl⟩ := onHeap_eq_ok hrun
  rw [hop.ok hk]

/-- Only by subscript is something added to a map when it is read. -/
theorem eq_of_readPlace (hslot : p.slot? = none) (hread : readPlace p s = .ok v t) : t = s := by
  induction p generalizing v t with
  | «variable» => cases hread; rfl
  | vectorSlot =>
    obtain ⟨k, hk, rfl⟩ := onHeap_eq_ok hread
    rw [(vectorGet_eq_ok.mp hk).1]
  | pairField loc field => exact eq_of_readOnly ((ReadOnly.getPair loc).bind fun _ => .pure _) hread
  | entryField loc key field =>
    obtain ⟨k, hk, rfl⟩ := onHeap_eq_ok hread
    cases field with
    | first => cases hk; rfl
    | second => rw [(entryValue_eq_ok hk).2]
  | mapSlot => cases hslot
  | character text n ih =>
    obtain ⟨w, t₁, hw, hrun⟩ := bind_eq_ok hread
    rw [eq_of_readOnly (.characterAt w n) hrun, ih hslot hw]

/-- **A location that was read is read again without a change.** -/
theorem readPlace_again (hp : C.Site s p) (hread : readPlace p s = .ok v t) :
    readPlace p t = .ok v t := by
  induction p generalizing v t with
  | mapSlot loc index =>
    obtain ⟨k, hk, rfl⟩ := onHeap_eq_ok hread
    obtain ⟨⟨-, κ, τ, hshape⟩, -⟩ := hp
    obtain ⟨key, entries, hkey, hcoerce, ho, hv⟩ := held_of_mapGet hshape hk
    refine onHeap_of_ok (mapGet_of_lookupKey hkey ?_ ?_)
    · rw [Heap.mapAt, ho]
      exact hcoerce k
    · rw [Heap.mapAt, ho]
      exact hv
  | character text n ih =>
    obtain ⟨w, t₁, hw, hrun⟩ := bind_eq_ok hread
    obtain rfl := eq_of_readOnly (.characterAt w n) hrun
    exact (bind_of_ok (ih hp hw)).trans hrun
  | «variable» | vectorSlot | pairField | entryField =>
    obtain rfl := eq_of_readPlace rfl hread
    exact hread

/-! ### Writing a location that is no character -/

/-- The location is the value of the entry that a map has, or may get, under the key. -/
def Place.IsEntry (h : Heap) (loc : Nat) (key : Value) : Place → Prop
  | mapSlot map index => map = loc ∧ mapKey loc index h = .ok key h
  | entryField map k field => map = loc ∧ k = key ∧ field = .second
  | _ => False

/-- The state with another container at a place. -/
def State.withObject (s : State) (loc : Nat) (o : Object) : State :=
  { s with heap := { s.heap with objects := s.heap.objects.setIfInBounds loc o } }

/-- The second state is the first one with another value at the location, which is no character. -/
inductive Stored (w : Value) (s : State) : Place → State → Prop
  | cell {n : Nat} {c : Cell} (hc : s.cells[n]? = some c) :
      Stored w s (.variable n) { s with cells := s.cells.setIfInBounds n { c with value := w } }
  | element {loc n : Nat} {index : Value} {τ : Option TypeExpr} {items : Array Value}
      (ho : s.heap.objects[loc]? = some (.vector τ items))
      (hidx : asIndex index s.heap = .ok (n : Int) s.heap) (hn : n < items.size) :
      Stored w s (.vectorSlot loc index) (s.withObject loc (.vector τ (items.setIfInBounds n w)))
  | first {loc : Nat} {a b : Value} {σ τ : Option TypeExpr}
    (ho : s.heap.objects[loc]? = some (.pair a b σ τ)) :
      Stored w s (.pairField loc .first) (s.withObject loc (.pair w b σ τ))
  | second {loc : Nat} {a b : Value} {σ τ : Option TypeExpr}
    (ho : s.heap.objects[loc]? = some (.pair a b σ τ)) :
      Stored w s (.pairField loc .second) (s.withObject loc (.pair a w σ τ))
  /-- The entry keeps its key, which may be another key of the same meaning. -/
  | entry {p : Place} {loc : Nat} {key k old : Value} {κ τ : Option TypeExpr}
    {before after : List (Value × Value)}
      (ho : s.heap.objects[loc]? = some (.map κ τ (before ++ (k, old) :: after)))
      (hp : p.IsEntry s.heap loc key) (hbefore : lookupKey key before = none)
      (hk : sameKey k key = true) :
      Stored w s p (s.withObject loc (.map κ τ (before ++ (k, w) :: after)))
  | newEntry {p : Place} {loc : Nat} {key : Value} {κ τ : Option TypeExpr}
    {entries : List (Value × Value)}
      (ho : s.heap.objects[loc]? = some (.map κ τ entries)) (hp : p.IsEntry s.heap loc key)
      (hkey : unhashable? key = none) (habs : lookupKey key entries = none) :
      Stored w s p (s.withObject loc (.map κ τ (entries ++ [(key, w)])))

theorem modify_of_getElem? {a : Array α} {n : Nat} {x : α} (hx : a[n]? = some x) (f : α → α) :
    a.modify n f = a.setIfInBounds n (f x) := by
  refine Array.ext_getElem? fun m => ?_
  rw [Array.getElem?_modify, Array.getElem?_setIfInBounds]
  split
  · next h =>
    subst h
    rw [hx, if_pos (Array.getElem?_eq_some_iff.mp hx).1]
    rfl
  · rfl

/-- A value under a key is stored in the same way through both kinds of locations. -/
theorem stored_entry (hp : p.IsEntry s.heap loc key) (hkey : unhashable? key = none)
    (hmap : s.heap.Backs (.map loc)) :
    Stored w s p { s with heap := s.heap.updateMap loc (storeEntry key w) } := by
  obtain ⟨κ, τ, hshape⟩ := hmap
  obtain ⟨entries, ho, -⟩ := Heap.map_of_shape hshape
  rw [Heap.updateMap, modify_of_getElem? ho]
  dsimp only
  rcases storeEntry_cases key w entries with ⟨before, k, old, after, rfl, hbefore, hk, hstore⟩
    | ⟨habs, hstore⟩
  · rw [hstore]
    exact .entry ho hp hbefore hk
  · rw [hstore]
    exact .newEntry ho hp hkey habs

/-- **What a write does.** -/
theorem stored_of_write (hp : C.Site s p) (hroot : p.isCharacter = false)
    (hrun : writePlace p w s = .ok () u) :
    Stored w s p u := by
  cases p with
  | «variable» n =>
    have hc := Array.getElem?_eq_getElem hp.2
    cases hrun
    dsimp only
    rw [modify_of_getElem? hc]
    exact .cell hc
  | vectorSlot loc index =>
    obtain ⟨k, hk, rfl⟩ := onHeap_eq_ok hrun
    obtain ⟨n, h₁, hchk, hset⟩ := bind_eq_ok hk
    obtain rfl := (ReadOnly.checkIndex _ loc index).ok hchk
    obtain ⟨hlt, hidx⟩ := checkIndex_eq_ok hchk
    cases hset
    obtain ⟨-, τ, hshape⟩ := hp
    obtain ⟨o, ho, hσ⟩ := Option.map_eq_some_iff.mp hshape
    cases o with
    | vector τ' items =>
      rw [Heap.vectorAt, ho] at hlt
      dsimp only [Heap.updateVector]
      rw [modify_of_getElem? ho]
      exact .element ho hidx hlt
    | map | pair => cases hσ
  | pairField loc field =>
    obtain ⟨-, σ, τ, hshape⟩ := hp
    obtain ⟨o, ho, hσ⟩ := Option.map_eq_some_iff.mp hshape
    cases o with
    | pair a b σ' τ' =>
      cases field with
      | first =>
        cases hrun
        dsimp only [Heap.updatePair]
        rw [modify_of_getElem? ho]
        exact .first ho
      | second =>
        cases hrun
        dsimp only [Heap.updatePair]
        rw [modify_of_getElem? ho]
        exact .second ho
    | vector | map => cases hσ
  | mapSlot loc index =>
    obtain ⟨k, hk, rfl⟩ := onHeap_eq_ok hrun
    obtain ⟨key, h₁, hkeyrun, hstore⟩ := bind_eq_ok hk
    -- a key is no container, so its conversion makes nothing
    obtain ⟨hcoerce, hkey⟩ := mapKey_eq_ok hkeyrun
    obtain ⟨rfl, -⟩ := coerceTo_of_hashable hcoerce hkey
    cases hstore
    exact stored_entry ⟨rfl, hkeyrun⟩ hkey hp.1.2
  | entryField loc key field =>
    cases field with
    | first => cases hrun
    | second =>
      cases hrun
      exact stored_entry ⟨rfl, rfl, rfl⟩ hp.2.2.1 hp.1.2
  | character => cases hroot

theorem State.getElem?_withObject {o o' : Object} (ho : s.heap.objects[loc]? = some o) :
    (s.withObject loc o').heap.objects[loc]? = some o' :=
  Array.getElem?_setIfInBounds_self_of_lt (Array.getElem?_eq_some_iff.mp ho).1

/-- The key that was converted for a write is found, as the conversion does not look at the heap. -/
theorem read_entry {κ : Option TypeExpr} {others : List (Value × Value)}
    (ho : s.heap.objects[loc]? = some (.map κ τ others)) (hp : p.IsEntry s.heap loc key)
    (hw : lookupKey key entries = some w) :
    readPlace p (s.withObject loc (.map κ τ entries)) =
    .ok w (s.withObject loc (.map κ τ entries)) := by
  have hmap : (s.withObject loc (.map κ τ entries)).heap.objects[loc]? = some (.map κ τ entries) :=
    State.getElem?_withObject ho
  cases p with
  | mapSlot map index =>
    obtain ⟨rfl, hkeyrun⟩ := hp
    obtain ⟨hcoerce, hkey⟩ := mapKey_eq_ok hkeyrun
    obtain ⟨-, hagain⟩ := coerceTo_of_hashable hcoerce hkey
    rw [Heap.mapAt, ho] at hagain
    refine onHeap_of_ok (mapGet_of_lookupKey hkey ?_ ?_)
    · rw [Heap.mapAt, hmap]
      exact hagain _
    · rw [Heap.mapAt, hmap]
      exact hw
  | entryField map k field =>
    obtain ⟨rfl, rfl, rfl⟩ := hp
    refine onHeap_of_ok ?_
    rw [entryFieldValue, entryValue, bind_of_ok (getMap_of_object hmap)]
    dsimp only
    rw [hw]
    rfl
  | _ => exact hp.elim

/-- **What is read afterwards.** -/
theorem read_of_stored (hstored : Stored w s p u) : readPlace p u = .ok w u := by
  cases hstored with
  | cell hc =>
    show EStateM.Result.ok _ _ = _
    dsimp only
    rw [Array.getElem?_setIfInBounds_self_of_lt (Array.getElem?_eq_some_iff.mp hc).1]
    rfl
  | element ho hidx hn =>
    refine onHeap_of_ok (vectorGet_eq_ok.mpr ⟨rfl, _, ((Oblivious.asIndex _).again hidx).2 _, ?_⟩)
    rw [Heap.vectorAt, State.getElem?_withObject ho]
    exact Array.getElem?_setIfInBounds_self_of_lt hn
  | first ho | second ho =>
    refine onHeap_of_ok ?_
    rw [pairFieldValue, bind_of_ok (getPair_of_object (State.getElem?_withObject ho))]
    rfl
  | entry ho hp hbefore hk => exact read_entry ho hp (lookupKey_entry hbefore hk)
  | newEntry ho hp hkey habs => exact read_entry ho hp (lookupKey_entry habs (sameKey_self hkey))

/-! ### Writing a character -/

namespace Place

/-- The location of the text that a character belongs to; any other location is its own. -/
def root : Place → Place
  | character text _ => text.root
  | p => p

/-- The index of a character in the text; a character of a character is the character itself. -/
def offset? : Place → Option Int
  | character text i => some (text.offset?.getD i)
  | _ => none

theorem root_of_offset? (hp : p.offset? = none) : p.root = p ∧ p.isCharacter = false := by
  cases p with
  | character => cases hp
  | _ => exact ⟨rfl, rfl⟩

theorem isCharacter_root (p : Place) : p.root.isCharacter = false := by
  induction p with
  | character text i ih => exact ih
  | _ => rfl

end Place

theorem Custody.Site.root (hp : C.Site s p) : C.Site s p.root := by
  induction p with
  | character text i ih => exact ih hp
  | _ => exact hp

theorem readPlace_root (hread : readPlace p s = .ok v t) : ∃ w, readPlace p.root s = .ok w t := by
  induction p generalizing v with
  | character text n ih =>
    obtain ⟨w, t₁, hw, hrun⟩ := bind_eq_ok hread
    obtain rfl := eq_of_readOnly (.characterAt w n) hrun
    exact ih hw
  | _ => exact ⟨v, hread⟩

theorem Heap.updateMap_updateMap (h : Heap) (loc : Nat)
    (f g : List (Value × Value) → List (Value × Value)) :
    (h.updateMap loc f).updateMap loc g = h.updateMap loc fun entries => g (f entries) := by
  rw [updateMap, updateMap, updateMap]
  congr 1
  refine Array.ext_getElem? fun n => ?_
  dsimp only
  rw [Array.getElem?_modify, Array.getElem?_modify, Array.getElem?_modify]
  split
  · rw [Option.map_map]
    congr 1
    funext o
    cases o <;> rfl
  · rfl

theorem Heap.mapAt_updateMap (h : Heap) (loc : Nat)
    (f : List (Value × Value) → List (Value × Value)) :
    ((h.updateMap loc f).mapAt loc).1 = (h.mapAt loc).1 := by
  rw [mapAt, mapAt, updateMap, Array.getElem?_modify, if_pos rfl]
  cases h.objects[loc]? with
  | none => rfl
  | some o => cases o <;> rfl

/-- A text that was read may be replaced as if it had not been: also if it is the default of a new
entry. -/
theorem write_of_read (hroot : p.isCharacter = false) (hread : readPlace p s = .ok v t)
    (hv : v.asText? ≠ none) (hrun : writePlace p w t = .ok () u) : writePlace p w s = .ok () u := by
  cases p with
  | mapSlot loc index =>
    obtain ⟨k, hk, rfl⟩ := onHeap_eq_ok hread
    obtain ⟨key, hkey, hcoerce, ⟨-, rfl⟩ | ⟨-, h₁, hdef, rfl⟩⟩ := mapGet_cases hk
    · exact hrun
    · -- reading has stored the default under the key, and the write overwrites it
      obtain rfl := eq_of_defaultValue hdef hv
      have hset : ∀ g : Heap, (g.mapAt loc).1 = (s.heap.mapAt loc).1 →
          mapSet loc index w g = .ok () (g.updateMap loc (storeEntry key w)) := fun g hg =>
        bind_of_ok (mapKey_of_coerceTo hkey (by rw [hg]; exact hcoerce g))
      rw [writePlace, onHeap_of_ok (hset _ (s.heap.mapAt_updateMap loc _)),
        Heap.updateMap_updateMap] at hrun
      rw [writePlace, onHeap_of_ok (hset _ rfl), ← hrun]
      simp only [storeEntry_storeEntry hkey]
  | character => cases hroot
  | «variable» | vectorSlot | pairField | entryField =>
    obtain rfl := eq_of_readPlace rfl hread
    exact hrun

/-- A character is written by storing the text, with another text in its place. -/
theorem written_character (hs : C.Guarded s) (hp : C.Site s p) (hx : x.asText? = some y)
    (hj : p.offset? = some j) (hrun : writePlace p x s = .ok () u) :
    ∃ old t z, readPlace p.root s = .ok old t ∧ old.asText? = some z ∧ (0 ≤ j ∧ j < z.length) ∧
      writePlace p.root (.text (z.take j.toNat ++ y ++ z.drop (j.toNat + 1))) t = .ok () u ∧
      ∀ {t v z}, readPlace p.root t = .ok v t → v.asText? = some z → j < z.length →
        readPlace p t = .ok (.char [z.getD j.toNat 0]) t := by
  induction p generalizing s x y with
  | character text i ih =>
    have hp : C.Site s text := hp
    obtain ⟨old, s₁, hold, hrest⟩ := bind_eq_ok hrun
    obtain ⟨new, s₂, hnew, hwrite⟩ := bind_eq_ok hrest
    obtain ⟨k, hk, rfl⟩ := onHeap_eq_ok hnew
    obtain ⟨rfl, z, hz, hi, rfl⟩ := withCharacter_eq_ok hx hk
    have hone : ∀ {t v z}, readPlace text t = .ok v t → v.asText? = some z → 0 ≤ i → i < z.length →
        readPlace (.character text i) t = .ok (.char [z.getD i.toNat 0]) t := by
      intro t v z hv hz hpos hlt
      refine (bind_of_ok hv).trans (onHeap_of_ok ?_)
      rw [characterAt_of_text hz, if_pos (by simp [hpos, hlt])]
      rfl
    rw [Place.root]
    cases hoff : text.offset? with
    | none =>
      rw [Place.offset?, hoff] at hj
      obtain rfl : i = j := Option.some.inj hj
      rw [(Place.root_of_offset? hoff).1]
      exact ⟨old, s₁, z, hold, hz, hi, hwrite, fun hv hz hlt => hone hv hz hi.1 hlt⟩
    | some j' =>
      rw [Place.offset?, hoff] at hj
      obtain rfl : j' = j := Option.some.inj hj
      obtain ⟨hs₁, hst, -⟩ := (guards_readPlace hp).ok hs hold
      obtain ⟨old', t, z', hroot, hz', hrange, hwrite, hread⟩ :=
        ih hs₁ (hp.mono hst.later).1 rfl hoff hwrite
      -- the root holds a text, so the text is one character, and it is replaced as a whole
      obtain ⟨o, ho⟩ := readPlace_root hold
      have hagain := readPlace_again hp.root ho
      rw [hagain] at hroot
      cases hroot
      have hchar := hread hagain hz' hrange.2
      rw [readPlace_again hp hold] at hchar
      cases hchar
      cases hz
      obtain rfl : i = 0 := by simp at hi; omega
      refine ⟨_, _, z', ho, hz', hrange, by simpa using hwrite, fun hv hz hlt => ?_⟩
      exact hone (hread hv hz hlt) rfl (Int.le_refl 0) (by simp)
  | _ => cases hj

/-! ### Assignments -/

/-- The character of a text has one code point. -/
theorem isCodePoint_of_read (hroot : readPlace p.root s = .ok x s) (hx : x.isTextual)
    (hp : p.isCharacter = true)
    (hread : readPlace p s = .ok v t) : v.isCodePoint = true := by
  induction p generalizing v t with
  | character text i ih =>
    obtain ⟨w, s₁, hw, hat⟩ := bind_eq_ok hread
    obtain ⟨k, hv, rfl⟩ := onHeap_eq_ok hat
    have htext : w.isTextual := by
      cases hchar : text.isCharacter with
      | true =>
        have hone := ih hroot hchar hw
        cases w with
        | char => exact nofun
        | _ => cases hone
      | false =>
        have heq : text.root = text := by
          cases text with
          | character => cases hchar
          | _ => rfl
        have hw' : readPlace text s = .ok x s := by rwa [Place.root, heq] at hroot
        rw [hw] at hw'
        cases hw'
        exact hx
    obtain ⟨z, hz⟩ := Option.ne_none_iff_exists'.mp htext
    rw [characterAt_of_text hz] at hv
    obtain ⟨n, k', -, hv⟩ := bind_eq_ok hv
    cases hv
    rfl
  | _ => cases hp

/-- The second state is the first one with another value at the location.  For a character, which is
in a text at another location, it is the text there that has the character in the place of another
one. -/
def Written (w : Value) (s : State) (p : Place) (u : State) : Prop :=
  match p.offset? with
  | none => Stored w s p u
  | some j => ∃ x old t z, w = .char x ∧ readPlace p.root s = .ok old t ∧ old.asText? = some z ∧
      (0 ≤ j ∧ j < z.length) ∧ Stored (.text (z.take j.toNat ++ x ++ z.drop (j.toNat + 1)))
      s p.root u

theorem written_of_assign {r : Reference} (hs : C.Guarded s) (hr : C.Target s r)
    (hrun : r.assign v s = .ok () u) :
    ∃ w h, coerceTo r.type v s.heap = .ok w h ∧ Fresh s.heap h ∧
      (r.read u = .ok w u ↔ (r.place.isCharacter = true → w.isCodePoint = true)) ∧
      Written w { s with heap := h } r.place u := by
  obtain ⟨w, s₁, hw, hwrite⟩ := bind_eq_ok hrun
  obtain ⟨h, hcoerce, rfl⟩ := onHeap_eq_ok hw
  have hfresh : Fresh s.heap h := (adds_coerceTo r.type v).of_ok hcoerce
  refine ⟨w, h, hcoerce, hfresh, ?_⟩
  rw [Written]
  cases hoff : r.place.offset? with
  | none =>
    have hlater : Later s { s with heap := h } := ⟨hfresh.kept, fun hc => ⟨_, hc, rfl⟩⟩
    have hchar := (Place.root_of_offset? hoff).2
    have hstored := stored_of_write (hr.site.mono hlater).1 hchar hwrite
    exact ⟨iff_of_true (read_of_stored hstored) fun h => (nomatch hchar.symm.trans h), hstored⟩
  | some j =>
    have hchar : r.place.isCharacter = true := by
      cases hplace : r.place with
      | character => rfl
      | _ => rw [hplace] at hoff; cases hoff
    rw [hr.type_of_isCharacter hchar] at hcoerce
    have hans := answers_coerce_character (t := { base := .char }) rfl v
    obtain ⟨rfl, -⟩ := hans.again hcoerce
    obtain ⟨x, rfl⟩ : ∃ x, w = .char x := by
      cases w with
      | char x => exact ⟨x, rfl⟩
      | _ => cases (hans.of_ok hcoerce).1
    obtain ⟨old, t, z, hold, hz, hj, hroot, hread⟩ := written_character hs hr.site rfl hoff hwrite
    have hstored := stored_of_write hr.site.root r.place.isCharacter_root
      (write_of_read r.place.isCharacter_root hold (by rw [hz]; exact nofun) hroot)
    have htext := read_of_stored hstored
    refine ⟨⟨fun hback _ => isCodePoint_of_read htext nofun hchar hback, fun hone => ?_⟩,
      x, old, t, z, rfl, hold, hz, hj, hstored⟩
    -- with one code point in the place of another, the text keeps its length
    obtain ⟨c, rfl⟩ : ∃ c, x = [c] := by
      match x, hone hchar with
      | [c], _ => exact ⟨c, rfl⟩
    have hset : z.take j.toNat ++ [c] ++ z.drop (j.toNat + 1) = z.set j.toNat c := by
      rw [List.set_eq_take_append_cons_drop, if_pos (by omega), List.append_assoc]
      rfl
    rw [hset] at htext
    have hback := hread htext rfl (by rw [List.length_set]; exact hj.2)
    rw [List.getD_eq_getElem?_getD, List.getElem?_set_self (by omega)] at hback
    exact hback

/-- **An assigned value is read back, unless it is a character of a text and not one code point.**
Let an expression denote a location at some moment of a run, and let a value be assigned to the
location then or at any later moment.  If that succeeds, then the location is read as the value,
converted to its type; only where a character of a text was assigned to, and the converted value has
not exactly one code point, it is not.  Nothing else has changed: the conversion has made new
containers only, and then one variable, element, field or entry, or one character of the text there,
was replaced, or a map has got an entry with the key of the location. -/
theorem written_value_read {m : Machine} {input : List String} {a b : Moment} {level n : Nat}
    {e : Expr}
    {r : Reference} {t u : State} {v : Value}
    (ha : Visits m (fun _ => True) ⟨.start m.limits input, []⟩ a)
    (hr : refer m (invoke m (exec m level)) n e a.state = .ok r t)
    (hb : Visits m (fun _ => True) ⟨t, a.references⟩ b) (hrun : r.assign v b.state = .ok () u) :
    ∃ w h, coerceTo r.type v b.state.heap = .ok w h ∧ Fresh b.state.heap h ∧
      (r.read u = .ok w u ↔ (r.place.isCharacter = true → w.isCodePoint = true)) ∧
      Written w { b.state with heap := h } r.place u := by
  have he : e.Every (Custody.since 0 0).Permits := e.every_of_forall Custody.permits_since
  obtain ⟨ht, -, htgt⟩ := (guards_refer m.linked.permits_since level n he).ok ha.guarded_since hr
  obtain ⟨hs, hwithin⟩ := hb.guarded m.linked.permits_since (fun e _ => Custody.permits_since e) ht
    Custody.frees_since
  exact written_of_assign hs (htgt.later hwithin) hrun

/-- A variable `m` that holds a map from numbers to values of a type. -/
def mapState (limits : Limits) (τ : TypeExpr) (entries : List (Value × Value)) : State where
  heap := { (State.start limits []).heap with objects :=
    #[.map (some (.of .int [])) (some τ) entries] }
  cells := #[⟨.map 0, .of .map [.of .int [], τ]⟩]
  globals := [("m", ⟨.variable 0, some (.of .map [.of .int [], τ])⟩)]

theorem visits_mapState (m : Machine) (τ : TypeExpr) :
    Visits m (fun _ => True) ⟨.start m.limits [], []⟩ ⟨mapState m.limits τ [], []⟩ :=
  let d : Declarator := ⟨⟨1, 1⟩, .of .map [.of .int [], τ], "m", none, .single⟩
  .declared (.refl _) 5 0 (d.every_of_forall (fun _ => trivial) fun _ => trivial)
    (t := { mapState m.limits τ [] with globals := [] }) (r := ⟨.variable 0, some d.type⟩) rfl

/-- A number is assigned to the only character of a new entry of a map, which is a text afterwards.
If a character of two code points is assigned to it instead, it is not read back. -/
theorem written_value_read_entry :
    let pos : Position := ⟨1, 1⟩
    let m : Machine := ⟨{}, ⟨100, 10⟩⟩
    let number (n : Int) : Expr := .literal pos (.int n "")
    let e : Expr := .index pos (.index pos (.name pos "m") (number 5)) (number 0)
    let after (v : Value) : State := mapState m.limits (.of .char []) [(.int 5, v)]
    let r : Reference := ⟨.character (.mapSlot 0 (.int 5)) 0, some { base := .char }⟩
    refer m (invoke m (exec m 6)) 0 e (mapState m.limits (.of .char []) []) =
    .ok r (after (.char [0])) ∧
      r.assign (.int 98) (after (.char [0])) = .ok () (after (.text [98])) ∧
      r.read (after (.text [98])) = .ok (.char [98]) (after (.text [98])) ∧
      r.assign (.char [98, 99]) (after (.char [0])) = .ok () (after (.text [98, 99])) ∧
      r.read (after (.text [98, 99])) ≠ .ok (.char [98, 99]) (after (.text [98, 99])) := by
  intro pos m number e after r
  have hr : refer m (invoke m (exec m 6)) 0 e (mapState m.limits (.of .char []) []) =
      .ok r (after (.char [0])) :=
    rfl
  have hassign : r.assign (.int 98) (after (.char [0])) = .ok () (after (.text [98])) := rfl
  have hassign' : r.assign (.char [98, 99]) (after (.char [0])) =
      .ok () (after (.text [98, 99])) := by
    refine (bind_of_ok (a := Value.char [98, 99]) (t := after (.char [0])) ?_).trans ?_
    · rfl
    refine (bind_of_ok (a := Value.char [0]) (t := after (.char [0])) ?_).trans ?_
    · rfl
    refine (bind_of_ok (a := Value.text [98, 99]) (t := after (.char [0])) ?_).trans ?_
    · rfl
    · rfl
  obtain ⟨w, h, hcoerce, -, hread, -⟩ :=
    written_value_read (visits_mapState m _) hr (.refl _) hassign
  obtain ⟨w', h', hcoerce', -, hread', -⟩ :=
    written_value_read (visits_mapState m _) hr (.refl _) hassign'
  cases hcoerce
  cases hcoerce'
  exact ⟨hr, hassign, hread.mpr fun _ => rfl, hassign', fun h => nomatch hread'.mp h rfl⟩

end SmallCpp
