import SmallCpp.Proofs.Heap.Adds

/-!
# Maps as partial functions

A map whose keys are integers, characters, truth values or texts is a partial function from such
keys to values, together with the order in which its keys came in.  Every operation converts the key
that it is given to the key type first, so a truth value, a character and a number that convert to
one integer are one key.

## Main results

* `Tracks.refines` — **a map is a finite partial function on converted keys**, in order of
  insertion. -/

namespace SmallCpp

variable {κ : KeyKind} {t : TypeExpr}

/-! ### Keys -/

/-- The types of keys that are told apart by equality. -/
inductive KeyKind where
  | int
  | char
  | bool
  | string
deriving DecidableEq, Repr, Inhabited

namespace KeyKind

/-- The base of the types that name the kind. -/
def base : KeyKind → BaseType
  | int => .int
  | char => .char
  | bool => .bool
  | string => .string

/-- The type names the kind. -/
structure Names (κ : KeyKind) (t : TypeExpr) : Prop where
  base : t.base = κ.base
  plain : t.isPointer = false

/-- The keys of a kind. -/
def Key : KeyKind → Type
  | int => Int
  | bool => Bool
  | char | string => CodeText

instance : (κ : KeyKind) → DecidableEq κ.Key
  | int => inferInstanceAs (DecidableEq Int)
  | char => inferInstanceAs (DecidableEq CodeText)
  | bool => inferInstanceAs (DecidableEq Bool)
  | string => inferInstanceAs (DecidableEq CodeText)

def value : (κ : KeyKind) → κ.Key → Value
  | int, n => .int n
  | char, s => .char s
  | bool, b => .bool b
  | string, s => .text s

/-- The key that a value of the kind is. -/
def key : (κ : KeyKind) → Value → κ.Key
  | int, .int n => n
  | int, _ => (0 : Int)
  | char, .char s => s
  | char, _ => []
  | bool, .bool b => b
  | bool, _ => false
  | string, .text s => s
  | string, _ => []

def convert (κ : KeyKind) (t : TypeExpr) (v : Value) : HeapM κ.Key := do
  return κ.key (← coerce t v)

theorem unhashable?_value (κ : KeyKind) (k : κ.Key) : unhashable? (κ.value k) = none := by
  cases κ <;> rfl

theorem Names.admits_value (ht : κ.Names t) (k : κ.Key) : admits (some t) (κ.value k) = true := by
  rw [admits, ht.base, ht.plain]
  cases κ <;> rfl

theorem sameKey_value (a b : κ.Key) : sameKey (κ.value a) (κ.value b) = decide (a = b) := by
  cases κ with
  | int => exact beq_eq_decide a b
  | char => exact beq_eq_decide (α := CodeText) a b
  | bool =>
    revert a b
    show ∀ a b : Bool, sameKey (.bool a) (.bool b) = decide (a = b)
    decide
  | string => exact beq_eq_decide (α := CodeText) a b

/-- A conversion to the kind does not look at the heap, and gives a key of the kind or fails. -/
theorem Names.answers (ht : κ.Names t) (v : Value) :
    Answers (fun w => κ.value (κ.key w) = w) (coerce t v) := by
  have hbase : t.base.isContainer = false := by
    rw [ht.base]
    cases κ <;> rfl
  rw [coerce_of_scalar ht.plain hbase, ht.base]
  cases unwrap? v with
  | none => exact .failure _
  | some w =>
    cases κ with
    | int => exact answers_toInteger (fun _ => rfl) w
    | char => exact answers_toCharacter (fun _ => rfl) w
    | bool => exact (Oblivious.orFail _).bind fun _ _ => .value rfl
    | string => exact answers_toText (fun _ => rfl) w

end KeyKind

/-! ### Partial functions -/

/-- A partial function from the keys of a kind to values, with its keys in the order of their
insertion. -/
structure Table (κ : KeyKind) where
  order : List κ.Key
  value : κ.Key → Option Value
  nodup : order.Nodup
  mem_order : ∀ k, k ∈ order ↔ (value k).isSome

namespace Table

/-- The function that is nowhere defined. -/
def empty : Table κ where
  order := []
  value _ := none
  nodup := .nil
  mem_order := by simp

/-- The function with another value for a key; a key that was there keeps its place, and a new one
comes last. -/
def put (T : Table κ) (k : κ.Key) (v : Value) : Table κ where
  order := if (T.value k).isSome then T.order else T.order ++ [k]
  value k' := if k' = k then some v else T.value k'
  nodup := by
    have hnodup := T.nodup
    have hk := T.mem_order k
    split
    · exact hnodup
    · simp_all [List.nodup_append]
      grind
  mem_order k' := by
    have hk := T.mem_order k
    have hk' := T.mem_order k'
    split <;> by_cases hkk : k' = k <;> simp_all

def remove (T : Table κ) (k : κ.Key) : Table κ where
  order := T.order.filter (· ≠ k)
  value k' := if k' = k then none else T.value k'
  nodup := T.nodup.filter _
  mem_order k' := by
    have hk' := T.mem_order k'
    by_cases hkk : k' = k <;> simp_all

/-- The keys with their values, as a map holds them. -/
def entries (T : Table κ) : List (Value × Value) :=
  T.order.map fun k => (κ.value k, (T.value k).getD .null)

theorem pairwise_entries (T : Table κ) : T.entries.Pairwise fun d e => sameKey d.1 e.1 = false := by
  refine List.pairwise_map.mpr (T.nodup.imp fun {a b} hne => ?_)
  rw [KeyKind.sameKey_value, decide_eq_false hne]

section Entries

variable (f : κ.Key → Value) (k : κ.Key) (v : Value)

theorem lookupKey_map (ks : List κ.Key) :
    lookupKey (κ.value k) (ks.map fun k => (κ.value k, f k)) = if k ∈ ks then some (f k) else
    none := by
  induction ks with
  | nil => rfl
  | cons a ks ih =>
    rw [lookupKey] at ih ⊢
    rw [List.map_cons, List.find?_cons, KeyKind.sameKey_value]
    by_cases ha : a = k
    · simp [ha]
    · rw [decide_eq_false ha, ih]
      simp [Ne.symm ha]

theorem storeEntry_map {ks : List κ.Key} (hks : ks.Nodup) :
    storeEntry (κ.value k) v (ks.map fun k => (κ.value k, f k)) =
      (if k ∈ ks then ks else ks ++ [k]).map fun k' =>
      (κ.value k', if k' = k then v else f k') := by
  induction ks with
  | nil => simp [storeEntry]
  | cons a ks ih =>
    obtain ⟨hnot, hks⟩ := List.nodup_cons.mp hks
    rw [List.map_cons, storeEntry, KeyKind.sameKey_value]
    by_cases ha : a = k
    · subst ha
      have hrest : ∀ k' ∈ ks, k' ≠ a := fun k' hk' heq => hnot (heq ▸ hk')
      simp +contextual [hrest]
    · rw [decide_eq_false ha, if_neg Bool.false_ne_true, ih hks]
      by_cases hk : k ∈ ks <;> simp [ha, hk, Ne.symm ha]

end Entries

/-- The map holds under a key what the function gives for it. -/
theorem lookupKey_entries (T : Table κ) (k : κ.Key) :
    lookupKey (κ.value k) T.entries = T.value k := by
  rw [entries, lookupKey_map]
  have hk := T.mem_order k
  cases hv : T.value k <;> simp_all

theorem storeEntry_entries (T : Table κ) (k : κ.Key) (v : Value) :
    storeEntry (κ.value k) v T.entries = (T.put k v).entries := by
  rw [entries, storeEntry_map _ k v T.nodup, entries, put]
  simp only [T.mem_order k]
  refine List.map_congr_left fun k' _ => ?_
  by_cases hk : k' = k <;> simp [hk]

theorem filter_entries (T : Table κ) (k : κ.Key) :
    (T.entries.filter fun e => !sameKey e.1 (κ.value k)) = (T.remove k).entries := by
  rw [entries, entries, List.filter_map, remove]
  have htest : (fun e : Value × Value => !sameKey e.1 (κ.value k)) ∘
      (fun k' => (κ.value k', (T.value k').getD .null)) = fun k' => decide (k' ≠ k) := by
    funext k'
    simp [KeyKind.sameKey_value]
  rw [htest]
  refine List.map_congr_left fun k' hk' => ?_
  simp only [List.mem_filter, decide_eq_true_eq] at hk'
  simp [hk'.2]

end Table

/-! ### Operations -/

/-- An operation of a map. -/
inductive MapOp where
  | get (key : Value)
  | set (key value : Value)
  | insert (entry : Value)
  | find (key : Value)
  | count (key : Value)
  | erase (key : Value)
  | clear
  | size
  | empty
deriving Inhabited

namespace MapOp

/-- The operation on the map at a place. -/
def run (loc : Nat) : MapOp → HeapM Value
  | get key => mapGet loc key
  | set key value => do
    mapSet loc key value
    return .null
  | insert entry => callMap .insert loc [entry]
  | find key => callMap .find loc [key]
  | count key => callMap .count loc [key]
  | erase key => callMap .erase loc [key]
  | clear => callMap .clear loc []
  | size => callMap .size loc []
  | empty => callMap .empty loc []

/-- The operation on a partial function: its result and the function afterwards.  The heap is that
of the values; a map that is asked for an entry names its place in the answer. -/
def onTable (t : TypeExpr) (τ : Option TypeExpr) (loc : Nat) (T : Table κ) :
    MapOp → HeapM (Value × Table κ)
  | get key => do
    let k ← κ.convert t key
    match T.value k with
    | some v => return (v, T)
    | none =>
      let v ← defaultValue τ
      return (v, T.put k v)
  | set key value => do
    let k ← κ.convert t key
    return (.null, T.put k value)
  | insert entry => do
    let (first, second) ← insertedEntry entry
    let k ← κ.convert t first
    match T.value k with
    | some _ => return (.bool false, T)
    | none =>
      let v ← coerceTo τ second
      return (.bool true, T.put k v)
  | find key => do
    let k ← κ.convert t key
    match T.value k with
    | some _ => return (.entry loc (κ.value k) (← newMark), T)
    | none => return (.mapEnd loc, T)
  | count key => do
    let k ← κ.convert t key
    return (.int (if (T.value k).isSome then 1 else 0), T)
  | erase key => do
    let k ← κ.convert t key
    match T.value k with
    | some _ => return (.int 1, T.remove k)
    | none => return (.int 0, T)
  | clear => return (.null, .empty)
  | size => return (.int T.order.length, T)
  | empty => return (.bool T.order.isEmpty, T)

/-- The function after the operation; an operation that fails leaves it as it is. -/
def tableAfter (t : TypeExpr) (τ : Option TypeExpr) (loc : Nat) (T : Table κ) (h : Heap)
    (op : MapOp) :
    Table κ :=
  match op.onTable t τ loc T h with
  | .ok (_, T') _ => T'
  | .error _ _ => T

end MapOp

/-! ### A map and its partial function -/

section Realizes

variable {τ : Option TypeExpr} {loc : Nat} {T T' : Table κ} {h h' : Heap} {α : Type}

/-- The map at a place is the partial function. -/
def Table.Held (t : TypeExpr) (τ : Option TypeExpr) (loc : Nat) (T : Table κ) (h : Heap) : Prop :=
  h.objects[loc]? = some (.map (some t) τ T.entries)

/-- Gives a result, with the map at a place changed to a partial function. -/
def Table.store (loc : Nat) (r : Value × Table κ) : HeapM Value := do
  updateMap loc fun _ => r.2.entries
  return r.1

/-- Where the map is the partial function `T`, the operation `x` does what `y` does on `T`. -/
def Realizes (t : TypeExpr) (τ : Option TypeExpr) (loc : Nat) (T : Table κ) (x : HeapM Value)
    (y : HeapM (Value × Table κ)) : Prop :=
  ∀ h, T.Held t τ loc h → x h = (y >>= Table.store loc) h

theorem Table.Held.mapAt (hT : T.Held t τ loc h) : h.mapAt loc = (some t, τ, T.entries) := by
  rw [Heap.mapAt, hT]

theorem Table.Held.objects_updateMap (hT : T.Held t τ loc h)
    (f : List (Value × Value) → List (Value × Value))
    (i : Nat) : (h.updateMap loc f).objects[i]? =
      if loc = i then some (.map (some t) τ (f T.entries)) else h.objects[i]? := by
  rw [Heap.updateMap, Array.getElem?_modify]
  split
  · next heq =>
    subst heq
    rw [hT]
    rfl
  · rfl

/-- A map is changed by what becomes of the entries that it holds. -/
theorem Table.Held.updateMap_eq (hT : T.Held t τ loc h)
    (f : List (Value × Value) → List (Value × Value)) :
    h.updateMap loc f = h.updateMap loc fun _ => f T.entries := by
  refine congrArg (fun os => ({ h with objects := os } : Heap)) (Array.ext_getElem? fun i => ?_)
  exact (hT.objects_updateMap f i).trans (hT.objects_updateMap (fun _ => f T.entries) i).symm

theorem Table.Held.updateMap_self (hT : T.Held t τ loc h) :
    h.updateMap loc (fun _ => T.entries) = h := by
  have hobjs : (h.updateMap loc fun _ => T.entries).objects = h.objects :=
    Array.ext_getElem? fun i => ?_
  · exact congrArg (fun os => ({ h with objects := os } : Heap)) hobjs
  refine (hT.objects_updateMap (fun _ => T.entries) i).trans ?_
  split
  · next heq => exact heq ▸ hT.symm
  · rfl

namespace Realizes

theorem same (r : Value) : Realizes t τ loc T (pure r) (pure (r, T)) := by
  intro h hT
  show EStateM.Result.ok r h = .ok r (h.updateMap loc fun _ => T.entries)
  rw [hT.updateMap_self]

theorem change {f : List (Value × Value) → List (Value × Value)} (hf : f T.entries = T'.entries)
    (r : Value) :
    Realizes t τ loc T (updateMap loc f >>= fun _ => pure r) (pure (r, T')) := by
  intro h hT
  show EStateM.Result.ok r (h.updateMap loc f) = .ok r (h.updateMap loc fun _ => T'.entries)
  rw [hT.updateMap_eq, hf]

theorem adds {op : HeapM α} {x : α → HeapM Value} {y : α → HeapM (Value × Table κ)} (hop : Adds op)
    (hxy : ∀ a, Realizes t τ loc T (x a) (y a)) : Realizes t τ loc T (op >>= x) (op >>= y) := by
  intro h hT
  rw [bind_assoc]
  cases hrun : op h with
  | ok a h' =>
    rw [bind_of_ok hrun, bind_of_ok hrun]
    exact hxy a h' ((hop.of_ok hrun).object hT)
  | error e h' => rw [bind_of_error hrun, bind_of_error hrun]

theorem key (ht : κ.Names t) (v : Value) {x : Value → HeapM Value}
    {y : κ.Key → HeapM (Value × Table κ)}
    (hxy : ∀ k, Realizes t τ loc T (x (κ.value k)) (y k)) :
    Realizes t τ loc T (mapKey loc v >>= x) (κ.convert t v >>= y) := by
  intro h hT
  have hanswers := ht.answers v
  have hkey : mapKey loc v h = (coerce t v >>= fun w => checkKey w >>= fun _ => pure w) h := by
    rw [mapKey, bind_of_ok (show getMap loc h = .ok (h.mapAt loc) h from rfl), hT.mapAt]
    rfl
  generalize hop : coerce t v = op at hanswers hkey
  cases hanswers with
  | @value w hw =>
    have hconv : κ.convert t v = pure (κ.key w) := by rw [KeyKind.convert, hop]; rfl
    have hkey : mapKey loc v h = .ok (κ.value (κ.key w)) h := by
      rw [hkey, hw, pure_bind, checkKey, ← hw, KeyKind.unhashable?_value]
      rfl
    rw [bind_of_ok hkey, hconv, pure_bind]
    exact hxy _ h hT
  | failure e =>
    have hconv : κ.convert t v = throw e := by rw [KeyKind.convert, hop]; rfl
    have hkey : mapKey loc v h = .error e h := hkey
    rw [bind_of_error hkey, hconv]
    rfl

theorem find (k : κ.Key) {x : Option Value → HeapM Value} {y : HeapM (Value × Table κ)}
    (hxy : Realizes t τ loc T (x (T.value k)) y) :
    Realizes t τ loc T (mapFind? loc (κ.value k) >>= x) y := by
  intro h hT
  have hfind : mapFind? loc (κ.value k) h = .ok (T.value k) h := by
    rw [← T.lookupKey_entries k, show T.entries = (h.mapAt loc).2.2 by rw [hT.mapAt]]
    rfl
  rw [bind_of_ok hfind]
  exact hxy h hT

theorem getMap {x : Option TypeExpr × Option TypeExpr × List (Value × Value) → HeapM Value}
    {y : HeapM (Value × Table κ)} (hxy : Realizes t τ loc T (x (some t, τ, T.entries)) y) :
    Realizes t τ loc T (getMap loc >>= x) y := by
  intro h hT
  have hget : SmallCpp.getMap loc h = .ok (some t, τ, T.entries) h := by
    rw [← hT.mapAt]
    rfl
  rw [bind_of_ok hget]
  exact hxy h hT

end Realizes

theorem adds_insertedEntry (v : Value) : Adds (insertedEntry v) := by
  unfold insertedEntry
  split
  · exact (ReadOnly.getPair _).adds.bind fun _ => (ReadOnly.pure _).adds
  · exact (adds_twoValues _).bind fun p => (adds_copyValue p.1).bind fun _ =>
      (adds_copyValue p.2).bind fun _ =>
      (ReadOnly.pure _).adds
  · exact (ReadOnly.fail _).adds

/-- **Every operation of a map does what it does on the partial function.** -/
theorem realizes_run (ht : κ.Names t) (T : Table κ) (op : MapOp) :
    Realizes t τ loc T (op.run loc) (op.onTable t τ loc T) := by
  cases op with
  | get key =>
    refine .key ht key fun k => .find k ?_
    cases T.value k with
    | some v => exact .same v
    -- an absent key is added with the default
    | none =>
      exact .getMap (.adds (adds_defaultValue τ) fun v => .change (T.storeEntry_entries k v) v)
  | set key v =>
    rw [MapOp.run, mapSet, bind_assoc]
    exact .key ht key fun k => .change (T.storeEntry_entries k v) .null
  | insert entry =>
    refine .adds (adds_insertedEntry entry) fun p => .key ht p.1 fun k => .find k ?_
    cases T.value k with
    | some v => exact .same _
    | none =>
      exact .getMap (.adds (adds_coerceTo τ p.2) fun v => .change (T.storeEntry_entries k v) _)
  | find key =>
    refine .key ht key fun k => .find k ?_
    cases T.value k with
    | some v => exact .adds .newMark fun _ => .same _
    | none => exact .same _
  | count key => exact .key ht key fun k => .find k (.same _)
  | erase key =>
    refine .key ht key fun k => .find k ?_
    cases T.value k with
    | some v => exact .change (T.filter_entries k) _
    | none => exact .same _
  | clear => exact .change (show _ = (Table.empty : Table κ).entries from rfl) _
  | size =>
    refine .getMap ?_
    rw [Table.entries, List.length_map]
    exact .same _
  | empty =>
    refine .getMap ?_
    rw [Table.entries, List.isEmpty_map]
    exact .same _

/-- On the partial function an operation changes no container. -/
theorem adds_onTable (T : Table κ) (op : MapOp) : Adds (op.onTable t τ loc T) := by
  have hpure : ∀ {α : Type} (a : α), Adds (pure a) := fun a => (ReadOnly.pure a).adds
  have hkey : ∀ v, Adds (κ.convert t v) := fun v => (adds_coerceTo (some t) v).bind fun _ => hpure _
  cases op with
  | get key =>
    refine (hkey key).bind fun k => ?_
    split
    · exact hpure _
    · exact (adds_defaultValue τ).bind fun _ => hpure _
  | insert entry =>
    refine (adds_insertedEntry entry).bind fun p => (hkey p.1).bind fun k => ?_
    split
    · exact hpure _
    · exact (adds_coerceTo τ p.2).bind fun _ => hpure _
  | find key =>
    refine (hkey key).bind fun k => ?_
    split
    · exact Adds.newMark.bind fun _ => hpure _
    · exact hpure _
  | erase key =>
    refine (hkey key).bind fun k => ?_
    split
    · exact hpure _
    · exact hpure _
  | set key | count key => exact (hkey key).bind fun _ => hpure _
  | clear | size | empty => exact hpure _

/-! ### Any operations -/

/-- The partial function of a map that was empty: after operations on the map, which may fail, and
after changes of anything but the map. -/
inductive Tracks (t : TypeExpr) (τ : Option TypeExpr) (loc : Nat) : Heap → Table κ → Prop
  | start {h : Heap} (hmap : h.objects[loc]? = some (.map (some t) τ [])) : Tracks t τ loc h .empty
  | elsewhere {h h' : Heap} {T : Table κ} (htracks : Tracks t τ loc h T)
      (hsame : h'.objects[loc]? = h.objects[loc]?) : Tracks t τ loc h' T
  | step {h : Heap} {T : Table κ} (htracks : Tracks t τ loc h T) (op : MapOp) :
      Tracks t τ loc (heapAfter (op.run loc) h) (op.tableAfter t τ loc T h)

/-- The map at a place is a partial function: it holds the keys of the function, each once and as
values of the key type, with their values, and the operations do what they do on the function.  An
operation that fails changes no container. -/
structure Refines (t : TypeExpr) (τ : Option TypeExpr) (loc : Nat) (h : Heap) (T : Table κ) :
    Prop where
  held : T.Held t τ loc h
  distinct : T.entries.Pairwise fun d e => sameKey d.1 e.1 = false
  admitted : ∀ e ∈ T.entries, admits (some t) e.1 = true
  run : ∀ op : MapOp, match op.onTable t τ loc T h with
    | .ok (r, T') h' => Fresh h h' ∧ op.run loc h = .ok r (h'.updateMap loc fun _ => T'.entries)
    | .error e h' => Fresh h h' ∧ op.run loc h = .error e h'

theorem Table.Held.toRefines (ht : κ.Names t) (hT : T.Held t τ loc h) : Refines t τ loc h T where
  held := hT
  distinct := T.pairwise_entries
  admitted e he := by
    obtain ⟨k, -, rfl⟩ := List.mem_map.mp he
    exact ht.admits_value k
  run op := by
    have hrealizes := realizes_run ht T op h hT
    cases hrun : op.onTable t τ loc T h with
    | ok r h' =>
      rw [bind_of_ok hrun] at hrealizes
      exact ⟨(adds_onTable T op).of_ok hrun, hrealizes⟩
    | error e h' =>
      rw [bind_of_error hrun] at hrealizes
      exact ⟨(adds_onTable T op).of_error hrun, hrealizes⟩

/-- One operation leaves the map as the partial function is afterwards. -/
theorem Table.Held.step (ht : κ.Names t) (hT : T.Held t τ loc h) (op : MapOp) :
    (op.tableAfter t τ loc T h).Held t τ loc (heapAfter (op.run loc) h) := by
  have hrun := (hT.toRefines ht).run op
  rw [MapOp.tableAfter]
  cases htable : op.onTable t τ loc T h with
  | ok r h' =>
    rw [htable] at hrun
    obtain ⟨hfresh, hrun⟩ := hrun
    have hT' : T.Held t τ loc h' := hfresh.object hT
    rw [heapAfter_of_ok hrun]
    exact (hT'.objects_updateMap _ loc).trans (if_pos rfl)
  | error e h' =>
    rw [htable] at hrun
    rw [heapAfter_of_error hrun.2]
    exact hrun.1.object hT

theorem Tracks.held (ht : κ.Names t) (htracks : Tracks t τ loc h T) : T.Held t τ loc h := by
  induction htracks with
  | start hmap => exact hmap
  | elsewhere _ hsame ih => exact hsame.trans ih
  | step _ op ih => exact ih.step ht op

/-- **A map is a finite partial function on converted keys.**  Whatever operations an empty map has
been through, its keys are different values of the key type, in the order in which they came in, and
every further operation gives the result, and leaves the entries, that the partial function
gives. -/
theorem Tracks.refines (ht : κ.Names t) (htracks : Tracks t τ loc h T) : Refines t τ loc h T :=
  (htracks.held ht).toRefines ht

/-- The keys `true` and `1` are one, and a key that was removed comes back last. -/
theorem Tracks.refines_inserted_again : ∃ (h : Heap) (T : Table .int),
    Tracks ⟨.int, false, [], [], 0, false⟩ none 0 h T ∧ T.order = ([2, 1] : List Int) ∧
      Refines ⟨.int, false, [], [], 0, false⟩ none 0 h T := by
  have hstart : Tracks (κ := .int) ⟨.int, false, [], [], 0, false⟩ none 0
      { objects := #[.map (some ⟨.int, false, [], [], 0, false⟩) none []] } .empty := .start rfl
  have htracks := (((hstart.step (.set (.bool true) .null)).step (.get (.int 2))).step
    (.erase (.char [1]))).step (.insert (.list [.int 1, .null]))
  exact ⟨_, _, htracks, rfl, Tracks.refines ⟨rfl, rfl⟩ htracks⟩

end Realizes

end SmallCpp
