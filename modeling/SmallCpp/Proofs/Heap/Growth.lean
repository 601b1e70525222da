import SmallCpp.Proofs.Heap.Scalar
import SmallCpp.Proofs.Heap.Shape

/-!
# Growing heaps

Reading an element of a map by its key adds the key with a default, so an expression that assigns
nothing can still change the heap.  It can do so only in this way: vectors and pairs stay as they
are, and maps gain entries at their end, each with an initial value of the value type.  An initial
value is a default, or a default to which entries were added in the same way.

## Main results

* `newborn_of_defaultValue` — **a default consists of new containers.**
-/

namespace SmallCpp

variable {h h' h₀ h₁ : Heap} {t : Option TypeExpr} {v : Value} {f : Value → HeapM Value}

/-- The default of a type that is not a container. -/
def plainDefault? : Option TypeExpr → Option Value
  | none => some (.int 0)
  | some t =>
    if t.isPointer then some .null
    else
      match t.base with
      | .vector | .map | .pair => none
      | .string => some (.text [])
      | .float | .double => some (.real 0.0)
      | .char => some (.char [0])
      | .bool => some (.bool false)
      | .int | .void | .auto | .named _ => some (.int 0)

/-- The value is a default of the type, up to entries that reading has added to its maps. -/
inductive Initial (h : Heap) : Option TypeExpr → Value → Prop
  | plain {t : Option TypeExpr} {v : Value} (hv : plainDefault? t = some v) : Initial h t v
  | vector {t : TypeExpr} {loc : Nat} {items : Array Value} (hp : t.isPointer = false)
      (hb : t.base = .vector) (ho : h.objects[loc]? = some (.vector t.args[0]? items))
      (hitems : ∀ v ∈ items, Initial h t.args[0]? v) : Initial h (some t) (.vector loc)
  | map {t : TypeExpr} {loc : Nat} {entries : List (Value × Value)} (hp : t.isPointer = false)
      (hb : t.base = .map) (ho : h.objects[loc]? = some (.map t.args[0]? t.args[1]? entries))
      (hents : ∀ e ∈ entries, Initial h t.args[1]? e.2) : Initial h (some t) (.map loc)
  | pair {t : TypeExpr} {loc : Nat} {a b : Value} (hp : t.isPointer = false) (hb : t.base = .pair)
      (ho : h.objects[loc]? = some (.pair a b t.args[0]? t.args[1]?))
      (hfirst : Initial h t.args[0]? a) (hsecond : Initial h t.args[1]? b) :
      Initial h (some t) (.pair loc)

/-- The heap has changed only by new containers, new marks, and entries with initial values at the
ends of maps. -/
structure Grown (h h' : Heap) : Prop where
  vector : ∀ {loc : Nat} {e items}, h.objects[loc]? = some (.vector e items) →
    h'.objects[loc]? = some (.vector e items)
  map : ∀ {loc : Nat} {k t entries}, h.objects[loc]? = some (.map k t entries) →
    ∃ added, h'.objects[loc]? = some (.map k t (entries ++ added)) ∧ ∀ e ∈ added, Initial h' t e.2
  pair : ∀ {loc : Nat} {a b s t}, h.objects[loc]? = some (.pair a b s t) →
    h'.objects[loc]? = some (.pair a b s t)
  marks : h.marks ≤ h'.marks
  room : h'.room = h.room

theorem Initial.grown (hg : Grown h h') (hv : Initial h t v) : Initial h' t v := by
  induction hv with
  | plain hv => exact .plain hv
  | vector hp hb ho _ ih => exact .vector hp hb (hg.vector ho) ih
  | map hp hb ho _ ih =>
    obtain ⟨added, ho', hadded⟩ := hg.map ho
    refine .map hp hb ho' fun e he => ?_
    rcases List.mem_append.mp he with he | he
    · exact ih e he
    · exact hadded e he
  | pair hp hb ho _ _ iha ihb => exact .pair hp hb (hg.pair ho) iha ihb

theorem Grown.kept (hg : Grown h h') : Kept h h' := by
  refine ⟨fun {loc σ} hσ => ?_, hg.marks, hg.room⟩
  obtain ⟨o, ho, rfl⟩ := Option.map_eq_some_iff.mp hσ
  rw [Heap.shape?]
  cases o with
  | vector e items => rw [hg.vector ho]; rfl
  | map k t entries =>
    obtain ⟨added, ho', -⟩ := hg.map ho
    rw [ho']
    rfl
  | pair a b s t => rw [hg.pair ho]; rfl

/-! ### New initial values

A default consists of new containers only, so it stays initial whatever becomes of the containers
that were there before. -/

/-- The value is initial wherever the containers that were created between `h` and `h'` are. -/
def Newborn (h h' : Heap) (t : Option TypeExpr) (v : Value) : Prop :=
  ∀ h'' : Heap, (∀ (l : Nat) o, h.objects.size ≤ l → h'.objects[l]? = some o →
    h''.objects[l]? = some o) → Initial h'' t v

theorem Newborn.initial (hv : Newborn h h' t v) : Initial h' t v :=
  hv h' fun _ _ _ => id

theorem Fresh.size_le (hf : Fresh h h') : h.objects.size ≤ h'.objects.size :=
  hf.kept.size_le

/-- A value that was created between two heaps was created between two others around them. -/
theorem Newborn.widen (hv : Newborn h h' t v) (h0 : Fresh h₀ h) (h1 : Fresh h' h₁) :
    Newborn h₀ h₁ t v := by
  intro h'' hsame
  exact hv h'' fun l o hl ho => hsame l o (Nat.le_trans h0.size_le hl) (h1.object ho)

theorem Newborn.initial_updateMap {loc : Nat} (hv : Newborn h h' t v) (hlt : loc < h.objects.size)
    (f : List (Value × Value) → List (Value × Value)) : Initial (h'.updateMap loc f) t v :=
  hv _ fun l o hl ho => by rw [Heap.updateMap, Array.getElem?_modify, if_neg (by omega), ho]

theorem newborn_plain (hv : plainDefault? t = some v) : Newborn h h' t v :=
  fun _ _ => .plain hv

/-- The operation gives a new value of the type, whose containers were created after `h₀`. -/
def Bears (h₀ h : Heap) (t : Option TypeExpr) (op : HeapM Value) : Prop :=
  ∃ v h', op h = .ok v h' ∧ Fresh h₀ h' ∧ Newborn h₀ h' t v

theorem Bears.after {op : HeapM Value} (hop : op h = .ok v h₁) (hf : Bears h₀ h₁ t (f v)) :
    Bears h₀ h t (op >>= f) := by
  rw [Bears, bind_of_ok hop]
  exact hf

theorem bears_newPair {t : TypeExpr} {a b : Value} (h0 : Fresh h₀ h)
    (hp : t.isPointer = false) (hpair : t.base = .pair) (ha : Newborn h₀ h t.args[0]? a)
    (hb : Newborn h₀ h t.args[1]? b) : Bears h₀ h (some t) (newPair a b t.args[0]? t.args[1]?) := by
  have hpush := h.fresh_push (.pair a b t.args[0]? t.args[1]?)
  refine ⟨_, _, rfl, h0.trans hpush, fun h'' hsame => ?_⟩
  exact .pair hp hpair (hsame _ _ h0.size_le Array.getElem?_push_size)
    (ha.widen (.refl h₀) hpush h'' hsame) (hb.widen (.refl h₀) hpush h'' hsame)

/-- **A default consists of new containers**, whatever the other containers are. -/
theorem bears_defaultValue (t : Option TypeExpr) : ∀ h, Bears h h t (defaultValue t) := by
  induction t using TypeExpr.inductOption with
  | hnone => exact fun h => ⟨_, h, rfl, .refl h, newborn_plain rfl⟩
  | hsome t ih =>
    intro h
    rw [defaultValue, defaultOf_eq]
    split
    · next hp => exact ⟨_, h, rfl, .refl h, newborn_plain (by simp [plainDefault?, hp])⟩
    · next hp =>
      rw [Bool.not_eq_true] at hp
      cases hb : t.base with
      | vector =>
        exact ⟨_, _, rfl, h.fresh_push _, fun h'' hsame =>
          .vector hp hb (hsame _ _ (Nat.le_refl _) Array.getElem?_push_size) (by simp)⟩
      | map =>
        exact ⟨_, _, rfl, h.fresh_push _, fun h'' hsame =>
          .map hp hb (hsame _ _ (Nat.le_refl _) Array.getElem?_push_size) (List.forall_mem_nil _)⟩
      | pair =>
        obtain ⟨v, h₁, hv, h01, hnew⟩ := ih 0 h
        obtain ⟨w, h₂, hw, h12, hnew'⟩ := ih 1 h₁
        have hfirst := hnew.widen (.refl h) h12
        have hsecond := hnew'.widen h01 (.refl h₂)
        exact .after hv (.after hw (bears_newPair (h01.trans h12) hp hb hfirst hsecond))
      | _ => exact ⟨_, h, rfl, .refl h, newborn_plain (by simp [plainDefault?, hp, hb])⟩

theorem newborn_of_defaultValue (hrun : defaultValue t h = .ok v h') :
    Fresh h h' ∧ Newborn h h' t v := by
  obtain ⟨v, h₁, hborn, hfresh, hnew⟩ := bears_defaultValue t h
  rw [hborn] at hrun
  cases hrun
  exact ⟨hfresh, hnew⟩

end SmallCpp
