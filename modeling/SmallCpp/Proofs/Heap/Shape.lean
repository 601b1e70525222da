import SmallCpp.Heap.Convert

/-!
# Shapes of containers

A container never moves and never changes its kind or its recorded types, so what is known of a
place once is known for good.  A location with a recorded type is there for values of the kind that
the type names, and a value refers to containers of the kind that it says. -/

namespace SmallCpp

variable {v w : Value} {h h' h₁ h₂ h₃ : Heap} {e k t : Option TypeExpr} {o : Object} {loc : Nat}

/-! ### Kinds of values -/

/-- The values of the kind that a base names; other bases say nothing of the values. -/
def BaseType.admits (base : BaseType) (v : Value) : Bool :=
  match base with
  | .int => (v matches .int _)
  | .float | .double => (v matches .real _ | .nan _)
  | .bool => (v matches .bool _)
  | .string => (v matches .text _)
  | .vector => (v matches .vector _)
  | .map => (v matches .map _)
  | .pair => (v matches .pair _)
  | .char | .void | .auto | .named _ => true

/-- A location with the recorded type may hold the value; an unknown type and a pointer say nothing
of it. -/
def admits : Option TypeExpr → Value → Bool
  | none, _ => true
  | some t, v => t.isPointer || t.base.admits v

/-- The values of the kind that a base names, and texts; for the base of characters these are
characters. -/
def BaseType.tolerates (base : BaseType) (v : Value) : Bool :=
  match base with
  | .char => (v matches .char _ | .text _)
  | base => base.admits v || (v matches .text _)

/-- What is in a location with the recorded type even if a text has been stored there without a
conversion. -/
def tolerates : Option TypeExpr → Value → Bool
  | none, _ => true
  | some t, v => t.isPointer || t.base.tolerates v

theorem tolerates_text (t : Option TypeExpr) (s : CodeText) : tolerates t (.text s) = true := by
  cases t with
  | none => rfl
  | some t => cases hb : t.base <;> simp [tolerates, BaseType.tolerates, hb]

/-- Every location that may hold the first value may hold the second. -/
def Value.Fills (v w : Value) : Prop :=
  ∀ t, (admits t v = true → admits t w = true) ∧ (tolerates t v = true → tolerates t w = true)

theorem Value.Fills.trans {u : Value} (huv : u.Fills v) (hvw : v.Fills w) : u.Fills w :=
  fun t => ⟨fun ht => (hvw t).1 ((huv t).1 ht), fun ht => (hvw t).2 ((huv t).2 ht)⟩

theorem Value.fills_of_base (h : ∀ base : BaseType,
      (base.admits v = true → base.admits w = true) ∧
      (base.tolerates v = true → base.tolerates w = true)) :
    v.Fills w := by
  intro t
  cases t with
  | none => exact ⟨fun _ => rfl, fun _ => rfl⟩
  | some t =>
    simp only [admits, tolerates, Bool.or_eq_true]
    exact ⟨Or.imp_right (h t.base).1, Or.imp_right (h t.base).2⟩

theorem Value.fills_text (hv : v.asText? ≠ none) (s : CodeText) : v.Fills (.text s) := by
  refine fills_of_base fun base => ⟨fun h => ?_, fun _ => by cases base <;> rfl⟩
  cases v with
  | text => cases base <;> exact h
  -- A text is admitted wherever a character is, and at the base of texts besides.
  | char => cases base <;> first | rfl | exact h
  | _ => exact absurd rfl hv

/-! ### Locations and shapes -/

/-- The locations inside a container: their recorded types and the values that they hold. -/
def Object.locations : Object → List (Option TypeExpr × Value)
  | .vector e items => items.toList.map fun v => (e, v)
  | .map k t entries => entries.flatMap fun e => [(k, e.1), (t, e.2)]
  | .pair a b s t => [(s, a), (t, b)]

/-- The kind of a container and its recorded types. -/
inductive Shape where
  | vector (element : Option TypeExpr)
  | map (key value : Option TypeExpr)
  | pair (first second : Option TypeExpr)

def Object.shape : Object → Shape
  | .vector element _ => .vector element
  | .map key value _ => .map key value
  | .pair _ _ first second => .pair first second

/-- The shape of the container at a place. -/
def Heap.shape? (h : Heap) (loc : Nat) : Option Shape :=
  h.objects[loc]?.map Object.shape

/-! ### Changes of a heap -/

/-- The containers of the first heap are in the second one with their shapes, no mark is taken back
and the room is the same. -/
structure Kept (h h' : Heap) : Prop where
  shape : ∀ {loc : Nat} {σ}, h.shape? loc = some σ → h'.shape? loc = some σ
  marks : h.marks ≤ h'.marks
  room : h'.room = h.room

/-- The containers of the first heap are in the second one as they were, no mark is taken back and
the room is the same. -/
structure Fresh (h h' : Heap) : Prop where
  object : ∀ {loc : Nat} {o}, h.objects[loc]? = some o → h'.objects[loc]? = some o
  marks : h.marks ≤ h'.marks
  room : h'.room = h.room

theorem Kept.refl (h : Heap) : Kept h h :=
  ⟨id, Nat.le_refl _, rfl⟩

theorem Kept.trans (h : Kept h₁ h₂) (h' : Kept h₂ h₃) : Kept h₁ h₃ :=
  ⟨fun hs => h'.shape (h.shape hs), Nat.le_trans h.marks h'.marks, h'.room.trans h.room⟩

theorem Fresh.kept (hf : Fresh h h') : Kept h h' := by
  refine ⟨fun {loc σ} hσ => ?_, hf.marks, hf.room⟩
  obtain ⟨o, ho, rfl⟩ := Option.map_eq_some_iff.mp hσ
  rw [Heap.shape?, hf.object ho]
  rfl

theorem Fresh.refl (h : Heap) : Fresh h h :=
  ⟨id, Nat.le_refl _, rfl⟩

theorem Fresh.trans (h : Fresh h₁ h₂) (h' : Fresh h₂ h₃) : Fresh h₁ h₃ :=
  ⟨fun ho => h'.object (h.object ho), Nat.le_trans h.marks h'.marks, h'.room.trans h.room⟩

/-! ### Containers of a known shape -/

theorem Heap.shape?_of_object (ho : h.objects[loc]? = some o) : h.shape? loc = some o.shape := by
  rw [Heap.shape?, ho]
  rfl

theorem Heap.lt_of_shape {σ : Shape} (hσ : h.shape? loc = some σ) : loc < h.objects.size := by
  obtain ⟨o, ho, -⟩ := Option.map_eq_some_iff.mp hσ
  exact (Array.getElem?_eq_some_iff.mp ho).1

theorem Heap.vectorAt_of_shape (hloc : h.shape? loc = some (.vector e)) :
    (h.vectorAt loc).1 = e := by
  obtain ⟨o, ho, hσ⟩ := Option.map_eq_some_iff.mp hloc
  cases o with
  | vector e' items => simp_all [Heap.vectorAt, Object.shape]
  | map | pair => cases hσ

theorem getVector_of_object {items : Array Value} (ho : h.objects[loc]? = some (.vector e items)) :
    getVector loc h = .ok (e, items) h := by
  show EStateM.Result.ok (h.vectorAt loc) h = _
  rw [Heap.vectorAt, ho]

theorem getMap_of_object {entries : List (Value × Value)}
    (ho : h.objects[loc]? = some (.map k t entries)) :
    getMap loc h = .ok (k, t, entries) h := by
  show EStateM.Result.ok (h.mapAt loc) h = _
  rw [Heap.mapAt, ho]

theorem getPair_of_object (ho : h.objects[loc]? = some (.pair v w e t)) :
    getPair loc h = .ok (v, w, e, t) h := by
  show EStateM.Result.ok (h.pairAt loc) h = _
  rw [Heap.pairAt, ho]

theorem Heap.mapAt_of_shape (hloc : h.shape? loc = some (.map k t)) :
    (h.mapAt loc).1 = k ∧ (h.mapAt loc).2.1 = t := by
  obtain ⟨o, ho, hσ⟩ := Option.map_eq_some_iff.mp hloc
  cases o with
  | map k' t' entries => simp_all [Heap.mapAt, Object.shape]
  | vector | pair => cases hσ

theorem Heap.map_of_shape (hloc : h.shape? loc = some (.map k t)) :
    ∃ entries, h.objects[loc]? = some (.map k t entries) ∧ h.mapAt loc = (k, t, entries) := by
  obtain ⟨o, ho, hσ⟩ := Option.map_eq_some_iff.mp hloc
  cases o with
  | map k' t' entries =>
    cases hσ
    exact ⟨entries, ho, by rw [Heap.mapAt, ho]⟩
  | vector | pair => cases hσ

theorem Heap.pairAt_of_shape {a b : Option TypeExpr} (hloc : h.shape? loc = some (.pair a b)) :
    (h.pairAt loc).2.2.1 = a ∧ (h.pairAt loc).2.2.2 = b := by
  obtain ⟨o, ho, hσ⟩ := Option.map_eq_some_iff.mp hloc
  cases o with
  | pair x y a' b' => simp_all [Heap.pairAt, Object.shape]
  | vector | map => cases hσ

/-! ### New and changed containers -/

theorem Heap.fresh_push (h : Heap) (o : Object) : Fresh h (h.push o) := by
  refine ⟨fun {loc o'} ho => ?_, Nat.le_refl _, rfl⟩
  have hlt : loc < h.objects.size := (Array.getElem?_eq_some_iff.mp ho).1
  show (h.objects.push o)[loc]? = some o'
  rw [Array.getElem?_push_lt hlt, ← Array.getElem?_eq_getElem hlt, ho]

theorem Heap.shape?_push (h : Heap) (o : Object) :
    (h.push o).shape? h.objects.size = some o.shape := by
  show ((h.objects.push o)[h.objects.size]?).map Object.shape = _
  rw [Array.getElem?_push_size]
  rfl

theorem Heap.kept_modify (h : Heap) (loc : Nat) {f : Object → Object}
    (hf : ∀ o, (f o).shape = o.shape) :
    Kept h { h with objects := h.objects.modify loc f } := by
  refine ⟨fun {l σ} hσ => ?_, Nat.le_refl _, rfl⟩
  obtain ⟨o, ho, rfl⟩ := Option.map_eq_some_iff.mp hσ
  rw [Heap.shape?, Array.getElem?_modify]
  split
  · rw [ho]
    exact congrArg some (hf o)
  · rw [ho]
    rfl

theorem Kept.size_le (hk : Kept h h') : h.objects.size ≤ h'.objects.size := by
  refine Nat.le_of_not_lt fun hlt => ?_
  have hσ := hk.shape (h.shape?_of_object (Array.getElem?_eq_getElem hlt))
  exact absurd (h'.lt_of_shape hσ) (Nat.lt_irrefl _)

/-! ### Values and the heap -/

/-- What the value refers to is in the heap: a container of the kind that the value says, or a
mark. -/
def Heap.Backs (h : Heap) : Value → Prop
  | .nan mark => mark < h.marks
  | .vector loc | .iterator loc _ => ∃ e, h.shape? loc = some (.vector e)
  | .map loc => ∃ k t, h.shape? loc = some (.map k t)
  | .pair loc => ∃ s t, h.shape? loc = some (.pair s t)
  | _ => True

theorem Heap.Backs.kept (hv : h.Backs v) (hk : Kept h h') : h'.Backs v := by
  cases v with
  | nan => exact Nat.lt_of_lt_of_le hv hk.marks
  | vector | iterator => exact hv.imp fun _ hσ => hk.shape hσ
  | map | pair => exact hv.imp fun _ hσ => hσ.imp fun _ hσ => hk.shape hσ
  | _ => trivial

end SmallCpp
