import SmallCpp.Proofs.Heap.Custody

/-!
# What values lead to

A value leads to a container if it is the container, or a container that it leads to holds it.  If
every container is held once, then what two values lead to has nothing in common, unless one of them
is inside the other: on the way up from a common container both ways would have the same holders.

## Main results

* `Heap.Reach.disjoint` — **containers that are held once are in one place.**
-/

namespace SmallCpp

variable {v w : Value} {holder : Nat} {o : Object}

/-- The containers in `R`, and those inside the ones that they lead to. -/
inductive Heap.Reach (h : Heap) (R : Nat → Prop) : Nat → Prop
  | root {loc : Nat} (hloc : R loc) : h.Reach R loc
  | inner {loc loc' : Nat} {o : Object} {v : Value} (hloc : h.Reach R loc)
      (ho : h.objects[loc]? = some o) (hv : v ∈ o.values) (hc : v.container? = some loc') :
      h.Reach R loc'

/-- The value is the container, or has it inside. -/
def Heap.Inside (h : Heap) (v : Value) : Nat → Prop :=
  h.Reach fun loc => v.container? = some loc

theorem two_le_uses {α : Type} {f : α → List Value} {loc : Nat} {a b : α} (xs : List α) :
    ∀ {i j : Nat}, i ≠ j → xs[i]? = some a → xs[j]? = some b → v ∈ f a → w ∈ f b →
      v.container? = some loc → w.container? = some loc → 2 ≤ uses loc (xs.flatMap f) := by
  have hpos : ∀ {ys : List α} {i : Nat} {c : α} {u : Value}, ys[i]? = some c → u ∈ f c →
      u.container? = some loc → 0 < uses loc (ys.flatMap f) := fun hc hu =>
    uses_pos (List.mem_flatMap.mpr ⟨_, List.mem_of_getElem? hc, hu⟩)
  induction xs with
  | nil => exact fun _ ha => nomatch ha
  | cons x xs ih =>
    intro i j hne ha hb hv hw hvloc hwloc
    rw [List.flatMap_cons, uses_append]
    cases i with
    | zero =>
      obtain rfl := Option.some.inj ha
      cases j with
      | zero => exact absurd rfl hne
      | succ j =>
        have hfirst := uses_pos hv hvloc
        have hrest := hpos (by simpa using hb) hw hwloc
        omega
    | succ i =>
      cases j with
      | zero =>
        obtain rfl := Option.some.inj hb
        have hfirst := uses_pos hw hwloc
        have hrest := hpos (by simpa using ha) hv hvloc
        omega
      | succ j =>
        have hrest := ih (i := i) (j := j) (by omega) (by simpa using ha) (by simpa using hb) hv hw
          hvloc hwloc
        omega

namespace Heap

variable {h h' : Heap} {R S : Nat → Prop} {loc : Nat}

theorem uses_pos_of_holder (ho : h.objects[holder]? = some o)
    (hv : v ∈ o.values) (hc : v.container? = some loc) : 0 < uses loc h.values :=
  uses_pos (List.mem_flatMap.mpr ⟨o, Array.mem_toList_iff.mpr (Array.mem_of_getElem? ho), hv⟩) hc

theorem Reach.trans (hloc : h.Reach R loc) (hR : ∀ {loc}, R loc → h.Reach S loc) :
    h.Reach S loc := by
  induction hloc with
  | root hloc => exact hR hloc
  | inner _ ho hv hc ih => exact ih.inner ho hv hc

/-- What lies inside an item lies inside the container of the item. -/
theorem Inside.of_item (hv : v.container? = some holder)
    (ho : h.objects[holder]? = some o) (hw : w ∈ o.values) (hloc : h.Inside w loc) :
    h.Inside v loc :=
  Reach.trans hloc fun hc => .inner (.root hv) ho hw hc

/-- The same containers are led to as long as they hold the same and more. -/
theorem Reach.mono (hloc : h.Reach R loc)
    (hvals : ∀ {l : Nat} {o : Object}, h.objects[l]? = some o →
      ∃ o', h'.objects[l]? = some o' ∧ o.values ⊆ o'.values) : h'.Reach R loc := by
  induction hloc with
  | root hloc => exact .root hloc
  | inner _ ho hv hc ih =>
    obtain ⟨o', ho', hsub⟩ := hvals ho
    exact ih.inner ho' (hsub hv) hc

/-- **Containers that are held once are in one place.**  If the containers of `R` are not among what
those of `S` lead to, and no container holds one of `S`, then `R` and `S` lead to different ones. -/
theorem Reach.disjoint (hsingle : ∀ loc, uses loc h.values ≤ 1)
    (hS : ∀ {loc}, S loc → uses loc h.values = 0) (hRS : ∀ {loc}, R loc → ¬h.Reach S loc)
    (hloc : h.Reach R loc) : ¬h.Reach S loc := by
  induction hloc with
  | root hloc => exact hRS hloc
  | @inner holder loc o v _ ho hv hc ih =>
    -- the way from `S` ends with a holder too, and there is only one
    intro hother
    cases hother with
    | root hroot =>
      exact absurd (uses_pos_of_holder ho hv hc) (by rw [hS hroot]; exact Nat.lt_irrefl 0)
    | @inner holder' _ o' v' hreach ho' hv' hc' =>
      by_cases heq : holder' = holder
      · exact ih (heq ▸ hreach)
      · have htwo : 2 ≤ uses loc h.values := two_le_uses _ heq (by simpa using ho')
          (by simpa using ho) hv' hv hc' hc
        exact absurd (hsingle loc) (by omega)

end Heap

/-- An initial value stays one as long as the containers that it leads to stay as they are. -/
theorem Initial.of_inside {h h' : Heap} {t : Option TypeExpr} (hv : Initial h t v)
    (hsame : ∀ {loc : Nat} {o : Object}, h.Inside v loc → h.objects[loc]? = some o →
      h'.objects[loc]? = some o) : Initial h' t v := by
  induction hv with
  | plain hv => exact .plain hv
  | vector hp hb ho _ ih =>
    refine .vector hp hb (hsame (.root rfl) ho) fun w hw => ih w hw fun hloc => hsame ?_
    exact .of_item rfl ho (by simpa using hw) hloc
  | map hp hb ho _ ih =>
    refine .map hp hb (hsame (.root rfl) ho) fun e he => ih e he fun hloc => hsame ?_
    exact .of_item rfl ho
      (by rw [Object.values_map]; exact List.mem_flatMap.mpr ⟨e, he, by simp⟩) hloc
  | pair hp hb ho _ _ iha ihb =>
    refine .pair hp hb (hsame (.root rfl) ho) (iha fun hloc => hsame ?_) (ihb fun hloc => hsame ?_)
    · exact .of_item rfl ho (by simp) hloc
    · exact .of_item rfl ho (by simp) hloc

end SmallCpp
