import SmallCpp.Source

/-!
# Normalized texts

Normalizing a text removes two kinds of characters, carriage returns and those of no width, and
changes nothing in a text without them.  The pairs of carriage return and line feed are replaced in
one pass and single carriage returns in another; one pass over the text does the work of both.  Line
ends are found in the parts of a text one by one, wherever the cut does not part a carriage return
from its line feed. -/

namespace SmallCpp.Source

/-! ### Line ends in one pass -/

/-- Turns the pair of carriage return and line feed, and a carriage return alone, into a line
feed. -/
def unifyLineEnds : List Char → List Char
  | [] => []
  | '\r' :: '\n' :: cs => '\n' :: unifyLineEnds cs
  | '\r' :: cs => '\n' :: unifyLineEnds cs
  | c :: cs => c :: unifyLineEnds cs

theorem replaceReturns_joinPairs (cs : List Char) :
    replaceReturns (joinPairs cs) = unifyLineEnds cs := by
  fun_induction unifyLineEnds cs with
  | case1 => rfl
  | case2 cs ih => rw [joinPairs, replaceReturns, List.map_cons, ← replaceReturns, ih]; rfl
  | case3 cs hpair ih =>
    rw [joinPairs.eq_3 _ _ fun ds _ => hpair ds, replaceReturns, List.map_cons,
      ← replaceReturns, ih]
    rfl
  | case4 c cs hpair hc ih =>
    have hret : (c == '\r') = false := beq_eq_false_iff_ne.mpr hc
    rw [joinPairs.eq_3 _ _ hpair, replaceReturns, List.map_cons, ← replaceReturns, ih, hret]
    rfl

theorem normalize_eq (s : String) : normalize s = (unifyLineEnds s.toList).filter fun c =>
    !isZeroWidth c := by
  rw [normalize, replaceReturns_joinPairs]

/-! ### Clean characters -/

/-- The character is kept by normalizing: neither a carriage return nor of no width. -/
def IsClean (c : Char) : Prop :=
  c ≠ '\r' ∧ isZeroWidth c = false

instance (c : Char) : Decidable (IsClean c) :=
  inferInstanceAs (Decidable (_ ∧ _))

theorem not_mem_unifyLineEnds (cs : List Char) : '\r' ∉ unifyLineEnds cs := by
  fun_induction unifyLineEnds cs with
  | case1 => simp
  | case2 cs ih => simpa using ih
  | case3 cs hno ih => simpa using ih
  | case4 c cs hno hno' ih =>
    have hc : c ≠ '\r' := hno'
    simpa [Ne.symm hc] using ih

theorem unifyLineEnds_of_not_mem {cs : List Char} (h : '\r' ∉ cs) : unifyLineEnds cs = cs := by
  fun_induction unifyLineEnds cs with
  | case1 => rfl
  | case2 cs ih => simp at h
  | case3 cs hno ih => simp at h
  | case4 c cs hno hno' ih =>
    rw [ih]
    exact fun hmem => h (List.mem_cons_of_mem c hmem)

theorem isClean_of_mem_normalize {s : String} (h : c ∈ normalize s) : IsClean c := by
  rw [normalize_eq] at h
  obtain ⟨hmem, hwidth⟩ := List.mem_filter.mp h
  refine ⟨?_, by simpa using hwidth⟩
  rintro rfl
  exact not_mem_unifyLineEnds s.toList hmem

theorem normalize_of_isClean {s : String} (h : ∀ c ∈ s.toList, IsClean c) :
    normalize s = s.toList := by
  rw [normalize_eq, unifyLineEnds_of_not_mem fun hmem => (h '\r' hmem).1 rfl]
  refine List.filter_eq_self.mpr ?_
  intro c hc
  simp [(h c hc).2]

/-! ### Line ends part by part -/

variable {front back : List Char} {c : Char}

/-- No carriage return is parted from its line feed between the two texts. -/
def IsCut (front back : List Char) : Prop :=
  front.getLast? = some '\r' → back.head? ≠ some '\n'

instance (front back : List Char) : Decidable (IsCut front back) :=
  inferInstanceAs (Decidable (_ → _))

theorem IsCut.of_cons (h : IsCut (c :: front) back) : IsCut front back :=
  fun hlast => h (by rw [List.getLast?_cons, hlast]; rfl)

theorem unifyLineEnds_cons (h : c ≠ '\r') (cs : List Char) :
    unifyLineEnds (c :: cs) = c :: unifyLineEnds cs :=
  unifyLineEnds.eq_4 c cs (fun _ hc _ => h hc) h

/-- **Line ends are found part by part.** -/
theorem unifyLineEnds_append (h : IsCut front back) :
    unifyLineEnds (front ++ back) = unifyLineEnds front ++ unifyLineEnds back := by
  fun_induction unifyLineEnds front with
  | case1 => rfl
  | case2 front ih => simp only [List.cons_append, unifyLineEnds, ih h.of_cons.of_cons]
  | case3 front hpair ih =>
    -- what follows the carriage return is no line feed, in this part or in the next one
    have hnext : ∀ ds, front ++ back = '\n' :: ds → False := by
      intro ds hds
      cases front with
      | nil => exact h rfl (by rw [← List.nil_append back, hds]; rfl)
      | cons d front => exact hpair front (by rw [(List.cons.inj hds).1])
    rw [List.cons_append, unifyLineEnds.eq_3 _ hnext, ih h.of_cons, List.cons_append]
  | case4 c front hpair hc ih =>
    rw [List.cons_append, unifyLineEnds_cons hc, ih h.of_cons, List.cons_append]

end SmallCpp.Source
