import SmallCpp.Sort.RunMerge

/-!
# The merge sort only moves elements

Cutting a list into runs, inserting into a run and merging two runs neither lose nor copy elements,
whatever the relation is that decides between them.  So the sorted list is a permutation of the list
also where the relation is no order.

Most steps cut an array in two at some place and put the parts back, with something else in between.
It does not matter where the cut is: the two parts always make up the array.

## Main results

* `sortBy_perm` — **the sorted list is a permutation of the list.**
-/

namespace SmallCpp.Sort

variable {α : Type}

/-! ### Cuts -/

theorem extract_append_extract (xs : Array α) (n : Nat) :
    xs.extract 0 n ++ xs.extract n xs.size = xs := by
  rcases Nat.le_total n xs.size with hle | hle
  · rw [Array.extract_append_extract]
    simp [Nat.max_eq_right hle]
  · simp [Array.extract_eq_empty_of_le, hle]

/-- An element or a run that is put into a cut only changes its place. -/
theorem perm_insert (xs ys : Array α) (n : Nat) :
    (xs.extract 0 n ++ ys ++ xs.extract n xs.size).toList.Perm (xs ++ ys).toList := by
  have hxs := congrArg Array.toList (extract_append_extract xs n)
  simp only [Array.toList_append] at hxs ⊢
  calc
    (xs.extract 0 n).toList ++ ys.toList ++ (xs.extract n xs.size).toList
    _ = (xs.extract 0 n).toList ++ (ys.toList ++ (xs.extract n xs.size).toList) :=
      List.append_assoc _ _ _
    List.Perm _ ((xs.extract 0 n).toList ++ ((xs.extract n xs.size).toList ++ ys.toList)) :=
      List.perm_append_comm.append_left _
    _ = xs.toList ++ ys.toList := by rw [← List.append_assoc, hxs]

variable (lt : α → α → Bool)

/-! ### Runs -/

theorem firstRun_perm (xs : List α) : ((firstRun lt xs).1 ++ (firstRun lt xs).2).Perm xs := by
  unfold firstRun
  split
  · dsimp only
    split
    · refine (List.reverse_perm _).append_right _ |>.trans ?_
      rw [List.take_append_drop]
    · rw [List.splitAt_eq, List.take_append_drop]
  · rw [List.append_nil]

theorem chainLength_pos (next : α → α → Bool) (a : α) (xs : List α) :
    0 < chainLength next a xs := by
  cases xs with
  | nil => exact Nat.one_pos
  | cons b bs =>
    rw [chainLength]
    split <;> omega

/-- A list that is not empty starts with a run that is not empty. -/
theorem firstRun_ne_nil {xs : List α} (h : xs ≠ []) : (firstRun lt xs).1 ≠ [] := by
  unfold firstRun
  split
  · next a b bs =>
    have hpos := fun next => chainLength_pos (α := α) next a (b :: bs)
    dsimp only
    split
    · have := hpos lt
      cases hn : chainLength lt a (b :: bs) with
      | zero => omega
      | succ n => simp
    · have := hpos fun b a => !lt b a
      cases hn : chainLength (fun b a => !lt b a) a (b :: bs) with
      | zero => omega
      | succ n => simp [List.splitAt_eq]
  · exact h

variable [Inhabited α]

theorem insertAll_perm (xs : List α) :
    ∀ run : Array α, (insertAll lt run xs).toList.Perm (run.toList ++ xs) := by
  induction xs with
  | nil => intro run; simp [insertAll]
  | cons a xs ih =>
    intro run
    refine (ih (insertOne lt run a)).trans ?_
    have h : (insertOne lt run a).toList.Perm (run.toList ++ [a]) :=
      (perm_insert run #[a] _).trans (by rw [Array.toList_append])
    simpa using h.append_right xs

/-! ### Merges -/

namespace Merger

omit [Inhabited α] in
theorem result_takeOther (n : Nat) (m : Merger α) : (m.takeOther n).result = m.result := by
  have h : m.taken ++ m.other.extract 0 n ++ m.other.extract n m.other.size =
      m.taken ++ m.other := by
    rw [Array.append_assoc, extract_append_extract]
  simp only [result, takeOther]
  rw [h]

omit [Inhabited α] in
theorem result_takeHeld (n : Nat) (m : Merger α) :
    (m.takeHeld n).result.toList.Perm m.result.toList := by
  -- the part of the run held aside that is taken moves over the other run
  have hheld := congrArg Array.toList (extract_append_extract m.held n)
  simp only [result, takeHeld, Array.toList_append, List.append_assoc] at hheld ⊢
  refine List.Perm.append_left _ ?_
  rw [← hheld, ← List.append_assoc, ← List.append_assoc]
  exact List.perm_append_comm.append_right _

theorem result_gallopHeld (d : Direction α) (m : Merger α) :
    (gallopHeld d m).2.result.toList.Perm m.result.toList := by
  rw [gallopHeld]
  dsimp only
  split
  · exact result_takeHeld _ m
  · rw [result_takeOther]
    exact result_takeHeld _ m

theorem result_gallopOther (d : Direction α) (m : Merger α) :
    (gallopOther d m).2.result.toList.Perm m.result.toList := by
  rw [gallopOther]
  dsimp only
  split
  · rw [result_takeOther]
  · refine (result_takeHeld _ _).trans ?_
    rw [result_takeOther]

theorem result_step (d : Direction α) (m : Merger α) :
    (m.step d).result.toList.Perm m.result.toList := by
  have hboth : ∀ first second : Merger α → Nat × Merger α,
      (∀ m, (first m).2.result.toList.Perm m.result.toList) →
      (∀ m, (second m).2.result.toList.Perm m.result.toList) → ∀ m : Merger α,
      ((if (first m).2.isDone then (first m).2
        else if (second (first m).2).2.isDone || gallopWins ≤ (first m).1 ||
            gallopWins ≤ (second (first m).2).1 then (second (first m).2).2
        else { (second (first m).2).2 with
          threshold := (second (first m).2).2.threshold + 1
          pace := .single 0 0 }).result.toList.Perm m.result.toList) := by
    intro first second hfirst hsecond m
    have hall := (hsecond (first m).2).trans (hfirst m)
    split
    · exact hfirst m
    · split
      · exact hall
      · exact hall
  rw [step]
  split
  · split
    · exact (result_takeOther 1 m).symm ▸ List.Perm.refl _
    · exact result_takeHeld 1 m
  · cases hd : d.heldGallops with
    | true =>
      exact hboth (gallopHeld d) (gallopOther d) (result_gallopHeld d) (result_gallopOther d) _
    | false =>
      exact hboth (gallopOther d) (gallopHeld d) (result_gallopOther d) (result_gallopHeld d) _

theorem result_finish (d : Direction α) (bound : Nat) :
    ∀ m : Merger α, (finish d bound m).result.toList.Perm m.result.toList := by
  induction bound with
  | zero => exact fun m => .refl _
  | succ bound ih =>
    intro m
    rw [finish]
    split
    · exact .refl _
    · exact (ih _).trans (result_step d m)

end Merger

theorem merge_perm (d : Direction α) (threshold : Nat) (held other : Array α) :
    (d.merge threshold held other).1.toList.Perm (held ++ other).toList := by
  rw [Direction.merge]
  refine (Merger.result_finish d _ _).trans ?_
  rw [Merger.result_takeOther]
  simp only [Merger.result, Array.toList_append, List.nil_append]
  exact List.perm_append_comm

theorem mergeRuns_perm (threshold : Nat) (left right : Array α) :
    (mergeRuns lt threshold left right).1.toList.Perm (left ++ right).toList := by
  unfold mergeRuns
  dsimp only
  generalize gallopRight lt (right.getD 0 default) left 0 = i
  generalize gallopLeft lt _ right (right.size - 1) = j
  -- only the end of the left run and the beginning of the right run are merged
  have hcut : ∀ merged : Array α,
    merged.toList.Perm (left.extract i left.size ++ right.extract 0 j).toList →
      (left.extract 0 i ++ merged ++ right.extract j right.size).toList.Perm
        (left ++ right).toList := by
    intro merged hmerged
    have hl := congrArg Array.toList (extract_append_extract left i)
    have hr := congrArg Array.toList (extract_append_extract right j)
    simp only [Array.toList_append] at hmerged hl hr ⊢
    refine ((hmerged.append_left _).append_right _).trans ?_
    rw [← hl, ← hr]
    simp only [List.append_assoc]
    exact .refl _
  split
  · exact .refl _
  · split
    · exact .refl _
    · split
      · exact hcut _ (merge_perm (forwards lt) _ _ _)
      · refine hcut _ ?_
        rw [Array.toList_reverse]
        refine (List.reverse_perm _).trans ((merge_perm (backwards lt) _ _ _).trans ?_)
        simp only [Array.toList_append, Array.toList_reverse]
        exact ((List.reverse_perm _).append (List.reverse_perm _)).trans List.perm_append_comm

/-! ### Runs that wait for a merge -/

namespace Pending

/-- The elements of the runs that wait, in the order of the list. -/
def items (p : Pending α) : List α :=
  p.runs.reverse.flatMap fun w => w.items.toList

omit [Inhabited α] in
@[simp] theorem items_cons (w : Waiting α) (runs : List (Waiting α)) (threshold : Nat) :
    items ⟨w :: runs, threshold⟩ = items ⟨runs, threshold⟩ ++ w.items.toList := by
  simp [items]

/-- The last two runs are merged. -/
theorem items_mergeRuns (a b : Waiting α) (runs : List (Waiting α))
    (threshold threshold' threshold'' power : Nat) :
    (items ⟨⟨(mergeRuns lt threshold a.items b.items).1, power⟩ :: runs, threshold'⟩).Perm
      (items ⟨b :: a :: runs, threshold''⟩) := by
  rw [items_cons, items_cons, items_cons, List.append_assoc]
  refine List.Perm.append_left _ ?_
  rw [← Array.toList_append]
  exact mergeRuns_perm lt threshold a.items b.items

theorem mergeAbove_perm (border : Nat) (bound : Nat) :
    ∀ p : Pending α, (mergeAbove lt border bound p).items.Perm p.items := by
  induction bound with
  | zero => exact fun p => .refl _
  | succ bound ih =>
    intro p
    rw [mergeAbove]
    split
    · next b a runs hruns =>
      split
      · obtain ⟨runs', threshold⟩ := p
        subst hruns
        exact (ih _).trans (items_mergeRuns lt a b runs _ _ _ _)
      · exact .refl _
    · exact .refl _

theorem push_perm (size start : Nat) (run : Array α) (p : Pending α) :
    (p.push lt size start run).items.Perm (p.items ++ run.toList) := by
  rw [push]
  split
  · next hruns => simp [items, hruns]
  · dsimp only
    rw [items_cons]
    exact (mergeAbove_perm lt _ _ p).append_right _

omit [Inhabited α] in
theorem foldl_items (runs : List (Waiting α)) (threshold : Nat) :
    ∀ tail : Array α,
      (runs.foldl (fun items w => w.items ++ items) tail).toList =
        items ⟨runs, threshold⟩ ++ tail.toList := by
  induction runs with
  | nil => intro tail; simp [items]
  | cons w runs ih =>
    intro tail
    rw [List.foldl_cons, ih, items_cons, Array.toList_append, List.append_assoc]

theorem mergeAll_perm (bound : Nat) :
    ∀ p : Pending α, (mergeAll lt bound p).toList.Perm p.items := by
  induction bound with
  | zero =>
    rintro ⟨runs, threshold⟩
    rw [mergeAll, foldl_items runs threshold, List.append_nil]
  | succ bound ih =>
    rintro ⟨runs, threshold⟩
    match runs with
    | [] => exact .refl _
    | [a] => simp [mergeAll, items]
    | [b, a] =>
      have h := mergeRuns_perm lt threshold a.items b.items
      simpa [mergeAll, items] using h
    | c :: b :: a :: runs =>
      rw [mergeAll]
      dsimp only
      split
      · refine (ih _).trans ?_
        rw [items_cons, items_cons _ (b :: a :: runs)]
        exact (items_mergeRuns lt a b runs _ _ _ _).append_right _
      · exact (ih _).trans (items_mergeRuns lt b c (a :: runs) _ _ _ _)

end Pending

/-! ### The sort -/

/-- With a bound that the list does not exceed, all of it is cut into runs. -/
theorem collect_perm (size least bound : Nat) :
    ∀ start xs (p : Pending α), xs.length ≤ bound →
      (collect lt size least bound start xs p).items.Perm (p.items ++ xs) := by
  induction bound with
  | zero =>
    intro start xs p hle
    obtain rfl := List.eq_nil_of_length_eq_zero (Nat.le_zero.mp hle)
    rw [collect, List.append_nil]
  | succ bound ih =>
    intro start xs p hle
    rw [collect]
    split
    · next hemp => simp [List.isEmpty_iff.mp hemp]
    · next hne =>
      have hrun := firstRun_ne_nil lt fun h => hne (List.isEmpty_iff.mpr h)
      have hperm := firstRun_perm lt xs
      generalize firstRun lt xs = cut at hrun hperm
      obtain ⟨run, rest⟩ := cut
      dsimp only at hrun hperm ⊢
      generalize least - run.length = missing
      have hlen : run.length + rest.length = xs.length := by
        rw [← List.length_append]
        exact hperm.length_eq
      have hpos := List.length_pos_iff.mpr hrun
      have hrest : (rest.drop missing).length ≤ bound := by
        rw [List.length_drop]
        omega
      refine (ih _ _ _ hrest).trans ?_
      refine ((Pending.push_perm lt _ _ _ p).append_right _).trans ?_
      rw [List.append_assoc]
      refine List.Perm.append_left _ (List.Perm.trans ?_ hperm)
      refine ((insertAll_perm lt _ _).append_right _).trans ?_
      rw [List.append_assoc, List.take_append_drop]

/-- **The sorted list is a permutation of the list**, whatever the relation. -/
theorem sortBy_perm (xs : List α) : (sortBy lt xs).Perm xs := by
  rw [sortBy]
  refine (Pending.mergeAll_perm lt _ _).trans ?_
  exact (collect_perm lt _ _ _ 0 xs {} (Nat.le_refl _)).trans (by simp [Pending.items])

end SmallCpp.Sort
