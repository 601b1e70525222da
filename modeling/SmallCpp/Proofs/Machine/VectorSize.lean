import SmallCpp.Proofs.Machine.Visits

/-!
# Sizes of vectors

The elements of a vector are counted as steps before it gets them: those of an array, those of a new
vector, and those that filling a vector adds to it.  A vector that is made from a brace list has no
more elements than the list, and a copy has as many as the vector.  So in a program that adds no
single elements, vectors are no larger than its lists and its steps allow.

## Main results

* `vector_sizes_bounded` — **the budget of steps bounds the sizes of vectors.**
-/

namespace SmallCpp

variable {s : State} {L : Nat}

/-- The expression itself adds no single elements to a vector, and is no list of more than `L`
elements. -/
def Expr.Bounded (L : Nat) : Expr → Prop
  | .braces _ es => es.length ≤ L
  | .call _ (.member _ _ access field) _ => access ≠ .scope → field ≠ "push_back"
  | _ => True

/-- The vectors of a state have at most `n` elements. -/
def State.VectorsWithin (n : Int) (s : State) : Prop :=
  ∀ element items, .vector element items ∈ s.heap.objects → (items.size : Int) ≤ n

theorem State.VectorsWithin.mono {n n' : Int} (h : s.VectorsWithin n) (hle : n ≤ n') :
    s.VectorsWithin n' :=
  fun element items hmem => Int.le_trans (h element items hmem) hle

/-- Everything may be used, but lists have at most `L` items, and vectors at most as many elements
more as there were steps. -/
def Custody.sizes (L : Nat) : Custody where
  look _ := True
  point _ := True
  touch _ := True
  keep _ := True
  touchCell _ := True
  keepCell _ := True
  short n := n ≤ L
  fit k n := (n : Int) ≤ L + k
  touch_look := id
  point_touch := id
  keep_touch := id
  keepCell_touchCell := id
  short_le := Nat.le_trans
  short_fit hk hn := hk.elim (fun h => h _ _) fun hk => by omega
  fit_le hle hn := by omega
  fit_grow d _ hn := by omega
  fit_zero hk := hk.elim (fun h => h _ _) fun hk => by omega

theorem Custody.permits_sizes {e : Expr} (he : e.Bounded L) : (Custody.sizes L).Permits e := by
  refine ⟨?_, False.elim, e.assignsOnly_of_forall fun _ => trivial⟩
  unfold Allows
  split
  · exact he
  · exact fun hscope => ⟨fun _ => trivial, fun hname => absurd hname (he hscope)⟩
  · trivial

theorem Custody.Guarded.vectorsWithin (hs : (Custody.sizes L).Guarded s) :
    s.VectorsWithin (L + s.steps) := by
  intro element items hmem
  obtain ⟨loc, hloc⟩ := Array.mem_iff_getElem?.mp hmem
  exact (hs.inv.fits hloc).bounded

/-- **The budget of steps bounds the sizes of vectors.**  In a run of a program without calls of
`push_back`, whose brace lists have at most `L` elements, the vectors have at most as many elements
more as there were steps so far: at every moment and in the end.  So while the budget of steps is
not exceeded there are at most as many more as the budget says, and if the run does not fail on its
budget this holds to its end. -/
theorem vector_sizes_bounded (p : Program) (L : Nat) (hp : p.Every (Expr.Bounded L) fun _ => True)
    (input : List String) (limits : Limits) (lines : Array String) :
    (∀ b, Visits ⟨p.link, limits⟩ (Expr.Bounded L) ⟨.start limits input, []⟩ b →
      b.state.VectorsWithin (L + b.state.steps) ∧
      (b.state.steps ≤ limits.maxSteps → b.state.VectorsWithin (L + limits.maxSteps))) ∧
    (let report := p.run input limits lines
    report.state.VectorsWithin (L + report.state.steps) ∧
    (0 ≤ limits.maxSteps → report.state.VectorsWithin (L + limits.maxSteps) ∨
      ∃ e : Error, report.result = .error (.error e) ∧
        (limits.maxSteps < 10 ^ digitLimit → e.cause = .runtime (.stepBudget limits.maxSteps)) ∧
        (10 ^ digitLimit ≤ limits.maxSteps → e.cause = .runtime (.stray .tooManyDigits)))) := by
  have hp' : p.Every (Custody.sizes L).Permits fun _ => True := fun s hs =>
    (hp s hs).imp (fun _ => Custody.permits_sizes) fun _ => id
  have hstart : (Custody.sizes L).Guarded (.start limits input) :=
    Custody.guarded_start (fun _ => trivial) (fun _ => trivial) (fun _ => id) limits input
  refine ⟨fun b hb => ?_, ?_, fun hlimit => ?_⟩
  · have hwithin := (hb.guarded hp'.link (fun _ => Custody.permits_sizes) hstart fun _ =>
      trivial).1.vectorsWithin
    exact ⟨hwithin, fun hle => hwithin.mono (by omega)⟩
  · exact (Custody.guarded_run hp' hstart lines).vectorsWithin
  · by_cases hle : (p.run input limits lines).state.steps ≤ limits.maxSteps
    · have hwithin := (Custody.guarded_run hp' hstart lines).vectorsWithin
      exact .inl (hwithin.mono (by omega))
    · exact .inr (run_over_budget hlimit (Int.le_refl _) (Int.not_le.mp hle))

/-- An array, a list and a vector that is filled up, in a function with a loop. -/
theorem vector_sizes_bounded_filled :
    let pos : Position := ⟨1, 1⟩
    let int (n : Int) : Expr := .literal pos (.int n (toString n))
    let p : Program := ⟨"", [.define ⟨pos, .of .int [], "main", [], []⟩ pos [
      .declare ⟨pos, .of .int [], "a", none, .sized (int 4)⟩,
      .declare ⟨pos, .of .vector [.of .int []], "v", some (.braces pos [int 1, int 2]), .single⟩,
      .whileLoop pos (.literal pos (.bool true)) (.block pos [
        .evaluate pos (.call pos (.member pos (.name pos "v") .dot "resize") [int 7]),
        .breakLoop pos])]]⟩
    p.Every (Expr.Bounded 2) (fun _ => True) ∧
      (∀ b, Visits ⟨p.link, ⟨100, 10⟩⟩ (Expr.Bounded 2) ⟨.start ⟨100, 10⟩ [], []⟩ b →
        b.state.VectorsWithin (2 + b.state.steps)) ∧
      (p.run [] ⟨100, 10⟩ #[]).state.VectorsWithin (2 + (p.run [] ⟨100, 10⟩ #[]).state.steps) := by
  intro pos int p
  have hp : p.Every (Expr.Bounded 2) fun _ => True := by
    simp [p, int, Program.Every, Stmt.Every, Stmt.EveryOf, Declarator.every_iff, Signature.Every,
      Expr.Every, Expr.EveryOf, Expr.Bounded]
  have h := vector_sizes_bounded p 2 hp [] ⟨100, 10⟩ #[]
  exact ⟨hp, fun b hb => (h.1 b hb).1, h.2.1⟩

end SmallCpp
