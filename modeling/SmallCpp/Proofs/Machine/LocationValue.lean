import SmallCpp.Proofs.Heap.Lasting
import SmallCpp.Proofs.Machine.InPlace
import SmallCpp.Proofs.Machine.Ownership

/-!
# The value of an expression and the value at its location

An expression that denotes a location can be read in two ways: it is evaluated, or its location is
looked for and read.  Both go through the same containers in the same order, and a map gains the
same defaults.  Only a character of a text is found otherwise: the text is evaluated, then the
index, and then the location of the text is looked for, which evaluates the parts of the text once
more.

The second time everything is found where it was, unless a comparison of two containers has changed
its answer since, because one of them has gained an entry.  A non-number that the text is looked for
by is a new one each time, and what a reference reads where a text was may have become a list, whose
characters are its entries.

## Main results

* `eval_again` — **a steady expression has the value that it had**, and its second evaluation
  changes nothing.
* `location_read_as_value` — **the two ways to read an expression.**
-/

namespace SmallCpp

variable {e o i a b : Expr} {s t u : State} {v : Value} {n : Nat} {p : Position} {h : Heap}
  {access : Access} {field : String} {op : BinaryOp} {r : Reference}

/-! ### Expressions that read -/

/-- A character at the place is one of a text, and not one of a list, which is the text of its
entry. -/
def Place.OfText (s : State) : Place → Prop
  | character text _ => text.OfText s ∧ ∀ items u, readPlace text s ≠ .ok (.list items) u
  | _ => True

namespace Expr

/-- The expression itself is a constant, a name, an operator that does not store, an element or a
field. -/
def isRead : Expr → Bool
  | literal _ _ | name _ _ | binary _ _ _ _ | index _ _ _ | member _ _ _ _ => true
  | unary _ .increment _ | unary _ .decrement _ => false
  | unary _ _ _ => true
  | _ => false

/-- The expression and those inside it are such. -/
abbrev OnlyReads (e : Expr) : Prop :=
  e.Every fun e => e.isRead = true

theorem quiet_of_isRead (he : e.isRead = true) : e.isQuiet = true ∧ (e.isArray = true → False) := by
  cases e with
  | unary _ op _ =>
    cases op with
    | increment | decrement => cases he
    | negate | plus | not | complement => exact ⟨rfl, nofun⟩
  | literal | name | binary | index | member => exact ⟨rfl, nofun⟩
  | _ => cases he

/-- New defaults change nothing that the evaluation looks at: no name stands for a character of a
list, and of two values that are compared for equality one is no container and no list. -/
def Steady (m : Machine) (enter : Enter) : Nat → Expr → State → Prop
  | _, name _ id, s => ∀ r, s.lookup? id = some r → r.place.OfText s
  | n, unary _ _ e, s => Steady m enter (n + 2) e s
  | n, binary _ op a b, s =>
    Steady m enter (n + 2) a s ∧ ∀ x u, eval m enter (n + 2) a s = .ok x u →
      Steady m enter (n + 2) b u ∧ ∀ y w, eval m enter (n + 2) b u = .ok y w →
        op = .eq ∨ op = .ne → unhashable? x = none ∨ unhashable? y = none
  | n, index _ o i, s => Steady m enter (n + 2) o s ∧ ∀ c u, eval m enter (n + 2) o s = .ok c u →
      Steady m enter (n + 2) i u
  | n, member _ o _ _, s => Steady m enter (n + 2) o s
  | _, _, _ => True

/-- If the expression is a character of a text, then the text is looked for by steady expressions
and without new non-numbers. -/
def SteadyText (m : Machine) (enter : Enter) (n : Nat) (s : State) : Expr → Prop
  | index _ o _ => ∀ c u, eval m enter (n + 2) o s = .ok c u → c.asText? ≠ none →
      o.Steady m enter (n + 2) s ∧ u.heap.marks = s.heap.marks
  | _ => True

end Expr

/-! ### Enriched states -/

/-- Nothing has changed but the maps, which have gained defaults. -/
structure Enriched (s t : State) : Prop where
  heap : Gained (fun _ _ => True) s.heap t.heap
  rest : t = { s with heap := t.heap }

instance : IsPreorder State Enriched where
  refl s := ⟨.refl _, rfl⟩
  trans s t u h h' := ⟨h.heap.trans h'.heap, by rw [h'.rest, h.rest]⟩

theorem admits_enriched : Admits False (fun _ _ => True) Enriched where
  gain h := ⟨h, rfl⟩
  count := nofun
  kept h := h.heap.grown.kept

section Reading

variable {C : Custody} {m : Machine} {enter : Enter}

theorem Enriched.lookup?_eq (h : Enriched s t) (id : String) : t.lookup? id = s.lookup? id := by
  rw [h.rest]
  rfl

theorem Enriched.cells_eq (h : Enriched s t) : t.cells = s.cells := by
  rw [h.rest]

theorem Lasting.onHeap {op : HeapM Value} (hop : Lasting s.heap op)
    (hrun : SmallCpp.onHeap op s = .ok v t) (hmarks : t.heap.marks = s.heap.marks)
    (htu : Enriched t u) :
    SmallCpp.onHeap op u = .ok v u := by
  obtain ⟨k, hk, rfl⟩ := onHeap_eq_ok hrun
  rw [SmallCpp.onHeap]
  dsimp only
  rw [hop.again hk hmarks htu.heap.grown]

/-- If there are no new marks at the end, there have been none on the way. -/
theorem Enriched.marks_eq (hst : Enriched s t) (htu : Enriched t u)
    (hmarks : u.heap.marks = s.heap.marks) :
    t.heap.marks = s.heap.marks ∧ u.heap.marks = t.heap.marks := by
  have hle := hst.heap.marks
  have hle' := htu.heap.marks
  omega

theorem characterAt_of_text {x : CodeText} (hv : v.asText? = some x) (k : Int) :
    characterAt v k = (if 0 ≤ k && k < x.length then pure k.toNat
      else fail (.indexOutOfRange "string[]" k "string" x.length)) >>= fun i =>
        pure (.char [x.getD i 0]) := by
  cases v with
  | char | text =>
    cases hv
    rfl
  | _ => cases hv

/-- A character that was found where no list is held is found again. -/
theorem characterAt_again {w : Value} {i : Int} {k : Heap} (hv : ∀ items, v ≠ .list items)
    (hrun : characterAt v i h = .ok w k) : k = h ∧ ∀ g, characterAt v i g = .ok w g := by
  cases hx : v.asText? with
  | some x =>
    rw [characterAt_of_text hx] at hrun ⊢
    refine Answers.again (P := fun _ => True)
      (.bind (P := fun _ => True) ?_ fun _ _ => .value trivial) hrun
    split
    · exact .value trivial
    · exact .failure _
  | none =>
    obtain ⟨j, k₁, -, hw⟩ := bind_eq_ok hrun
    cases v with
    | list items => exact absurd rfl (hv items)
    | char | text => cases hx
    | _ => cases hw

/-- What was read at a location is read there again. -/
theorem lasting_placeValue {p : Place} (hp : C.Site s p) (htext : p.OfText s) :
    Lasting s.heap (placeValue s.cells p) := by
  induction p with
  | «variable» i => exact (Produces.value (P := fun _ => True) trivial).lasting
  | vectorSlot loc index => exact lasting_vectorGet (hp.2.lt rfl) index
  | mapSlot loc key =>
    obtain ⟨⟨-, κ, τ, hshape⟩, -⟩ := hp
    exact lasting_mapGet hshape key
  | pairField loc field => exact lasting_pairFieldValue (hp.2.lt rfl) field
  | entryField loc key field => exact lasting_entryFieldValue loc key field
  | character text i ih =>
    constructor
    intro w k g hrun hmarks hkg
    obtain ⟨v, k₁, hv, hw⟩ := bind_eq_ok hrun
    have hlist : ∀ items, v ≠ .list items := by
      rintro items rfl
      refine htext.2 items { s with heap := k₁ } ?_
      rw [readPlace_apply, onHeap, hv]
    obtain ⟨rfl, hagain⟩ := characterAt_again hlist hw
    exact (bind_of_ok ((ih hp htext.1).again hv hmarks hkg)).trans (hagain g)

/-- The character of a text at an index is found in the same way, wherever the text comes from. -/
theorem elementOf_of_text {c j : Value} {k : Int} {h' : Heap} (hc : c.asText? ≠ none)
    (hk : asIndex j h = .ok k h') : elementOf c j = characterAt c k := by
  obtain ⟨x, hx⟩ := Option.ne_none_iff_exists'.mp hc
  have helem : elementOf c j = asIndex j >>= fun i => charAt "string[]" x i >>= fun a =>
      pure (.char [a]) := by
    cases c with
    | char | text =>
      cases hx
      rfl
    | _ => cases hx
  funext g
  rw [helem, characterAt_of_text hx, bind_of_ok (((Oblivious.asIndex j).again hk).2 g), charAt]
  by_cases hneg : k < 0
  · have hout : ¬(0 ≤ k && k < x.length) = true := by
      simp only [Bool.and_eq_true, decide_eq_true_eq]
      omega
    rw [if_pos hneg, if_neg hout]
    rfl
  · rw [if_neg hneg]
    by_cases hlt : k < x.length
    · have hin : (0 ≤ k && k < x.length) = true := by
        simp only [Bool.and_eq_true, decide_eq_true_eq]
        omega
      have hget : x[k.toNat]? = some (x.getD k.toNat 0) := by
        rw [List.getD_eq_getElem?_getD, List.getElem?_eq_getElem (by omega)]
        rfl
      rw [if_pos hin, hget]
      rfl
    · have hout : ¬(0 ≤ k && k < x.length) = true := by
        simp only [Bool.and_eq_true, decide_eq_true_eq]
        omega
      rw [if_neg hout, List.getElem?_eq_none (by omega)]
      rfl

/-- An expression has been evaluated, without new marks, and is evaluated again in an enriched
state. -/
structure Twice (C : Custody) (m : Machine) (enter : Enter) (e : Expr) (n n' : Nat) (s t u : State)
    (v : Value) :
    Prop where
  guarded : C.Guarded s
  steady : e.Steady m enter n s
  first : eval m enter n e s = .ok v t
  marks : t.heap.marks = s.heap.marks
  le : n' ≤ n
  enriched : Enriched t u

variable {n' : Nat}

theorem Twice.room (h : Twice C m enter e n n' s t u v) : n' ≤ m.limits.maxNesting :=
  Nat.le_trans h.le (le_of_eval h.first)

/-- The parts of the expression are evaluated two levels below. -/
theorem Twice.le_inner (h : Twice C m enter e n n' s t u v) : n' + 2 ≤ n + 2 :=
  Nat.add_le_add_right h.le 2

variable (C m enter) in
/-- The second evaluation gives the value that the expression had, and changes nothing, however much
has been read in between. -/
def Again (e : Expr) : Prop :=
  ∀ ⦃n n' : Nat⦄ ⦃s t u : State⦄ ⦃v : Value⦄, Twice C m enter e n n' s t u v →
    eval m enter n' e u = .ok v u

variable (hC : C.Unbounded)

include hC

/-- An expression that reads lets maps gain defaults, and that is all. -/
theorem guards_eval_of_isRead (he : e.OnlyReads) :
    Guards Enriched C s (fun t v => C.Val t.heap v) (eval m enter n e) :=
  readsOnly_of_every hC (he.imp fun _ => Expr.quiet_of_isRead) admits_enriched fun _ _ _ => trivial

/-- So does looking for its location. -/
theorem guards_refer_of_isRead (he : e.OnlyReads) :
    ∀ {n : Nat} {s : State}, Guards Enriched C s (fun t r => C.Target t r) (refer m enter n e) := by
  have heval : ∀ {e : Expr}, e.OnlyReads → ∀ {n s},
      Guards Enriched C s (fun t v => C.Val t.heap v) (eval m enter n e) :=
    fun he => guards_eval_of_isRead hC he
  induction e using Expr.rec (motive_2 := fun _ => True) with
  | name p id =>
    intro n s
    rw [refer_step]
    exact .checked _ _ ((guards_resolve id).weaken fun _ _ _ _ h => h.2.2)
  | index p o i iho =>
    intro n s
    rw [refer_step]
    refine .checked _ _ (.bind (heval he.2.1) fun c u _ _ _ hc => ?_)
    refine .bind (heval he.2.2) fun j w _ _ huw hj => ?_
    refine .bind (guards_slotOf? (admits_enriched.val huw hc) hj.item) fun slot x _ _ _ hslot => ?_
    split
    · exact .pure (hslot _ rfl)
    · split
      · -- a character: the location of its text is looked for
        refine .bind (iho he.2.1) fun q y _ _ _ hq => ?_
        have hidx : Guards Enriched C y (fun _ _ => True) (onHeap (asIndex j)) :=
          .leaving admits_enriched (Q := fun _ _ => True)
          ((ReadOnly.asIndex j).gives fun _ _ _ => trivial)
        refine .bind hidx fun k z _ _ hyz _ => .pure ?_
        exact ⟨(hq.site.mono ⟨hyz.heap.grown.kept, fun hc => ⟨_, hyz.cells_eq ▸ hc, rfl⟩⟩).1, rfl⟩
      · exact .raise _
  | member p o access field =>
    intro n s
    rw [refer_step]
    refine .checked _ _ ?_
    dsimp only
    split
    · exact .raise _
    · refine .bind (heval he.2) fun c u _ _ _ hc => ?_
      refine .bind (guards_fieldOf? field hc) fun slot x _ _ _ hslot => ?_
      split
      · exact .pure (hslot _ rfl)
      · exact .raise _
  | literal | unary | step | binary | assign | call | new | newArray | braces | endl =>
    intro n s
    rw [refer_step]
    exact .checked _ _ (.raise _)
  | nil | cons => trivial

/-! ### The second evaluation -/

/-- The parts of the evaluation of an element, each from where the one before has ended. -/
theorem Twice.index (he : (Expr.index p o i).OnlyReads)
    (h : Twice C m enter (.index p o i) n n' s t u v) :
    ∃ c s₁ j s₂, Twice C m enter o (n + 2) (n' + 2) s s₁ u c ∧
    Twice C m enter i (n + 2) (n' + 2) s₁ s₂ u j ∧
      onHeap (elementOf c j) u = .ok v u := by
  obtain ⟨c, s₁, j, s₂, hc, hj, hop⟩ := eval_index_eq_ok h.first
  obtain ⟨hs₁, h01, hcval⟩ := (guards_eval_of_isRead hC he.2.1).ok h.guarded hc
  obtain ⟨hs₂, h12, hjval⟩ := (guards_eval_of_isRead hC he.2.2).ok hs₁ hj
  have hcval := admits_enriched.val h12 hcval
  obtain ⟨-, h2t, -⟩ := (Guards.expanding admits_enriched (T := fun _ => True)
    (gives_elementOf hcval hjval.item fun _ _ => trivial)
    fun hinv => gained_elementOf hinv hcval hjval.item fun _ _ => trivial).ok hs₂ hop
  obtain ⟨hmarks₁, hmarks⟩ := h01.marks_eq (trans_of Enriched h12 h2t) h.marks
  obtain ⟨hmarks₂, hmarks⟩ := h12.marks_eq h2t hmarks
  -- the second time starts from the state that the first one has left, with more defaults
  have h2u := trans_of Enriched h2t h.enriched
  exact ⟨c, s₁, j, s₂, ⟨h.guarded, h.steady.1, hc, hmarks₁, h.le_inner, trans_of Enriched h12 h2u⟩,
    ⟨hs₁, h.steady.2 c s₁ hc, hj, hmarks₂, h.le_inner, h2u⟩, (lasting_elementOf hcval j).onHeap hop
    hmarks h.enriched⟩

theorem Twice.member (he : (Expr.member p o access field).OnlyReads)
    (h : Twice C m enter (.member p o access field) n n' s t u v) :
    ∃ c s₁, Twice C m enter o (n + 2) (n' + 2) s s₁ u c ∧
    onHeap (memberOf c field) u = .ok v u := by
  obtain ⟨c, s₁, hc, hop⟩ := eval_member_eq_ok h.first
  obtain ⟨hs₁, h01, hcval⟩ := (guards_eval_of_isRead hC he.2).ok h.guarded hc
  obtain ⟨-, h1t, -⟩ := (Guards.leaving admits_enriched (gives_memberOf field hcval)).ok hs₁ hop
  obtain ⟨hmarks₁, hmarks⟩ := h01.marks_eq h1t h.marks
  exact ⟨c, s₁, ⟨h.guarded, h.steady, hc, hmarks₁, h.le_inner, trans_of Enriched h1t h.enriched⟩,
    (lasting_memberOf hcval field).onHeap hop hmarks h.enriched⟩

theorem again_name (p : Position) (id : String) : Again C m enter (.name p id) := by
  intro n n' s t u v h
  obtain ⟨-, hst, -⟩ := (guards_eval_of_isRead hC (e := .name p id) rfl).ok h.guarded h.first
  obtain ⟨r, hr, hread⟩ := eval_name_eq_ok h.first
  have hsu := trans_of Enriched hst h.enriched
  rw [eval_name h.room ((hsu.lookup?_eq id).trans hr)]
  rw [readPlace_apply] at hread
  refine (readPlace_apply r.place u).trans ?_
  rw [hsu.cells_eq]
  exact (lasting_placeValue (h.guarded.lookup? hr).target.site (h.steady r hr)).onHeap hread h.marks
    h.enriched

theorem again_unary {op : UnaryOp} (hinc : op ≠ .increment) (hdec : op ≠ .decrement)
    (he : e.OnlyReads) (ih : Again C m enter e) : Again C m enter (.unary p op e) := by
  intro n n' s t u v h
  obtain ⟨w, s₁, hw, hop⟩ := eval_unary_eq_ok hinc hdec h.first
  obtain ⟨hs₁, h01, hwval⟩ := (guards_eval_of_isRead hC he).ok h.guarded hw
  obtain ⟨-, h1t, -⟩ := (Guards.leaving admits_enriched (gives_applyUnary op hwval.item)).ok hs₁ hop
  obtain ⟨hmarks₁, hmarks⟩ := h01.marks_eq h1t h.marks
  have hw := ih ⟨h.guarded, h.steady, hw, hmarks₁, h.le_inner, trans_of Enriched h1t h.enriched⟩
  have hlasting : Lasting s₁.heap (applyUnary op w) :=
    (produces_applyUnary (P := fun _ => True) (fun _ => trivial) op fun _ _ => trivial).lasting
  have hop := hlasting.onHeap hop hmarks h.enriched
  rw [eval_step]
  refine (checked_of_le h.room _ u).trans ?_
  cases op with
  | increment => exact absurd rfl hinc
  | decrement => exact absurd rfl hdec
  | negate | plus | not | complement => exact (bind_of_ok hw).trans hop

section Binary

variable (ha : a.OnlyReads) (hb : b.OnlyReads) (iha : Again C m enter a) (ihb : Again C m enter b)

include ha hb iha ihb

/-- The left operand decides again, or it does not decide again. -/
theorem again_logical (hop : op = .logicalAnd ∨ op = .logicalOr) :
    Again C m enter (.binary p op a b) := by
  intro n n' s t u v h
  rw [eval_logical hop]
  refine (checked_of_le h.room _ u).trans ?_
  obtain ⟨x, s₁, c, hx, hc, hrest⟩ := eval_logical_eq_ok hop h.first
  obtain ⟨hs₁, h01, -⟩ := (guards_eval_of_isRead hC ha).ok h.guarded hx
  rcases hrest with ⟨hdecides, rfl, rfl⟩ | ⟨hdecides, y, d, hy, hd, rfl⟩
  · have hx := iha ⟨h.guarded, h.steady.1, hx, h.marks, h.le_inner, h.enriched⟩
    refine (bind_of_ok hx).trans ((bind_of_ok (truth_of_condition hc)).trans ?_)
    rw [if_pos hdecides]
    rfl
  · obtain ⟨-, h1t, -⟩ := (guards_eval_of_isRead hC hb).ok hs₁ hy
    obtain ⟨hmarks₁, hmarks⟩ := h01.marks_eq h1t h.marks
    have hy := ihb ⟨hs₁, (h.steady.2 x s₁ hx).1, hy, hmarks, h.le_inner, h.enriched⟩
    have hx := iha ⟨h.guarded, h.steady.1, hx, hmarks₁, h.le_inner,
      trans_of Enriched h1t h.enriched⟩
    refine (bind_of_ok hx).trans ((bind_of_ok (truth_of_condition hc)).trans ?_)
    rw [if_neg hdecides]
    exact (bind_of_ok hy).trans (bind_of_ok (truth_of_condition hd))

theorem again_binary (hop : ¬(op = .logicalAnd ∨ op = .logicalOr)) :
    Again C m enter (.binary p op a b) := by
  intro n n' s t u v h
  obtain ⟨x, s₁, y, s₂, hx, hy, happly⟩ := eval_binary_eq_ok hop h.first
  obtain ⟨hs₁, h01, hxval⟩ := (guards_eval_of_isRead hC ha).ok h.guarded hx
  obtain ⟨hs₂, h12, -⟩ := (guards_eval_of_isRead hC hb).ok hs₁ hy
  obtain ⟨-, h2t, -⟩ := (Guards.leaving admits_enriched
    (gives_applyBinary op (admits_enriched.val h12 hxval).item)).ok hs₂ happly
  obtain ⟨hmarks₁, hmarks⟩ := h01.marks_eq (trans_of Enriched h12 h2t) h.marks
  obtain ⟨hmarks₂, hmarks⟩ := h12.marks_eq h2t hmarks
  have hplain := (h.steady.2 x s₁ hx).2 y s₂ hy
  have h2u := trans_of Enriched h2t h.enriched
  have hy := ihb ⟨hs₁, (h.steady.2 x s₁ hx).1, hy, hmarks₂, h.le_inner, h2u⟩
  have hx := iha ⟨h.guarded, h.steady.1, hx, hmarks₁, h.le_inner, trans_of Enriched h12 h2u⟩
  have happly := (lasting_applyBinary hplain).onHeap happly hmarks h.enriched
  rw [eval_binary hop]
  exact (checked_of_le h.room _ u).trans ((bind_of_ok hx).trans ((bind_of_ok hy).trans happly))

end Binary

/-- **A steady expression has the value that it had.** -/
theorem eval_again (he : e.OnlyReads) : Again C m enter e := by
  induction e using Expr.rec (motive_2 := fun _ => True) with
  | literal p l =>
    intro n n' s t u v h
    obtain ⟨rfl, -⟩ := eval_literal_eq_ok h.first
    exact eval_literal l h.room u
  | name p id => exact again_name hC p id
  | unary p op e ih =>
    have hinc : op ≠ .increment := fun h => by subst h; cases he.1
    have hdec : op ≠ .decrement := fun h => by subst h; cases he.1
    exact again_unary hC hinc hdec he.2 (ih he.2)
  | binary p op a b iha ihb =>
    by_cases hop : op = .logicalAnd ∨ op = .logicalOr
    · exact again_logical hC he.2.1 he.2.2 (iha he.2.1) (ihb he.2.2) hop
    · exact again_binary hC he.2.1 he.2.2 (iha he.2.1) (ihb he.2.2) hop
  | index p o i iho ihi =>
    intro n n' s t u v h
    obtain ⟨c, s₁, j, s₂, ho, hi, hop⟩ := h.index hC he
    exact (eval_index h.room (iho he.2.1 ho) (ihi he.2.2 hi)).trans hop
  | member p o access field ih =>
    intro n n' s t u v h
    obtain ⟨c, s₁, ho, hop⟩ := h.member hC he
    have hacc : access ≠ .scope := by
      rintro rfl
      have hfirst := h.first
      rw [eval_step] at hfirst
      cases eq_ok_of_checked hfirst
    exact (eval_member hacc h.room (ih he.2 ho)).trans hop
  | new | endl => cases he
  | step | assign | call | newArray | braces => cases he.1
  | nil | cons => trivial

/-- **The location of a steady expression holds the value that the expression had.** -/
theorem refer_again (he : e.OnlyReads) :
    ∀ {n n' : Nat} {s t u x : State} {v : Value} {r : Reference},
    Twice C m enter e n n' s t u v → refer m enter (n' + 1) e u = .ok r x → x = u ∧
    r.read u = .ok v u := by
  induction e using Expr.rec (motive_2 := fun _ => True) with
  | name p id =>
    intro n n' s t u x v r h hr
    have hagain := eval_again hC he h
    obtain ⟨hlookup, rfl⟩ := refer_name_eq_ok hr
    rw [eval_name h.room hlookup] at hagain
    exact ⟨rfl, hagain⟩
  | index p o i iho =>
    intro n n' s t u x v r h hr
    obtain ⟨c, s₁, j, s₂, ho, hi, hop⟩ := h.index hC he
    obtain ⟨c', u₁, j', u₂, hc', hj', hloc⟩ := read_of_refer_index hr
    -- the parts have the values that they had
    rw [eval_again hC he.2.1 ho] at hc'
    cases hc'
    rw [eval_again hC he.2.2 hi] at hj'
    cases hj'
    rcases hloc with ⟨rfl, hread⟩ | ⟨q, x', k, htext, hq, hk, rfl⟩
    · rw [hread]
      exact ⟨rfl, hop⟩
    · -- the text is where it was, and the index is read without a change
      obtain ⟨rfl, hqread⟩ := iho he.2.1 { ho with le := Nat.le_of_succ_le ho.le } hq
      obtain ⟨h, hidx, rfl⟩ := onHeap_eq_ok hk
      obtain rfl := ((Oblivious.asIndex j).again hidx).1
      refine ⟨rfl, (bind_of_ok hqread).trans ?_⟩
      rw [← elementOf_of_text htext hidx]
      exact hop
  | member p o access field =>
    intro n n' s t u x v r h hr
    obtain ⟨c, s₁, ho, hop⟩ := h.member hC he
    obtain ⟨c', -, hc', hread⟩ := read_of_refer_member hr
    rw [eval_again hC he.2 ho] at hc'
    cases hc'
    rw [hread]
    exact ⟨rfl, hop⟩
  | literal | unary | step | binary | assign | call | new | newArray | braces | endl =>
    intro n n' s t u x v r _ hr
    rw [refer_step] at hr
    cases eq_ok_of_checked hr
  | nil | cons => trivial

omit hC in
/-- The two ways to read an element differ only for a character of a text. -/
theorem eval_index_of_refer (hr : refer m enter (n + 1) (.index p o i) s = .ok r t) :
    ∃ c u j w, eval m enter (n + 2) o s = .ok c u ∧ eval m enter (n + 2) i u = .ok j w ∧
      (t = w ∧ eval m enter n (.index p o i) s = r.read t ∨
        ∃ q x k, c.asText? ≠ none ∧ refer m enter (n + 2) o w = .ok q x ∧
        onHeap (asIndex j) x = .ok k t ∧
          r = characterOf q k ∧ eval m enter n (.index p o i) s = onHeap (characterAt c k) w) := by
  obtain ⟨c, u, j, w, hc, hj, hloc⟩ := read_of_refer_index hr
  refine ⟨c, u, j, w, hc, hj, ?_⟩
  rw [eval_index (Nat.le_of_succ_le (le_of_refer hr)) hc hj]
  rcases hloc with ⟨rfl, hread⟩ | ⟨q, x, k, htext, hq, hk, rfl⟩
  · exact .inl ⟨rfl, by rw [hread]⟩
  · obtain ⟨h, hidx, -⟩ := onHeap_eq_ok hk
    exact .inr ⟨q, x, k, htext, hq, hk, rfl, by rw [elementOf_of_text htext hidx]⟩

/-- The value or the error is that of the expression, if a text is found where it was. -/
theorem read_of_refer (he : e.OnlyReads) (hs : C.Guarded s)
    (hsteady : e.SteadyText m enter n s) (hr : refer m enter (n + 1) e s = .ok r t) :
    r.read t = eval m enter n e s := by
  have hn := Nat.le_of_succ_le (le_of_refer hr)
  cases e with
  | name p id =>
    obtain ⟨hlookup, rfl⟩ := refer_name_eq_ok hr
    rw [eval_name hn hlookup]
  | index p o i =>
    obtain ⟨c, u, j, w, hc, hj, ⟨-, heval⟩ | ⟨q, x, k, htext, hq, hk, rfl, heval⟩⟩ :=
      eval_index_of_refer hr
    · exact heval.symm
    · obtain ⟨hsteady, hmarks⟩ := hsteady c u hc htext
      obtain ⟨hu, -⟩ := (guards_eval_of_isRead hC he.2.1).ok hs hc
      have huw := ((guards_eval_of_isRead hC he.2.2).ok hu hj).2.1
      obtain ⟨rfl, hread⟩ := refer_again hC he.2.1 ⟨hs, hsteady, hc, hmarks, Nat.le_succ _, huw⟩ hq
      obtain ⟨h, hidx, rfl⟩ := onHeap_eq_ok hk
      obtain rfl := ((Oblivious.asIndex j).again hidx).1
      exact (bind_of_ok hread).trans heval.symm
  | member p o access field =>
    obtain ⟨c, hacc, hc, hread⟩ := read_of_refer_member hr
    rw [hread, eval_member hacc hn hc]
  | _ =>
    rw [refer_step] at hr
    cases eq_ok_of_checked hr

end Reading

/-! ### Both ways -/

/-- **The two ways to read an expression.**  At every moment of a run, an expression of constants,
names, fields, elements and operators that store nothing, whose location is found, is evaluated or
read at its location: both leave the state as it was but for defaults in maps.  They end with the
same value or error and in the same state, unless the expression is a character of a text that is
not found by steady expressions.  Such a text is looked for twice: first as a value and then, behind
the index, as a location. -/
theorem location_read_as_value {m : Machine} {enter : Enter} {input : List String} {a : Moment}
    (ha : Visits m (fun _ => True) ⟨.start m.limits input, []⟩ a) {e : Expr}
    (he : e.Every fun e => e.isRead = true) {n : Nat}
    {r : Reference} {t : State} (hr : refer m enter (n + 1) e a.state = .ok r t) :
    Enriched a.state (stateAfter (eval m enter n e) a.state) ∧
    Enriched a.state (stateAfter r.read t) ∧
      (e.SteadyText m enter n a.state → r.read t = eval m enter n e a.state) ∧
      ∀ p o i, e = .index p o i → ∃ c u j w, eval m enter (n + 2) o a.state = .ok c u ∧
        eval m enter (n + 2) i u = .ok j w ∧
        (t = w ∧ eval m enter n e a.state = r.read t ∨ ∃ q x k, c.asText? ≠ none ∧
          refer m enter (n + 2) o w = .ok q x ∧ onHeap (asIndex j) x = .ok k t ∧
          r = characterOf q k ∧
          eval m enter n e a.state = onHeap (characterAt c k) w) := by
  have hguarded := ha.guarded_since
  have hC : (Custody.since 0 0).Unbounded := ⟨fun _ => trivial, fun _ _ => trivial⟩
  refine ⟨((guards_eval_of_isRead hC he).stateAfter hguarded).2, ?_,
    fun hsteady => read_of_refer hC he hguarded hsteady hr, ?_⟩
  · obtain ⟨ht, hst, htgt⟩ := (guards_refer_of_isRead hC he).ok hguarded hr
    have hread := (guards_reading admits_enriched htgt fun _ _ _ => trivial).stateAfter ht
    exact trans_of Enriched hst hread.2
  · rintro p o i rfl
    exact eval_index_of_refer hr

/-- A list of texts and two maps.  `w[m[5]][m[7]]` is steady.  In `w[m == k][m[5]]` the maps are
equal until the index is evaluated, so the value is a character of the second text and the location
is in the first one. -/
theorem location_read_as_value_parting :
    let pos : Position := ⟨1, 1⟩
    let int : TypeExpr := .of .int []
    let words : TypeExpr := .of .vector [.of .string []]
    let counts : TypeExpr := .of .map [int, int]
    let m : Machine := ⟨{}, ⟨100, 10⟩⟩
    let enter := invoke m (exec m 6)
    let after (entries : List (Value × Value)) : State := {
      heap := { room := 1388, objects :=
      #[.vector (some (.of .string [])) #[.text [97], .text [98]],
        .map (some int) (some int) entries, .map (some int) (some int) []] }
      cells := #[⟨.vector 0, words⟩, ⟨.map 1, counts⟩, ⟨.map 2, counts⟩]
      globals := [("w", ⟨.variable 0, some words⟩), ("m", ⟨.variable 1, some counts⟩),
        ("k", ⟨.variable 2, some counts⟩)] }
    let s : State := after []
    let count (n : Int) : Expr := .index pos (.name pos "m") (.literal pos (.int n ""))
    let word (i : Expr) : Expr := .index pos (.name pos "w") i
    let steady : Expr := .index pos (word (count 5)) (count 7)
    let unsteady : Expr :=
      .index pos (word (.binary pos .eq (.name pos "m") (.name pos "k"))) (count 5)
    let first (i : Value) : Reference := characterOf ⟨.vectorSlot 0 i, some (.of .string [])⟩ 0
    let t : State := after [(.int 5, .int 0), (.int 7, .int 0)]
    let u : State := after [(.int 5, .int 0)]
    Visits m (fun _ => True) ⟨.start m.limits [], []⟩ ⟨s, []⟩ ∧
      ((steady.Every fun e => e.isRead = true) ∧ refer m enter 1 steady s = .ok (first (.int 0)) t ∧
        steady.SteadyText m enter 0 s ∧ eval m enter 0 steady s = .ok (.char [97]) t ∧
        (first (.int 0)).read t = eval m enter 0 steady s) ∧
      (unsteady.Every fun e => e.isRead = true) ∧
      refer m enter 1 unsteady s = .ok (first (.bool false)) u ∧
        Enriched s (stateAfter (first (.bool false)).read u) ∧
        eval m enter 0 unsteady s = .ok (.char [98]) u ∧
        (first (.bool false)).read u = .ok (.char [97]) u := by
  intro pos int words counts m enter after s count word steady unsteady first t u
  let d : Declarator := ⟨pos, words, "w",
    some (.braces pos [.literal pos (.string "a" ""), .literal pos (.string "b" "")]), .single⟩
  let counting (name : String) : Declarator := ⟨pos, counts, name, none, .single⟩
  -- what is there when the first `n + 1` variables have their values and the first `n` of them
  -- their names
  let declared (n : Nat) : State :=
    { s with
      heap := { s.heap with objects := s.heap.objects.take (n + 1) }
      cells := s.cells.take (n + 1)
      globals := s.globals.take n }
  have hvisits : Visits m (fun _ => True) ⟨.start m.limits [], []⟩ ⟨s, []⟩ :=
    .declared (.declared
    (.declared (.refl _) 5 0 (d.every_of_forall (fun _ => trivial) fun _ => trivial)
          (t := declared 0) (r := ⟨.variable 0, some words⟩) rfl)
        5 0 ((counting "m").every_of_forall (fun _ => trivial) fun _ => trivial)
        (t := declared 1) (r := ⟨.variable 1, some counts⟩) rfl)
      5 0 ((counting "k").every_of_forall (fun _ => trivial) fun _ => trivial)
      (t := declared 2) (r := ⟨.variable 2, some counts⟩) rfl
  have hsteady : steady.SteadyText m enter 0 s := by
    intro c x hc _
    have hword : eval m enter 2 (word (count 5)) s = .ok (.text [97]) u := rfl
    rw [hword] at hc
    cases hc
    refine ⟨⟨fun r hr => by cases hr; trivial, fun c' x' hc' => ?_⟩, rfl⟩
    have hw : eval m enter 4 (.name pos "w") s = .ok (.vector 0) s := rfl
    rw [hw] at hc'
    cases hc'
    exact ⟨fun r hr => by cases hr; trivial, fun _ _ _ => trivial⟩
  have hread : steady.Every fun e => e.isRead = true :=
    ⟨rfl, ⟨rfl, rfl, rfl, rfl, rfl⟩, rfl, rfl, rfl⟩
  have hread' : unsteady.Every fun e => e.isRead = true :=
    ⟨rfl, ⟨rfl, rfl, rfl, rfl, rfl⟩, rfl, rfl, rfl⟩
  have hr : refer m enter 1 steady s = .ok (first (.int 0)) t := rfl
  have hr' : refer m enter 1 unsteady s = .ok (first (.bool false)) u := rfl
  exact ⟨hvisits, ⟨hread, hr, hsteady, rfl, (location_read_as_value hvisits hread hr).2.2.1
    hsteady⟩, hread', hr',
    (location_read_as_value hvisits hread' hr').2.1, rfl, rfl⟩

end SmallCpp
