import Mathlib.Order.Defs.Unbundled
import SmallCpp.Proofs.Machine.Steps

/-!
# Computations that maintain an invariant

A triple for the computations of the machine.  An operation that is started in a state with the
invariant leaves such a state, whether it ends with a value, fails or jumps. -/

namespace SmallCpp

variable {I : State → Prop} {R : State → State → Prop} {V : State → Value → Prop} {s : State}

/-- A computation started in `s` maintains the invariant `I`.  Its value is as `Q` says, a value
that it returns with is as `V` says, and the state that it leaves comes after `s` as `R` says. -/
structure Maintains {α : Type} (I : State → Prop) (R : State → State → Prop)
    (V : State → Value → Prop)
    (s : State) (Q : State → α → Prop) (c : Run α) : Prop where
  ok : I s → ∀ {a t}, c s = .ok a t → I t ∧ R s t ∧ Q t a
  error : I s → ∀ {e t}, c s = .error e t → I t ∧ R s t ∧ ∀ v, e = .returned v → V t v

/-- An outcome that is as it should be: a value as `Q` says, or a stop that returns a value as `V`
says if it returns one. -/
def Ending.Fine {α : Type} (V : State → Value → Prop) (Q : State → α → Prop) : Ending α → Prop
  | .ok a t => Q t a
  | .error e t => ∀ v, e = .returned v → V t v

namespace Maintains

variable {α β : Type} {Q : State → α → Prop}

theorem of_ok {c : Run α} {a : α} {t : State} (hc : c s = .ok a t)
    (ht : I s → I t ∧ R s t ∧ Q t a) :
    Maintains I R V s Q c := by
  constructor
  · intro hs b u heq
    rw [hc] at heq
    cases heq
    exact ht hs
  · intro hs e u heq
    rw [hc] at heq
    cases heq

/-- The invariant may be used to describe a computation. -/
theorem assuming {c : Run α} (hc : I s → Maintains I R V s Q c) : Maintains I R V s Q c :=
  ⟨fun hs => (hc hs).ok hs, fun hs => (hc hs).error hs⟩

/-- The state may be used to describe a computation that starts with a look at it. -/
theorem get {f : State → Run α} (hf : Maintains I R V s Q (f s)) :
    Maintains I R V s Q (MonadState.get >>= f) :=
  ⟨hf.ok, hf.error⟩

theorem congr {c d : Run α} (hcd : c s = d s) (hd : Maintains I R V s Q d) :
    Maintains I R V s Q c := by
  refine ⟨fun hs a t heq => hd.ok hs ?_, fun hs e t heq => hd.error hs ?_⟩
  · rw [← hcd, heq]
  · rw [← hcd, heq]

theorem weaken {Q' : State → α → Prop} {c : Run α} (hc : Maintains I R V s Q c)
    (hQ : ∀ t a, R s t → I t → Q t a → Q' t a) : Maintains I R V s Q' c := by
  refine ⟨fun hs a t heq => ?_, hc.error⟩
  obtain ⟨ht, hst, ha⟩ := hc.ok hs heq
  exact ⟨ht, hst, hQ t a hst ht ha⟩

theorem widen {R' : State → State → Prop} {c : Run α} (hc : Maintains I R V s Q c)
    (hR : ∀ t, R s t → R' s t) :
    Maintains I R' V s Q c := by
  refine ⟨fun hs a t heq => ?_, fun hs e t heq => ?_⟩
  · exact (hc.ok hs heq).imp_right (.imp_left (hR t))
  · exact (hc.error hs heq).imp_right (.imp_left (hR t))

theorem noting {c : Run α} (hc : Maintains I R V s Q c) :
    Maintains I R V s (fun t a => Q t a ∧ c s = .ok a t) c := by
  refine ⟨fun hs a t heq => ?_, hc.error⟩
  obtain ⟨ht, hst, ha⟩ := hc.ok hs heq
  exact ⟨ht, hst, ha, heq⟩

theorem modify {f : State → State} (hf : I s → I (f s) ∧ R s (f s)) :
    Maintains I R V s anyway (modify f) :=
  of_ok rfl fun hs => ⟨(hf hs).1, (hf hs).2, trivial⟩

theorem stateAfter {c : Run α} (hc : Maintains I R V s Q c) (hs : I s) :
    I (SmallCpp.stateAfter c s) ∧ R s (SmallCpp.stateAfter c s) := by
  rw [SmallCpp.stateAfter]
  cases h : c s with
  | ok a t => exact ⟨(hc.ok hs h).1, (hc.ok hs h).2.1⟩
  | error e t => exact ⟨(hc.error hs h).1, (hc.error hs h).2.1⟩

section Order

variable [IsPreorder State R]

theorem pure {a : α} (ha : Q s a) : Maintains I R V s Q (Pure.pure a) :=
  of_ok rfl fun hs => ⟨hs, refl_of R s, ha⟩

theorem throw {e : Stop} (he : ∀ v, e = .returned v → V s v) :
    Maintains I R V s Q (throw e : Run α) := by
  refine ⟨fun _ _ _ heq => (by cases heq), fun hs e' t heq => ?_⟩
  cases heq
  exact ⟨hs, refl_of R s, he⟩

theorem raise (e : RuntimeError) : Maintains I R V s Q (raise e) := by
  refine throw fun v h => ?_
  split at h <;> cases h

theorem bind {Q' : State → β → Prop} {c : Run α} {f : α → Run β} (hc : Maintains I R V s Q c)
    (hf : ∀ a t, c s = .ok a t → I t → R s t → Q t a → Maintains I R V t Q' (f a)) :
    Maintains I R V s Q' (c >>= f) := by
  constructor
  · intro hs b u heq
    obtain ⟨a, t, ha, hb⟩ := bind_eq_ok heq
    obtain ⟨ht, hst, hQ⟩ := hc.ok hs ha
    obtain ⟨hu, htu, hQ'⟩ := (hf a t ha ht hst hQ).ok ht hb
    exact ⟨hu, trans_of R hst htu, hQ'⟩
  · intro hs e u heq
    cases hcs : c s with
    | ok a t =>
      rw [bind_of_ok hcs] at heq
      obtain ⟨ht, hst, hQ⟩ := hc.ok hs hcs
      obtain ⟨hu, htu, he⟩ := (hf a t hcs ht hst hQ).error ht heq
      exact ⟨hu, trans_of R hst htu, he⟩
    | error e t =>
      rw [bind_of_error hcs] at heq
      cases heq
      exact hc.error hs hcs

end Order

/-- The frames of a scope or a call are replaced by those from before when it ends. -/
theorem restoring {c d : Run Unit} {frames : List Frame} {depth : Nat} {outer : State → Nat}
    (hin : I s → I { s with frames, depth })
    (hback : ∀ {t}, I s → I t → R { s with frames, depth } t →
      I { t with frames := s.frames, depth := outer t } ∧
      R s { t with frames := s.frames, depth := outer t })
    (hV : ∀ {t v}, V t v → V { t with frames := s.frames, depth := outer t } v)
    (hd : d s = restored s.frames outer (c { s with frames, depth }))
    (hc : Maintains I R V { s with frames, depth } anyway c) : Maintains I R V s anyway d := by
  constructor
  · intro hs a u heq
    rw [hd] at heq
    cases hcs : c { s with frames, depth } with
    | ok b t =>
      rw [hcs] at heq
      cases heq
      obtain ⟨ht, hst, -⟩ := hc.ok (hin hs) hcs
      exact ⟨(hback hs ht hst).1, (hback hs ht hst).2, trivial⟩
    | error e t => rw [hcs] at heq; cases heq
  · intro hs e u heq
    rw [hd] at heq
    cases hcs : c { s with frames, depth } with
    | ok b t => rw [hcs] at heq; cases heq
    | error e' t =>
      rw [hcs] at heq
      cases heq
      obtain ⟨ht, hst, he⟩ := hc.error (hin hs) hcs
      exact ⟨(hback hs ht hst).1, (hback hs ht hst).2, fun v hv => hV (he v hv)⟩

/-- A handler that leaves the state alone and makes fine outcomes of fine ones. -/
theorem handled {Q' : State → β → Prop} {c : Run α} {d : Run β} (handle : Ending α → Ending β)
    (hd : d s = handle (c s)) (hc : Maintains I R V s Q c)
    (hstate : ∀ r, (handle r).state = r.state)
    (hfine : ∀ r, Ending.Fine V Q r → Ending.Fine V Q' (handle r)) : Maintains I R V s Q' d := by
  have hends : I s → I (handle (c s)).state ∧ R s (handle (c s)).state ∧
      Ending.Fine V Q' (handle (c s)) := by
    intro hs
    rw [hstate]
    cases hcs : c s with
    | ok a t =>
      obtain ⟨ht, hst, hq⟩ := hc.ok hs hcs
      exact ⟨ht, hst, hfine (.ok a t) hq⟩
    | error e t =>
      obtain ⟨ht, hst, he⟩ := hc.error hs hcs
      exact ⟨ht, hst, hfine (.error e t) he⟩
  constructor
  · intro hs b t heq
    have h := hends hs
    rw [← hd, heq] at h
    exact h
  · intro hs e t heq
    have h := hends hs
    rw [← hd, heq] at h
    exact h

end Maintains

theorem Ending.Fine.raise {α : Type} {Q : State → α → Prop} (e : RuntimeError) (t : State) :
    Ending.Fine V Q (raise e t) := by
  intro v h
  split at h <;> cases h

/-- A declaration adds one binding to the names, so what holds of every binding still does. -/
theorem exists_of_declareName (name : String) (r : Reference) (s : State) :
    ∃ globals frames, declareName name r s = .ok () { s with globals, frames } ∧
      ∀ B : String × Reference → Prop, B (name, r) → (∀ b ∈ s.globals, B b) →
        (∀ frame ∈ s.frames, ∀ b ∈ frame, B b) →
        (∀ b ∈ globals, B b) ∧ ∀ frame ∈ frames, ∀ b ∈ frame, B b := by
  have hbind : ∀ {B : String × Reference → Prop} {frame : Frame}, B (name, r) → (∀ b ∈ frame, B b) →
      ∀ b ∈ Frame.bind name r frame, B b := by
    intro B frame hnew hfr b hmem
    rcases Frame.mem_bind hmem with rfl | hmem
    · exact hnew
    · exact hfr b hmem
  obtain ⟨heap, cells, globals, frames, depth, steps, input, output⟩ := s
  cases frames with
  | nil => exact ⟨_, [], rfl, fun B hnew hglobals hframes => ⟨hbind hnew hglobals, hframes⟩⟩
  | cons frame frames =>
    refine ⟨globals, _, rfl, fun B hnew hglobals hframes => ⟨hglobals, fun frame' hfr' => ?_⟩⟩
    rcases List.mem_cons.mp hfr' with rfl | hfr'
    · exact hbind hnew (hframes frame List.mem_cons_self)
    · exact hframes frame' (List.mem_cons_of_mem frame hfr')

/-! ### Handlers -/

section Handlers

variable {c : Run Unit}

theorem Maintains.locating (position : Position) (hc : Maintains I R V s anyway c) :
    Maintains I R V s anyway (locating position c) := by
  refine .handled (located position) (locating_apply position c s) hc (fun r => ?_) fun r hr => ?_
  · unfold located
    split <;> rfl
  · unfold located
    split
    · exact nofun
    · exact hr

theorem Maintains.iterate (hc : Maintains I R V s anyway c) :
    Maintains I R V s anyway (iterate c) := by
  refine .handled iterated rfl hc (fun r => ?_) fun r hr => ?_
  · unfold iterated
    split <;> rfl
  · unfold iterated
    split
    · trivial
    · trivial
    · trivial
    · exact hr

theorem Maintains.returning (hnull : ∀ t, V t .null) (hc : Maintains I R V s anyway c) :
    Maintains I R V s V (returning c) := by
  refine .handled returnedFrom rfl hc (fun r => ?_) fun r hr => ?_
  · unfold returnedFrom
    split <;> rfl
  · unfold returnedFrom
    split
    · exact hnull _
    · exact hr _ rfl
    · exact .raise _ _
    · exact .raise _ _
    · exact hr

theorem Maintains.untilReturn (hasMain : Bool) (hc : Maintains I R V s anyway c) :
    Maintains I R V s anyway (untilReturn hasMain c) := by
  refine .handled (initialized hasMain) rfl hc (fun r => ?_) fun r hr => ?_
  · unfold initialized
    split
    · rfl
    · cases hasMain <;> rfl
    · rfl
  · unfold initialized
    split
    · trivial
    · cases hasMain with
      | true => exact Ending.Fine.raise (Q := anyway) _ _
      | false => trivial
    · exact hr

end Handlers

end SmallCpp
