import SmallCpp.Proofs.Machine.CompatibleRun
import SmallCpp.Proofs.Machine.Steps

/-!
# Computations with other counters

A computation sees little of the steps that were counted before it and of the input that is not read
yet: a charge compares the steps with the budget, and `pull` takes the first token.  Everything else
does the same if both are changed.  So two runs of one computation that differ in these counters do
the same, as long as charges and `pull` do.

## Main results

* `Comparison.compatibleRun` — **everything that statements are made of is carried over.**
-/

namespace SmallCpp

variable {α β : Type} {c d : Run Unit} {f : State → State}

/-! ### Outcomes with other states -/

/-- The outcome with another state at the end. -/
def Ending.mapState {α : Type} (f : State → State) : Ending α → Ending α
  | .ok a t => .ok a (f t)
  | .error e t => .error e (f t)

@[simp]
theorem Ending.mapState_ok (f : State → State) (a : α) (t : State) :
    Ending.mapState f (.ok a t) = .ok a (f t) :=
  rfl

@[simp]
theorem Ending.mapState_error (f : State → State) (e : Stop) (t : State) :
    Ending.mapState f (.error e t : Ending α) = .error e (f t) :=
  rfl

theorem located_mapState (p : Position) (f : State → State) (r : Ending Unit) :
    located p (Ending.mapState f r) = Ending.mapState f (located p r) := by
  rcases r with _ | ⟨⟨e, _ | position⟩ | _, t⟩ <;> rfl

/-! ### Changes of states that commute with a computation -/

/-- The change of states leaves containers and variables as they are, and depends on neither. -/
structure Unrelated (f : State → State) : Prop where
  setHeap : ∀ s heap, f { s with heap } = { f s with heap }
  setCells : ∀ s cells, f { s with cells } = { f s with cells }

/-- The change of states may be made before the computation or after it. -/
def Commutes {α : Type} (f : State → State) (c : Run α) : Prop :=
  ∀ s, c (f s) = Ending.mapState f (c s)

namespace Unrelated

variable (h : Unrelated f)

include h

theorem heap_eq (s : State) : (f s).heap = s.heap := by
  have hset := congrArg State.heap (h.setHeap s s.heap)
  exact hset

theorem cells_eq (s : State) : (f s).cells = s.cells := by
  have hset := congrArg State.cells (h.setCells s s.cells)
  exact hset

end Unrelated

namespace Commutes

theorem bind {c : Run α} {g : α → Run β} (hc : Commutes f c) (hg : ∀ a, Commutes f (g a)) :
    Commutes f (c >>= g) := by
  intro s
  have hstart := hc s
  cases hcs : c s with
  | error e t =>
    rw [hcs] at hstart
    rw [bind_of_error hcs, bind_of_error hstart]
    rfl
  | ok a t =>
    rw [hcs] at hstart
    rw [bind_of_ok hcs, bind_of_ok hstart]
    exact hg a t

variable (h : Unrelated f)

include h

theorem onHeap (op : HeapM α) : Commutes f (onHeap op) := by
  intro s
  rw [SmallCpp.onHeap, SmallCpp.onHeap]
  dsimp only
  rw [h.heap_eq]
  cases op s.heap with
  | ok a heap => exact congrArg (EStateM.Result.ok a) (h.setHeap s heap).symm
  | error e heap => exact congrArg (EStateM.Result.error e.stop) (h.setHeap s heap).symm

/-- Operations on locations look at containers and variables only. -/
theorem store : CompatibleStore fun c _ => Commutes f c where
  pure _ _ := rfl
  bind hc hg := hc.bind hg
  raise _ _ := rfl
  onHeap := .onHeap h
  look g hc s := by
    rw [hc, hc, h.heap_eq, h.cells_eq]
    rfl
  setCells g s := by
    refine congrArg (EStateM.Result.ok ()) (Eq.trans ?_ (h.setCells s (g s.cells)).symm)
    dsimp only
    rw [h.cells_eq]

end Commutes

/-! ### Counters -/

/-- The steps that were counted, and the input that is not read yet. -/
structure Counters where
  steps : Int
  input : List String

/-- Steps may be counted and tokens taken between the two. -/
structure Counters.Before (g g' : Counters) : Prop where
  steps : g.steps ≤ g'.steps
  input : g'.input <:+ g.input

def State.counters (s : State) : Counters :=
  ⟨s.steps, s.input⟩

/-- The state with other counters. -/
def State.withCounters (s : State) (g : Counters) : State :=
  { s with steps := g.steps, input := g.input }

theorem Counters.Before.refl (g : Counters) : g.Before g :=
  ⟨Int.le_refl _, List.suffix_rfl⟩

theorem Counters.Before.trans {g g' g'' : Counters} (h : g.Before g') (h' : g'.Before g'') :
    g.Before g'' :=
  ⟨Int.le_trans h.steps h'.steps, h'.input.trans h.input⟩

theorem counters_mapState (g : Counters) (r : Ending α) :
    (Ending.mapState (·.withCounters g) r).state.counters = g := by
  cases r <;> rfl

theorem mapState_counters (r : Ending α) :
    Ending.mapState (·.withCounters r.state.counters) r = r := by
  cases r <;> rfl

/-- How the counters of two runs are compared.  They meet at the start, and as long as the first run
has room. Nothing is said of the second run if the first one stops with an error that is spared. -/
structure Comparison (limits : Limits) where
  Meets : Counters → Counters → Prop
  Room : Counters → Prop
  Spared : Stop → Prop
  room_before : ∀ {g g' : Counters}, g.Before g' → Room g' → Room g
  charge : ∀ {g g' : Counters} {n : Int}, Meets g g' → Room { g with steps := g.steps + n } →
    Meets { g with steps := g.steps + n } { g' with steps := g'.steps + n } ∧
      (limits.maxSteps < g'.steps + n ↔ limits.maxSteps < g.steps + n)
  pull : ∀ {g g' : Counters} {token : String} {input : List String}, Meets g g' →
    g.input = token :: input →
    Room { g with input } →
    ∃ input', g'.input = token :: input' ∧ Meets { g with input } { g' with input := input' }
  /-- If there is none, there is none in the second run either. -/
  starved : ∀ {g g' : Counters}, Meets g g' → g.input = [] →
    ¬Spared (.failed .inputExhausted none) →
    g'.input = []
  /-- An error is spared wherever it is located, and nothing is spared that a handler takes for a
jump. -/
  spared : ∀ {e : Stop}, Spared e →
    e = .tooDeep ∨ ∃ error position, e = .failed error position ∧ ∀ position,
    Spared (.failed error position)

/-- The first computation takes back neither steps nor tokens.  If it leaves room and is not stopped
by an error that is spared, then the second one, from counters that meet, ends in the same way and
with counters that meet. -/
structure Carries {limits : Limits} (C : Comparison limits) {α : Type} (c d : Run α) : Prop where
  before : ∀ s : State, s.counters.Before (stateAfter c s).counters
  same : ∀ (s : State) g, C.Meets s.counters g → C.Room (stateAfter c s).counters →
    (∀ e t, c s = .error e t → ¬C.Spared e) → ∃ g', C.Meets (stateAfter c s).counters g' ∧
      d (s.withCounters g) = Ending.mapState (·.withCounters g') (c s)

namespace Carries

variable {limits : Limits} {C : Comparison limits}

/-- A computation that does not depend on the counters. -/
theorem of_commutes {c : Run α} (h : ∀ g, Commutes (·.withCounters g) c) : Carries C c c := by
  have hkept : ∀ s, (stateAfter c s).counters = s.counters := by
    intro s
    have hself : c s = Ending.mapState (·.withCounters s.counters) (c s) := h s.counters s
    rw [stateAfter, hself]
    exact counters_mapState _ _
  refine ⟨fun s => ?_, fun s g hmeets _ _ => ⟨g, ?_, h g s⟩⟩
  · rw [hkept]
    exact .refl _
  · rwa [hkept]

theorem bind {c d : Run α} {f f' : α → Run β} (hc : Carries C c d)
    (hf : ∀ a s t, c s = .ok a t → Carries C (f a) (f' a)) : Carries C (c >>= f) (d >>= f') := by
  constructor
  · intro s
    have hbefore := hc.before s
    rw [stateAfter] at hbefore ⊢
    cases hcs : c s with
    | error e t =>
      rw [bind_of_error hcs]
      rwa [hcs] at hbefore
    | ok a t =>
      rw [bind_of_ok hcs]
      rw [hcs] at hbefore
      exact hbefore.trans ((hf a s t hcs).before t)
  · intro s g hmeets hroom hspared
    have hsame := hc.same s g hmeets
    rw [stateAfter] at hroom hsame ⊢
    cases hcs : c s with
    | error e t =>
      have hbind : (c >>= f) s = .error e t := bind_of_error hcs
      rw [hbind] at hroom hspared ⊢
      rw [hcs] at hsame
      obtain ⟨g', hg', hd⟩ := hsame hroom fun e' t' heq => by
        cases heq
        exact hspared e t rfl
      exact ⟨g', hg', bind_of_error hd⟩
    | ok a t =>
      have hbind : (c >>= f) s = f a t := bind_of_ok hcs
      rw [hbind] at hroom hspared ⊢
      rw [hcs] at hsame
      -- what leaves room at the end leaves room in the middle
      obtain ⟨g', hg', hd⟩ := hsame (C.room_before ((hf a s t hcs).before t) hroom) nofun
      rw [bind_of_ok hd]
      exact (hf a s t hcs).same t g' hg' hroom hspared

/-- A computation inside a scope or a call, or one whose outcome is handled. -/
theorem handled {c d : Run α} {c' d' : Run β} (h : Carries C c d) (start : State → State)
    (finish : State → Ending α → Ending β) (hc : ∀ s, c' s = finish s (c (start s)))
    (hd : ∀ s, d' s = finish s (d (start s)))
    (hstart : ∀ s g, start (s.withCounters g) = (start s).withCounters g)
    (hfinish : ∀ s g g' r, finish (s.withCounters g) (Ending.mapState (·.withCounters g') r) =
      Ending.mapState (·.withCounters g') (finish s r))
    (hspared : ∀ s e t, C.Spared e → ∃ e' t', finish s (.error e t) = .error e' t' ∧ C.Spared e') :
    Carries C c' d' := by
  have hkept : ∀ s, (start s).counters = s.counters := by
    intro s
    have hself := congrArg State.counters (hstart s s.counters)
    exact hself
  have hafter : ∀ s, (stateAfter c' s).counters = (stateAfter c (start s)).counters := by
    intro s
    have hself := hfinish s s.counters (stateAfter c (start s)).counters (c (start s))
    rw [stateAfter, mapState_counters] at hself
    rw [stateAfter, hc, show finish s (c (start s)) = _ from hself, counters_mapState]
    rfl
  refine ⟨fun s => ?_, fun s g hmeets hroom hnot => ?_⟩
  · rw [hafter, ← hkept]
    exact h.before (start s)
  · rw [hafter] at hroom
    obtain ⟨g', hg', hsame⟩ := h.same (start s) g (hkept s ▸ hmeets) hroom fun e t heq he => by
      obtain ⟨e', t', hfinished, he'⟩ := hspared s e t he
      exact hnot e' t' (by rw [hc, heq, hfinished]) he'
    rw [hafter, hc]
    exact ⟨g', hg', by rw [hd, hstart, hsame, hfinish]⟩

/-- A handler that looks at the outcome only, and leaves errors as they are but for their places. -/
theorem handled_outcome {c d : Run α} {c' d' : Run β} (h : Carries C c d)
    (handle : Ending α → Ending β)
    (hc : ∀ s, c' s = handle (c s)) (hd : ∀ s, d' s = handle (d s))
    (hmap : ∀ f r, handle (Ending.mapState f r) = Ending.mapState f (handle r))
    (hdeep : ∀ t, handle (.error .tooDeep t) = .error .tooDeep t)
    (hfailed : ∀ e p t, ∃ p', handle (.error (.failed e p) t) = .error (.failed e p') t) :
    Carries C c' d' := by
  refine h.handled id (fun _ => handle) hc hd (fun _ _ => rfl) (fun _ _ g' => hmap _)
    fun _ e t he => ?_
  obtain rfl | ⟨error, position, rfl, hall⟩ := C.spared he
  · exact ⟨_, t, hdeep t, he⟩
  · obtain ⟨position', heq⟩ := hfailed error position t
    exact ⟨_, t, heq, hall position'⟩

theorem inScope (h : Carries C c d) : Carries C (inScope c) (inScope d) :=
  h.handled (fun s => { s with frames := [] :: s.frames }) (fun s => restored s.frames State.depth)
    (inScope_apply c) (inScope_apply d) (fun _ _ => rfl) (fun _ _ _ r => by cases r <;> rfl)
    fun _ e _ he => ⟨e, _, rfl, he⟩

theorem calling (frame : Frame) (h : Carries C c d) :
    Carries C (calling frame c) (calling frame d) :=
  h.handled (fun s => { s with frames := [frame], depth := s.depth + 1 })
    (fun s => restored s.frames fun _ => s.depth) (calling_apply frame c) (calling_apply frame d)
    (fun _ _ => rfl) (fun _ _ _ r => by cases r <;> rfl) fun _ e _ he => ⟨e, _, rfl, he⟩

theorem charge (n : Int) : Carries C (charge limits n) (charge limits n) := by
  by_cases hn : 0 < n
  · have hafter : ∀ s, (stateAfter (SmallCpp.charge limits n) s).counters =
        ⟨s.steps + n, s.input⟩ := by
      intro s
      rw [stateAfter, charge_apply, if_pos hn]
      split <;> rfl
    refine ⟨fun s => ?_, fun s g hmeets hroom _ => ?_⟩
    · rw [hafter]
      exact ⟨by simp only [State.counters]; omega, List.suffix_rfl⟩
    · rw [hafter] at hroom ⊢
      obtain ⟨hmeets', hbudget⟩ := C.charge hmeets hroom
      refine ⟨_, hmeets', ?_⟩
      have hsame : limits.maxSteps < (s.withCounters g).steps + n ↔ limits.maxSteps < s.steps +
        n := hbudget
      rw [charge_apply, charge_apply, if_pos hn, if_pos hn]
      simp only [hsame]
      split <;> rfl
  · refine .of_commutes fun g s => ?_
    rw [charge_apply, charge_apply, if_neg hn, if_neg hn]
    rfl

theorem pull : Carries C pull pull := by
  constructor
  · intro s
    obtain ⟨heap, cells, globals, frames, depth, steps, input, output⟩ := s
    cases input with
    | nil => exact .refl _
    | cons token input => exact ⟨Int.le_refl _, List.suffix_cons token input⟩
  · intro s g hmeets hroom hspared
    obtain ⟨heap, cells, globals, frames, depth, steps, input, output⟩ := s
    obtain ⟨steps', input'⟩ := g
    cases input with
    | nil =>
      obtain rfl : input' = [] := C.starved hmeets rfl (hspared _ _ rfl)
      exact ⟨⟨steps', []⟩, hmeets, rfl⟩
    | cons token input =>
      obtain ⟨rest, rfl, hmeets'⟩ := C.pull hmeets rfl hroom
      exact ⟨⟨steps', rest⟩, hmeets', rfl⟩

end Carries

/-- **Everything that statements are made of is carried over.** -/
theorem Comparison.compatibleRun {m : Machine} (C : Comparison m.limits) :
    CompatibleRun m fun c d => Carries C c d where
  pure _ := .of_commutes fun _ _ => rfl
  after hc hf := hc.bind hf
  raise _ := .of_commutes fun _ _ => rfl
  tooDeep := .of_commutes fun _ _ => rfl
  charge := .charge
  onHeap op := .of_commutes fun _ => .onHeap ⟨fun _ _ => rfl, fun _ _ => rfl⟩ op
  look f hc := .of_commutes fun _ s => by rw [hc, hc]; rfl
  lookup _ := .of_commutes fun _ _ => rfl
  setCells _ := .of_commutes fun _ _ => rfl
  newVariable _ _ := .of_commutes fun _ _ => rfl
  throw _ _ := .of_commutes fun _ _ => rfl
  declareName name r := .of_commutes fun _ s => by
    obtain ⟨heap, cells, globals, frames, depth, steps, input, output⟩ := s
    cases frames <;> rfl
  pull := .pull
  emit _ := .of_commutes fun _ _ => rfl
  emitLineEnd := .of_commutes fun _ _ => rfl
  callsInProgress := .of_commutes fun _ _ => rfl
  inScope h := h.inScope
  locating {c d} position h := by
    refine h.handled_outcome (located position) (locating_apply position c)
      (locating_apply position d)
      (located_mapState position) (fun _ => rfl) fun e p t => ?_
    cases p with
    | none => exact ⟨_, rfl⟩
    | some p => exact ⟨_, rfl⟩
  iterate h := h.handled_outcome iterated (fun _ => rfl) (fun _ => rfl)
    (fun _ r => by cases r with | ok => rfl | error e => cases e <;> rfl) (fun _ => rfl)
    fun _ p _ => ⟨p, rfl⟩
  call frame h := (h.calling frame).handled_outcome returnedFrom (fun _ => rfl) (fun _ => rfl)
    (fun _ r => by cases r with | ok => rfl | error e => cases e <;> rfl) (fun _ => rfl)
    fun _ p _ => ⟨p, rfl⟩
  untilReturn hasMain h := h.handled_outcome (initialized hasMain) (fun _ => rfl) (fun _ => rfl)
    (fun _ r => by cases r with | ok => rfl | error e => cases e <;> cases hasMain <;> rfl)
    (fun _ => rfl) fun _ p _ => ⟨p, rfl⟩

end SmallCpp
