import SmallCpp.Proofs.Machine.Compatible
import SmallCpp.Proofs.Machine.Discipline

/-!
# Counting steps

Only `charge` counts steps.  Every other operation of the machine leaves the counter alone, and no
handler turns the error of an exceeded budget into anything else.  Two runs of one program under two
budgets therefore go through the same states until the smaller budget is used up, and there the
second run stops.
-/

namespace SmallCpp

variable {l l' : Limits} {s : State} {α β : Type} {n small big : Int} {lax : Prop} {f : α → Run β}

/-- How a computation ends. -/
abbrev Ending (α : Type) := EStateM.Result Stop State α

/-- The state at the end of a computation. -/
def Ending.state {α : Type} : Ending α → State
  | .ok _ s => s
  | .error _ s => s

def Ending.isOk {α : Type} : Ending α → Bool
  | .ok _ _ => true
  | .error _ _ => false

theorem Ending.eq_ok_of_isOk {r : Ending Unit} (h : r.isOk = true) : r = .ok () r.state := by
  cases r with
  | ok _ t => rfl
  | error _ _ => cases h

/-- The state that a computation leaves, however it ends. -/
def stateAfter {α : Type} (c : Run α) (s : State) : State :=
  Ending.state (c s)

/-! ### Computations that count no step -/

/-- A computation that counts no step and does not run into the bound of the recursion. -/
structure Uncounted {α : Type} (c : Run α) : Prop where
  steps_eq : ∀ s, (stateAfter c s).steps = s.steps
  not_exhausted : ∀ s t, c s ≠ .error .exhausted t

namespace Uncounted

theorem pure (a : α) : Uncounted (Pure.pure a : Run α) :=
  ⟨fun _ => rfl, fun _ _ h => nomatch h⟩

theorem bind {c : Run α} (hc : Uncounted c) (hf : ∀ a, Uncounted (f a)) : Uncounted (c >>= f) := by
  constructor
  · intro s
    have hsteps := hc.steps_eq s
    rw [stateAfter] at hsteps ⊢
    cases h : c s with
    | ok a t =>
      rw [h] at hsteps
      rw [bind_of_ok h]
      exact ((hf a).steps_eq t).trans hsteps
    | error e t =>
      rw [h] at hsteps
      rw [bind_of_error h]
      exact hsteps
  · intro s t
    cases h : c s with
    | ok a u =>
      rw [bind_of_ok h]
      exact (hf a).not_exhausted u t
    | error e u =>
      rw [bind_of_error h]
      intro heq
      cases heq
      exact hc.not_exhausted s t h

theorem throw {e : Stop} (h : e ≠ .exhausted) : Uncounted (throw e : Run α) :=
  ⟨fun _ => rfl, fun _ _ heq => by cases heq; exact h rfl⟩

theorem raise (e : RuntimeError) : Uncounted (raise e : Run α) := by
  refine throw ?_
  split <;> rintro ⟨⟩

theorem onHeap (c : HeapM α) : Uncounted (onHeap c) := by
  constructor
  · intro s
    rw [stateAfter, SmallCpp.onHeap]
    dsimp only
    split <;> rfl
  · intro s t
    rw [SmallCpp.onHeap]
    dsimp only
    split
    · rintro ⟨⟩
    · next failure _ _ =>
      intro heq
      cases failure <;> cases heq

theorem get : Uncounted (MonadState.get : Run State) :=
  ⟨fun _ => rfl, fun _ _ h => nomatch h⟩

theorem modify {f : State → State} (h : ∀ s, (f s).steps = s.steps) :
    Uncounted (modify f : Run Unit) :=
  ⟨h, fun _ _ h => nomatch h⟩

theorem resolve (id : String) : Uncounted (resolve id) := by
  refine get.bind fun s => ?_
  split
  · exact pure _
  · exact raise _

theorem newVariable (v : Value) (t : TypeExpr) : Uncounted (newVariable v t) :=
  ⟨fun _ => rfl, fun _ _ h => nomatch h⟩

theorem declareName (name : String) (r : Reference) : Uncounted (declareName name r) := by
  refine modify fun s => ?_
  split <;> rfl

theorem store : CompatibleStore fun c _ => Uncounted c where
  pure := .pure
  bind hc hf := hc.bind hf
  raise := .raise
  onHeap := .onHeap
  look f hc := ⟨fun s => by rw [stateAfter, hc]; rfl, fun s t => by rw [hc]; exact nofun⟩
  setCells _ := .modify fun _ => rfl

theorem readInto (r : Reference) : Uncounted (readInto r) := by
  have hpull : Uncounted pull := by
    refine get.bind fun s => ?_
    split
    · exact raise _
    · refine bind (modify ?_) fun _ => pure _
      exact fun _ => rfl
  exact hpull.bind fun token => (onHeap _).bind fun v => store.assign r v

end Uncounted

/-! ### Steps that are counted -/

theorem charge_apply (l : Limits) (n : Int) (s : State) :
    charge l n s =
      if 0 < n then
        if l.maxSteps < s.steps + n then
          raise (.stepBudget l.maxSteps) { s with steps := s.steps + n }
        else .ok () { s with steps := s.steps + n }
      else .ok () s := by
  by_cases hn : 0 < n
  · rw [charge, if_pos hn, if_pos hn]
    by_cases hover : l.maxSteps < s.steps + n
    · rw [if_pos hover]
      show (if l.maxSteps < s.steps + n then _ else _ : Run Unit) _ = _
      rw [if_pos hover]
    · rw [if_neg hover]
      show (if l.maxSteps < s.steps + n then _ else _ : Run Unit) _ = _
      rw [if_neg hover]
      rfl
  · rw [charge, if_neg hn, if_neg hn]
    rfl

theorem tick_eq_ok {t : State} (h : tick l s = .ok () t) :
    t.steps = s.steps + 1 ∧ t.steps ≤ l.maxSteps := by
  rw [tick, charge_apply, if_pos Int.one_pos] at h
  split at h
  · cases h
  · next hle =>
    cases h
    exact ⟨rfl, Int.not_lt.mp hle⟩

/-- The steps after a charge do not depend on the budget. -/
theorem stateAfter_charge (l : Limits) (n : Int) (s : State) :
    (stateAfter (charge l n) s).steps = if 0 < n then s.steps + n else s.steps := by
  rw [stateAfter, charge_apply]
  split
  · split <;> rfl
  · rfl

/-- The outcome is the error of a budget of `n` steps, or, if the message is too long to be written,
the fault of writing it. -/
inductive OverBudget {α : Type} (n : Int) : Ending α → Prop
  | failed (position : Option Position) (s : State)
      (h : (RuntimeError.stepBudget n).isWritable = true) :
      OverBudget n (.error (.failed (.stepBudget n) position) s)
  | fault (s : State) (h : (RuntimeError.stepBudget n).isWritable = false) :
      OverBudget n (.error (.fault .tooManyDigits) s)

theorem overBudget_raise (n : Int) (s : State) :
    OverBudget n (raise (.stepBudget n) s : Ending α) := by
  rw [raise]
  cases h : (RuntimeError.stepBudget n).isWritable with
  | true => exact .failed none s h
  | false => exact .fault s h

theorem OverBudget.bind {c : Run α} (h : OverBudget n (c s)) : OverBudget n ((c >>= f) s) := by
  generalize hc : c s = r at h
  cases h with
  | failed position t h =>
    rw [bind_of_error hc]
    exact .failed position t h
  | fault t h =>
    rw [bind_of_error hc]
    exact .fault t h

/-! ### One computation under two budgets -/

/-- A computation `c` under the budget `big` and the same computation `d` under the budget `small`,
both from the state `s`.  In the lax form nothing is said on how they stop: they may run into the
bound of the recursion, and they may exceed the budget without an error. -/
structure Shadows (lax : Prop) (small big : Int) {α : Type} (s : State) (c d : Run α) : Prop where
  steps_le : s.steps ≤ (stateAfter c s).steps
  /-- The bound of the recursion is reached only if that is allowed. -/
  exhausted : ∀ t, c s = .error .exhausted t → lax
  /-- Within the small budget there is no difference. -/
  same : (stateAfter c s).steps ≤ small → d s = c s
  /-- Beyond the small budget the second computation stops. -/
  beyond : ¬lax → s.steps ≤ small → small < (stateAfter c s).steps → OverBudget small (d s)
  /-- There is no difference between equal budgets. -/
  equal : small = big → d s = c s

namespace Shadows

theorem of_uncounted {c : Run α} (h : Uncounted c) : Shadows lax small big s c c where
  steps_le := Int.le_of_eq (h.steps_eq s).symm
  exhausted t heq := absurd heq (h.not_exhausted s t)
  same _ := rfl
  beyond _ hle hlt := by
    rw [h.steps_eq] at hlt
    omega
  equal _ := rfl

theorem bind {c d : Run α} {g : α → Run β} (h : Shadows lax small big s c d)
    (hf : ∀ a t, c s = .ok a t → Shadows lax small big t (f a) (g a)) :
    Shadows lax small big s (c >>= f) (d >>= g) := by
  cases hc : c s with
  | error e t =>
    have hcf : (c >>= f) s = .error e t := bind_of_error hc
    have hstate : stateAfter (c >>= f) s = stateAfter c s := by
      rw [stateAfter, stateAfter, hcf, hc]
      rfl
    have hdg : d s = c s → (d >>= g) s = (c >>= f) s := fun hd => by
      rw [hcf, bind_of_error (hd.trans hc)]
    refine ⟨?_, ?_, ?_, ?_, fun h' => hdg (h.equal h')⟩
    · rw [hstate]
      exact h.steps_le
    · intro u hu
      rw [hcf] at hu
      cases hu
      exact h.exhausted t hc
    · rw [hstate]
      exact fun h' => hdg (h.same h')
    · rw [hstate]
      exact fun hlax hle hlt => (h.beyond hlax hle hlt).bind
  | ok a t =>
    have hcf : (c >>= f) s = f a t := bind_of_ok hc
    have hstate : stateAfter (c >>= f) s = stateAfter (f a) t := by rw [stateAfter, stateAfter, hcf]
    have hmid : stateAfter c s = t := by rw [stateAfter, hc]; rfl
    have hdg : d s = c s → (d >>= g) s = g a t := fun hd => bind_of_ok (hd.trans hc)
    have hft := hf a t hc
    have hle := h.steps_le
    have hle' := hft.steps_le
    rw [hmid] at hle
    refine ⟨?_, ?_, ?_, ?_, ?_⟩
    · rw [hstate]
      exact Int.le_trans hle hle'
    · rw [hcf]
      exact hft.exhausted
    · rw [hstate]
      intro hsmall
      have ht : (stateAfter c s).steps ≤ small := by rw [hmid]; exact Int.le_trans hle' hsmall
      rw [hdg (h.same ht), hcf]
      exact hft.same hsmall
    · rw [hstate]
      intro hlax hstart hlt
      -- Either the first part is beyond the budget already, or the second part goes beyond it.
      by_cases ht : t.steps ≤ small
      · rw [hdg (h.same (by rw [hmid]; exact ht))]
        exact hft.beyond hlax ht hlt
      · exact (h.beyond hlax hstart (by rw [hmid]; exact Int.not_le.mp ht)).bind
    · intro heq
      rw [hdg (h.equal heq), hcf]
      exact hft.equal heq

theorem charge (hle : l'.maxSteps ≤ l.maxSteps) (n : Int) :
    Shadows lax l'.maxSteps l.maxSteps s (charge l n) (charge l' n) := by
  have hsteps := stateAfter_charge l n s
  refine ⟨?_, ?_, ?_, ?_, ?_⟩
  · rw [hsteps]
    split <;> omega
  · intro t ht
    rw [charge_apply] at ht
    split at ht
    · split at ht
      · exact absurd ht ((Uncounted.raise _).not_exhausted _ t)
      · cases ht
    · cases ht
  · intro h
    rw [hsteps] at h
    rw [charge_apply, charge_apply]
    split
    · next hn =>
      rw [if_pos hn] at h
      rw [if_neg (by omega), if_neg (by omega)]
    · rfl
  · intro _ h h'
    rw [hsteps] at h'
    rw [charge_apply]
    split at h'
    · next hn =>
      rw [if_pos hn, if_pos h']
      exact overBudget_raise l'.maxSteps _
    · omega
  · intro h
    rw [charge_apply, charge_apply, h]

theorem chargeFill (hle : l'.maxSteps ≤ l.maxSteps) (loc : Nat) (method : VectorMethod)
    (args : List Value) :
    Shadows lax l'.maxSteps l.maxSteps s (chargeFill l loc method args)
    (chargeFill l' loc method args) := by
  unfold SmallCpp.chargeFill
  split
  · refine bind (of_uncounted .get) fun _ _ _ => ?_
    exact bind (of_uncounted (.onHeap _)) fun _ _ _ => charge hle _
  · exact bind (of_uncounted (.onHeap _)) fun _ _ _ => charge hle _
  · exact of_uncounted (.pure _)

end Shadows

/-! ### Handlers -/

/-- What a handler may do with an outcome: it counts no step, does not run into the bound of the
recursion and lets the error of the budget pass. -/
structure Transparent {α β : Type} (n : Int) (handle : Ending α → Ending β) : Prop where
  steps_eq : ∀ r, (handle r).state.steps = r.state.steps
  exhausted : ∀ r t, handle r = .error .exhausted t → ∃ u, r = .error .exhausted u
  beyond : ∀ r, OverBudget n r → OverBudget n (handle r)

/-- A handler around a computation that starts with the same number of steps. -/
theorem Shadows.handled {handle : Ending α → Ending β} {s' : State} {c d : Run α} {c' d' : Run β}
    (h : Shadows lax small big s' c d) (hhandle : Transparent small handle)
    (hsteps : s'.steps = s.steps)
    (hc : c' s = handle (c s')) (hd : d' s = handle (d s')) : Shadows lax small big s c' d' := by
  have hstate : (stateAfter c' s).steps = (stateAfter c s').steps := by
    rw [stateAfter, stateAfter, hc, hhandle.steps_eq]
  refine ⟨?_, ?_, ?_, ?_, ?_⟩
  · rw [hstate, ← hsteps]
    exact h.steps_le
  · intro t ht
    obtain ⟨u, hu⟩ := hhandle.exhausted _ t (hc.symm.trans ht)
    exact h.exhausted u hu
  · rw [hstate, hc, hd]
    exact fun hle => congrArg handle (h.same hle)
  · rw [hstate, hd, ← hsteps]
    exact fun hlax hle hlt => hhandle.beyond _ (h.beyond hlax hle hlt)
  · rw [hc, hd]
    exact fun heq => congrArg handle (h.equal heq)

/-- A handler that treats outcomes as its definition says case by case. -/
theorem transparent_of_cases {handle : Ending α → Ending β}
    (hok : ∀ a t, (handle (.ok a t)).state.steps = t.steps ∧
      ∀ u, handle (.ok a t) ≠ .error .exhausted u)
    (herr : ∀ e t, (handle (.error e t)).state.steps = t.steps ∧
      ∀ u, handle (.error e t) = .error .exhausted u → e = .exhausted)
    (hfailed : ∀ e p t, ∃ p' t', handle (.error (.failed e p) t) = .error (.failed e p') t')
    (hfault : ∀ f t, ∃ t', handle (.error (.fault f) t) = .error (.fault f) t') :
    Transparent n handle where
  steps_eq r := by
    cases r with
    | ok a t => exact (hok a t).1
    | error e t => exact (herr e t).1
  exhausted r t h := by
    cases r with
    | ok a u => exact absurd h ((hok a u).2 t)
    | error e u => exact ⟨u, by rw [(herr e u).2 t h]⟩
  beyond r h := by
    cases h with
    | failed p t h =>
      obtain ⟨p', t', heq⟩ := hfailed (.stepBudget n) p t
      rw [heq]
      exact .failed p' t' h
    | fault t h =>
      obtain ⟨t', heq⟩ := hfault .tooManyDigits t
      rw [heq]
      exact .fault t' h

/-- The end of a scope or a call: the frames and the number of calls are restored. -/
def restored {α : Type} (frames : List Frame) (depth : State → Nat) : Ending α → Ending α
  | .ok a t => .ok a { t with frames, depth := depth t }
  | .error e t => .error e { t with frames, depth := depth t }

theorem transparent_restored (n : Int) (frames : List Frame) (depth : State → Nat) :
    Transparent n (restored (α := α) frames depth) := by
  refine transparent_of_cases (fun a t => ⟨rfl, nofun⟩) (fun e t => ⟨rfl, fun u h => ?_⟩)
    (fun e p t => ⟨p, _, rfl⟩) fun f t => ⟨_, rfl⟩
  cases h
  rfl

/-- The position that an error without one gets. -/
def located (p : Position) : Ending Unit → Ending Unit
  | .error (.failed e none) t => .error (.failed e (some p)) t
  | r => r

theorem transparent_located (n : Int) (p : Position) : Transparent n (located p) := by
  refine transparent_of_cases (fun a t => ⟨rfl, nofun⟩) ?_ ?_ fun f t => ⟨_, rfl⟩
  · intro e t
    unfold located
    split
    · next heq =>
      cases heq
      exact ⟨rfl, nofun⟩
    · refine ⟨rfl, fun u h => ?_⟩
      cases h
      rfl
  · intro e p' t
    cases p' with
    | none => exact ⟨_, _, rfl⟩
    | some p' => exact ⟨_, _, rfl⟩

/-- What the outcome of a loop's body means for the loop. -/
def iterated : Ending Unit → Ending Bool
  | .ok _ t => .ok true t
  | .error .continued t => .ok true t
  | .error .broke t => .ok false t
  | .error e t => .error e t

theorem transparent_iterated (n : Int) : Transparent n iterated := by
  refine transparent_of_cases (fun a t => ⟨rfl, nofun⟩) ?_ (fun e p t => ⟨p, _, rfl⟩)
    fun f t => ⟨_, rfl⟩
  intro e t
  cases e with
  | exhausted => exact ⟨rfl, fun _ _ => rfl⟩
  | _ => exact ⟨rfl, nofun⟩

/-- What the outcome of a function's body means for the call. -/
def returnedFrom : Ending Unit → Ending Value
  | .ok _ t => .ok .null t
  | .error (.returned v) t => .ok v t
  | .error .broke t | .error .continued t => raise .loopExitOutsideLoop t
  | .error e t => .error e t

theorem transparent_returnedFrom (n : Int) : Transparent n returnedFrom := by
  refine transparent_of_cases (fun a t => ⟨rfl, nofun⟩) ?_ (fun e p t => ⟨p, _, rfl⟩)
    fun f t => ⟨_, rfl⟩
  intro e t
  cases e with
  | exhausted => exact ⟨rfl, fun _ _ => rfl⟩
  | _ => exact ⟨rfl, nofun⟩

/-- What the outcome of the initialization means for the run. -/
def initialized (hasMain : Bool) : Ending Unit → Ending Bool
  | .ok _ t => .ok true t
  | .error (.returned _) t => if hasMain then raise .returnOutsideFunction t else .ok false t
  | .error e t => .error e t

theorem transparent_initialized (n : Int) (hasMain : Bool) :
    Transparent n (initialized hasMain) := by
  refine transparent_of_cases (fun a t => ⟨rfl, nofun⟩) ?_ (fun e p t => ⟨p, _, rfl⟩)
    fun f t => ⟨_, rfl⟩
  intro e t
  cases e with
  | exhausted => exact ⟨rfl, fun _ _ => rfl⟩
  | returned v =>
    cases hasMain with
    | true => exact ⟨rfl, nofun⟩
    | false => exact ⟨rfl, nofun⟩
  | _ => exact ⟨rfl, nofun⟩

section Handlers

variable {c d : Run Unit}

theorem inScope_apply (c : Run Unit) (s : State) :
    inScope c s = restored s.frames State.depth (c { s with frames := [] :: s.frames }) := by
  rw [inScope]
  cases c { s with frames := [] :: s.frames } <;> rfl

theorem calling_apply (frame : Frame) (c : Run Unit) (s : State) :
    calling frame c s = restored s.frames (fun _ => s.depth)
      (c { s with frames := [frame], depth := s.depth + 1 }) := by
  rw [calling]
  cases c { s with frames := [frame], depth := s.depth + 1 } <;> rfl

theorem locating_apply (p : Position) (c : Run Unit) (s : State) :
    locating p c s = located p (c s) := by
  rw [locating]
  cases c s with
  | ok a t => rfl
  | error e t =>
    cases e with
    | failed e p' => cases p' <;> rfl
    | _ => rfl

theorem Shadows.inScope (h : Shadows lax small big { s with frames := [] :: s.frames } c d) :
    Shadows lax small big s (inScope c) (inScope d) :=
  h.handled (transparent_restored small s.frames State.depth) rfl (inScope_apply c s)
    (inScope_apply d s)

theorem Shadows.calling {frame : Frame}
    (h : Shadows lax small big { s with frames := [frame], depth := s.depth + 1 } c d) :
    Shadows lax small big s (calling frame c) (calling frame d) :=
  h.handled (transparent_restored small s.frames fun _ => s.depth) rfl (calling_apply frame c s)
    (calling_apply frame d s)

theorem Shadows.locating (p : Position) (h : Shadows lax small big s c d) :
    Shadows lax small big s (locating p c) (locating p d) :=
  h.handled (transparent_located small p) rfl (locating_apply p c s) (locating_apply p d s)

theorem Shadows.iterate (h : Shadows lax small big s c d) :
    Shadows lax small big s (iterate c) (iterate d) :=
  h.handled (transparent_iterated small) rfl rfl rfl

theorem Shadows.returning (h : Shadows lax small big s c d) :
    Shadows lax small big s (returning c) (returning d) :=
  h.handled (transparent_returnedFrom small) rfl rfl rfl

theorem Shadows.untilReturn (hasMain : Bool) (h : Shadows lax small big s c d) :
    Shadows lax small big s (untilReturn hasMain c) (untilReturn hasMain d) :=
  h.handled (transparent_initialized small hasMain) rfl rfl rfl

end Handlers

/-! ### The discipline -/

/-- The steps that the budget leaves. -/
def Limits.left (l : Limits) (s : State) : Nat :=
  (l.maxSteps - s.steps).toNat

/-- A computation that counts no steps, and of whose result nothing is known. -/
theorem shadows_uncounted {α : Type} {c : Run α} (h : Uncounted c) :
    Shadows lax small big s c c ∧ ∀ a t, c s = .ok a t → True :=
  ⟨.of_uncounted h, fun _ _ _ => trivial⟩

/-- The discipline of two runs under two budgets. -/
def budget (lax : Prop) {linked linked' : Linked} (hlinked : linked.Similar linked') {l l' : Limits}
    (hsteps : l'.maxSteps ≤ l.maxSteps) (hdepth : l'.maxCallDepth = l.maxCallDepth) :
    Discipline ⟨linked, l⟩ ⟨linked', l'⟩ where
  Allows _ := True
  Free _ := True
  Good _ := True
  After s t := s.steps ≤ t.steps
  Val _ _ := True
  Item _ _ := True
  Fits _ _ _ := True
  Ref _ _ := True
  Binds _ _ := True
  Room k k' s := l.left s < k ∧ (k' = k ∨ l'.maxSteps = l.maxSteps ∧ l.left s < k')
  Tame _ := True
  tame_exec _ := trivial
  Yields c s a t := c s = .ok a t
  Rel s Q c d := Shadows lax l'.maxSteps l.maxSteps s c d ∧ ∀ a t, c s = .ok a t → Q t a
  similar := hlinked
  depth_eq := hdepth
  after_refl s := Int.le_refl s.steps
  after_trans := Int.le_trans
  after_scope s _ _ := Int.le_refl s.steps
  good_scope _ := trivial
  val_after _ _ := trivial
  item_after _ _ := trivial
  ref_after _ _ := trivial
  val_simple _ := trivial
  val_list _ _ _ := trivial
  val_items _ _ _ := trivial
  val_item _ := trivial
  ref_character _ := trivial
  binds_free _ := trivial
  pure _ h := ⟨.of_uncounted (.pure _), fun a t heq => by cases heq; exact h⟩
  bind := by
    intro α β s Q Q' c d f g h hf
    refine ⟨h.1.bind fun a t hc => ?_, fun b u hb => ?_⟩
    · have hle := h.1.steps_le
      rw [stateAfter, hc] at hle
      exact (hf a t hc trivial hle (h.2 a t hc)).1
    · cases hc : c s with
      | ok a t =>
        have hle := h.1.steps_le
        rw [stateAfter, hc] at hle
        rw [bind_of_ok hc] at hb
        exact (hf a t hc trivial hle (h.2 a t hc)).2 b u hb
      | error e t =>
        rw [bind_of_error hc] at hb
        cases hb
  weaken := by
    intro α s Q Q' c d h hQ
    refine ⟨h.1, fun a t hc => hQ t a ?_ (h.2 a t hc)⟩
    have hle := h.1.steps_le
    rw [stateAfter, hc] at hle
    exact hle
  throw _ he _ := ⟨.of_uncounted (.throw he), fun _ _ h => nomatch h⟩
  charge n _ := ⟨.charge hsteps n, fun _ _ _ => trivial⟩
  room_after := by
    intro k k' s t hst hroom
    have hleft : l.left t ≤ l.left s := by
      rw [Limits.left, Limits.left]
      omega
    exact ⟨by omega, hroom.2.imp_right fun h => ⟨h.1, by omega⟩⟩
  room_tick := by
    intro k k' s t hroom htick
    obtain ⟨hone, hle⟩ : t.steps = s.steps + 1 ∧ t.steps ≤ l.maxSteps := tick_eq_ok htick
    have hleft : l.left t + 1 = l.left s := by
      rw [Limits.left, Limits.left]
      omega
    exact ⟨by omega, hroom.2.imp (fun h => by omega) fun h => ⟨h.1, by omega⟩⟩
  room_zero := by
    intro k k' s hroom
    rcases hroom with ⟨hk, rfl | ⟨-, hk'⟩⟩ <;> omega
  exhausted _ hroom := absurd hroom.1 (Nat.not_lt_zero _)
  resolve id _ := shadows_uncounted (.resolve id)
  read _ _ := shadows_uncounted (Uncounted.store.readPlace _)
  step d _ _ := shadows_uncounted (Uncounted.store.stepReference _ d)
  store op _ _ _ _ _ _ := shadows_uncounted (Uncounted.store.storeWith op _ _)
  slot _ _ _ := ⟨.of_uncounted (Uncounted.store.slotOf? _ _), fun _ _ _ _ _ => trivial⟩
  field name _ _ := ⟨.of_uncounted (Uncounted.store.fieldOf? _ name), fun _ _ _ _ _ => trivial⟩
  newCell _ _ := ⟨.of_uncounted (.newVariable _ _), fun _ _ _ => ⟨trivial, fun _ => trivial⟩⟩
  declare _ _ _ := shadows_uncounted (.declareName _ _)
  truth _ _ := shadows_uncounted (.onHeap _)
  index _ _ := shadows_uncounted (.onHeap _)
  fits_val _ := trivial
  default _ _ := shadows_uncounted (.onHeap _)
  coerce _ _ _ := shadows_uncounted (.onHeap _)
  result _ _ _ := shadows_uncounted (.onHeap _)
  newArray _ n _ :=
    ⟨(Shadows.charge hsteps n).bind fun _ _ _ => .of_uncounted (.onHeap _), fun _ _ _ => trivial⟩
  array _ n _ _ _ :=
    ⟨(Shadows.charge hsteps n).bind fun _ _ _ => .of_uncounted (.onHeap _), fun _ _ _ => trivial⟩
  unary _ _ _ := shadows_uncounted (.onHeap _)
  binary _ _ _ _ := shadows_uncounted (.onHeap _)
  element _ _ _ := shadows_uncounted (.onHeap _)
  member _ _ _ := shadows_uncounted (.onHeap _)
  library _ _ _ := shadows_uncounted (.onHeap _)
  vectorCall _ _ _ _ _ _ :=
    ⟨(Shadows.chargeFill hsteps _ _ _).bind fun _ _ _ => .of_uncounted (.onHeap _),
    fun _ _ _ => trivial⟩
  mapCall _ _ _ _ _ _ _ := shadows_uncounted (.onHeap _)
  textCall _ _ _ _ := shadows_uncounted (.onHeap _)
  textChange _ _ _ _ _ _ _ _ _ _ _ _ _ _ _ :=
    shadows_uncounted (Uncounted.store.changeText _ _ _ _)
  readInto _ _ := shadows_uncounted (.readInto _)
  emit _ _ := shadows_uncounted ((Uncounted.onHeap _).bind fun _ => .modify fun _ => rfl)
  emitLineEnd _ := shadows_uncounted (.modify fun _ => rfl)
  depth _ := ⟨.of_uncounted (Uncounted.get.bind fun _ => .pure _), fun _ _ h => by cases h; rfl⟩
  inScope _ h := ⟨h.1.inScope, fun _ _ _ => trivial⟩
  locating p h := ⟨h.1.locating p, fun _ _ _ => trivial⟩
  iterate h := ⟨h.1.iterate, fun _ _ _ => trivial⟩
  call _ _ _ h := ⟨(h trivial).1.calling.returning, fun _ _ _ => trivial⟩
  untilReturn _ h := ⟨h.1.untilReturn _, fun _ _ _ => trivial⟩

end SmallCpp
