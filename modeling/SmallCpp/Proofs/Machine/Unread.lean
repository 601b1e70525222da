import SmallCpp.Proofs.Machine.Carry
import SmallCpp.Proofs.Machine.Visits

/-!
# Unread input

Only `pull` looks at the input, and it takes the first token.  A computation therefore takes tokens
from the front of the input, and unless it stops because there are none left, it does the same
whatever comes after the tokens that it takes.

## Main results

* `unread_input_ignored` — **unread input makes no difference to a run.**
-/

namespace SmallCpp

/-- The state with another input. -/
def State.reading (s : State) (input : List String) : State :=
  { s with input }

/-- The computation asked for an input token when there were none. -/
def Ending.Starved {α : Type} (r : Ending α) : Prop :=
  ∃ position t, r = .error (.failed .inputExhausted position) t

/-- The first run leaves at least `left` of its input, and the second one has `rest` in its place.
Want of input is spared. -/
def exchanged (limits : Limits) (left rest : List String) : Comparison limits where
  Meets g g' := ∃ used, g.input = used ++ left ∧ g' = { g with input := used ++ rest }
  Room g := left <:+ g.input
  Spared e := ∃ position, e = .failed .inputExhausted position
  room_before hbefore hroom := hroom.trans hbefore.input
  charge := by
    rintro g _ n ⟨used, hused, rfl⟩ _
    exact ⟨⟨used, hused, rfl⟩, .rfl⟩
  pull := by
    rintro g _ token input ⟨used, hused, rfl⟩ hinput ⟨more, hmore⟩
    -- the token is not among those that are left
    obtain rfl : used = token :: more := by
      have hboth : used ++ left = token :: more ++ left := by
        rw [← hused, hinput, List.cons_append]
        exact congrArg (token :: ·) hmore.symm
      exact List.append_cancel_right hboth
    exact ⟨more ++ rest, rfl, more, hmore.symm, rfl⟩
  starved _ _ hspared := absurd ⟨none, rfl⟩ hspared
  spared := by
    rintro _ ⟨position, rfl⟩
    exact .inr ⟨_, position, rfl, fun position' => ⟨position', rfl⟩⟩

section Suffix

variable {m : Machine} {P : Expr → Prop} {s t : State} {a b : Moment}

/-- Whatever is done takes tokens from the front of the input. -/
theorem Passes.suffix (h : Passes m P s t) : t.input <:+ s.input := by
  have hrun := (exchanged m.limits [] []).compatibleRun (m := m)
  have henter : ∀ level, Compatible.Entering _ (invoke m (exec m level))
    (invoke m (exec m level)) := fun level _ =>
    hrun.invoke hrun.nests_eq (hrun.execAt hrun.nests_eq level) rfl
  cases h with
  | counted n => exact ((hrun.charge n).before s).input
  | evaluated level n => exact ((hrun.evaluates (henter level) n _).before s).input
  | referred level n => exact ((hrun.refers (henter level) n _).before s).input
  | bound level n => exact ((hrun.bindsArgs (henter level) n _ _ []).before s).input
  | located level n => exact ((hrun.declaredLocation (henter level) n _).before s).input
  | input level n =>
    exact ((hrun.bind (hrun.refers (henter level) n _) hrun.readInto).before s).input
  | printed level n => exact ((hrun.printPart (hrun.evaluates (henter level) n) _).before s).input
  | executed level n => exact ((hrun.exec level n _).before s).input

/-- At every moment of a run, the unread input is the end of the input. -/
theorem Visits.suffix (h : Visits m P a b) : b.state.input <:+ a.state.input := by
  have hlocated : ∀ {level n : Nat} {d : Declarator} {s t : State} {r : Reference},
    d.Every P (fun _ => True) →
      declaredLocation m (invoke m (exec m level)) n d s = .ok r t → t.input <:+ s.input := by
    intro level n d s t r hd hr
    have hpasses := Passes.located (m := m) (s := s) level n hd
    rw [stateAfter, hr] at hpasses
    exact hpasses.suffix
  have hbd : ∀ {level n : Nat} {f : Function} {args : List Expr} {frame : Frame} {s t : State},
    m.linked.Has f →
      (∀ e ∈ args, e.Every P) →
      bindArgs m (invoke m (exec m level)) n f.signature.params args [] s = .ok frame t →
      t.input <:+ s.input := by
    intro level n f args frame s t hf hargs hfr
    have hpasses := Passes.bound (s := s) level n hf hargs
    rw [stateAfter, hfr] at hpasses
    exact hpasses.suffix
  induction h with
  | refl a => exact List.suffix_rfl
  | passed _ ht ih => exact ht.suffix.trans ih
  | @declared _ b _ level n d hd r t hr ih =>
    have hdeclaring : (t.declaring [(d.name, r)]).input = t.input := by
      unfold State.declaring
      split <;> rfl
    exact (hdeclaring ▸ hlocated hd hr : (t.declaring _).input <:+ b.state.input).trans ih
  | inScope _ _ ih ih' | afterScope _ _ ih ih' => exact List.IsSuffix.trans ih' ih
  | inCall _ level n hf hargs hu _ ih ih' | afterCall _ level n hf hargs hu _ ih ih' =>
    exact List.IsSuffix.trans ih' ((hbd hf hargs hu).trans ih)

end Suffix

/-- The report with another input left. -/
def RunReport.leaving (r : RunReport) (input : List String) : RunReport :=
  { r with state := r.state.reading input }

/-- The run failed for want of input. -/
def RunReport.Starved (r : RunReport) : Prop :=
  ∃ e : Error, r.result = .error (.error e) ∧ e.cause = .runtime .inputExhausted

theorem reportOf_leaving (file : String) (lines : Array String) (r : Ending Unit)
    (input : List String) :
    reportOf file lines (Ending.mapState (·.reading input) r) = (reportOf file lines r).leaving
    input := by
  cases r <;> rfl

theorem reportOf_starved {file : String} {lines : Array String} {r : Ending Unit} (h : r.Starved) :
    (reportOf file lines r).Starved := by
  obtain ⟨position, t, rfl⟩ := h
  exact ⟨_, rfl, rfl⟩

/-- The values of variables do not depend on the input. -/
theorem readBindings_reading (frame : Frame) (s : State) (input : List String) :
    readBindings frame (s.reading input) =
      ((readBindings frame s).1, (readBindings frame s).2.reading input) := by
  induction frame generalizing s with
  | nil => rfl
  | cons b frame ih =>
    obtain ⟨name, r⟩ := b
    have hreading : Unrelated (·.reading input) := ⟨fun _ _ => rfl, fun _ _ => rfl⟩
    have hread : r.read (s.reading input) = Ending.mapState (·.reading input) (r.read s) :=
      (Commutes.store hreading).readPlace r.place s
    rw [readBindings, readBindings, hread]
    cases r.read s with
    | ok v t =>
      rw [Ending.mapState_ok]
      dsimp only
      rw [ih]
    | error e t =>
      rw [Ending.mapState_error]
      dsimp only
      rw [ih]

theorem globalValues_leaving (r : RunReport) (input : List String) :
    (r.leaving input).state.globalValues.1 = r.state.globalValues.1 := by
  show (readBindings r.state.globals (r.state.reading input)).1 =
    (readBindings r.state.globals r.state).1
  rw [readBindings_reading]

/-- **Unread input makes no difference to a run.**  A run that leaves `rest` of its input, and did
not fail for want of input, ends in the same way and in the same state if any other tokens stand in
the place of `rest`, and leaves those.  At every moment of a run, the unread input is the end of the
input. -/
theorem unread_input_ignored (p : Program) (limits : Limits) (lines : Array String) :
    (∀ used rest, (p.run (used ++ rest) limits lines).state.input = rest →
      ¬(p.run (used ++ rest) limits lines).Starved → ∀ rest',
        p.run (used ++ rest') limits lines = (p.run (used ++ rest) limits lines).leaving rest' ∧
          (p.run (used ++ rest') limits lines).state.globalValues.1 =
            (p.run (used ++ rest) limits lines).state.globalValues.1) ∧
      ∀ input, (p.run input limits lines).state.input <:+ input ∧
        ∀ P a, Visits ⟨p.link, limits⟩ P ⟨.start limits input, []⟩ a → a.state.input <:+ input := by
  let m : Machine := ⟨p.link, limits⟩
  have hcarries : ∀ left rest, Carries (exchanged limits left rest)
    (runMain m (exec m limits.level))
      (runMain m (exec m limits.level)) := fun left rest =>
    ((exchanged limits left rest).compatibleRun (m := m)).runMain limits.level
  have hrun : ∀ used rest, (p.run (used ++ rest) limits lines).state.input = rest →
      ¬(p.run (used ++ rest) limits lines).Starved → ∀ rest',
        p.run (used ++ rest') limits lines = (p.run (used ++ rest) limits lines).leaving rest' := by
    intro used rest hrest hfed rest'
    cases hfault : limits.fault? with
    | some fault =>
      rw [run_of_fault hfault] at hrest ⊢
      obtain rfl : used = [] := List.append_left_eq_self.mp hrest
      rw [run_of_fault hfault]
      rfl
    | none =>
      rw [run_of_no_fault hfault] at hrest hfed ⊢
      rw [reportOf_state] at hrest
      obtain ⟨_, ⟨more, hmore, rfl⟩, hsame⟩ :=
        (hcarries rest rest').same (.start limits (used ++ rest))
        ⟨0, used ++ rest'⟩ ⟨used, rfl, rfl⟩ ⟨[], hrest.symm⟩ fun e t heq he => by
          obtain ⟨position, rfl⟩ := he
          exact hfed (reportOf_starved ⟨position, t, heq⟩)
      -- nothing was left of the first part of the input
      obtain rfl : more = [] := List.append_left_eq_self.mp (hmore.symm.trans hrest)
      rw [run_of_no_fault hfault, ← reportOf_leaving]
      refine congrArg (reportOf p.file lines) (hsame.trans ?_)
      rw [stateAfter]
      cases runMain m (exec m limits.level) (.start limits (used ++ rest)) <;> rfl
  refine ⟨fun used rest hrest hfed rest' => ?_, fun input => ⟨?_, fun P a h => h.suffix⟩⟩
  · have hsame := hrun used rest hrest hfed rest'
    refine ⟨hsame, ?_⟩
    rw [hsame]
    exact globalValues_leaving _ rest'
  · cases hfault : limits.fault? with
    | some fault =>
      have hinput : (p.run input limits lines).state.input = input := by
        rw [run_of_fault hfault]
        rfl
      exact ⟨[], hinput⟩
    | none =>
      rw [run_of_no_fault hfault, reportOf_state]
      exact ((hcarries [] []).before (.start limits input)).input

/-- A program that reads one word leaves the second one alone, whatever it is. -/
theorem unread_input_ignored_word :
    let pos : Position := ⟨1, 1⟩
    let p : Program := ⟨"", [
      .declare ⟨pos, .of .string [], "word", none, .single⟩,
      .read pos [.name pos "word"], .print pos [.name pos "word"]]⟩
    (p.run (["one"] ++ ["two"]) ⟨100, 10⟩ #[]).state.input = ["two"] ∧
      ∀ rest, p.run (["one"] ++ rest) ⟨100, 10⟩ #[] =
        (p.run (["one"] ++ ["two"]) ⟨100, 10⟩ #[]).leaving rest := by
  intro pos p
  have hinput : (p.run (["one"] ++ ["two"]) ⟨100, 10⟩ #[]).state.input = ["two"] := by
    decide +kernel
  have hres : (p.run (["one"] ++ ["two"]) ⟨100, 10⟩ #[]).result.isOk = true := by decide +kernel
  have hfed : ¬(p.run (["one"] ++ ["two"]) ⟨100, 10⟩ #[]).Starved := by
    rintro ⟨e, he, -⟩
    rw [he] at hres
    cases hres
  refine ⟨hinput, fun rest => ?_⟩
  exact ((unread_input_ignored p ⟨100, 10⟩ #[]).1 ["one"] ["two"] hinput hfed rest).1

end SmallCpp
