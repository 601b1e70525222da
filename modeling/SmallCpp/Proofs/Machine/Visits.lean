import SmallCpp.Proofs.Machine.Custody

/-!
# The moments of a run

A run goes through moments: between two evaluations, inside a statement, a scope or a call.  A
moment is a state of the run, and the names that its local scopes have declared as references.
Steps are counted as the run counts them.

## Main results

* `Discipline.Adequate.visits` — **a discipline is kept at every moment.**
-/

namespace SmallCpp

variable {s t : State} {args : List Expr} {d : Declarator} {a b : Moment} {e : Expr} {C : Custody}
  {m : Machine} {P : Expr → Prop}

/-! ### Moments -/

/-- The names that are references, after one more declaration. -/
def noteName (isReference : Bool) (name : String) (names : List String) : List String :=
  if isReference then name :: names else names.filter (· != name)

/-- The names that are references, after a parameter is bound; one without a name is not. -/
def noteParam (names : List String) (p : Param) : List String :=
  if p.name.isEmpty then names else noteName p.type.isReference p.name names

/-- A state of a run, and the names that each local scope has declared as references. -/
structure Moment where
  state : State
  /-- The names, for the innermost scope first. -/
  references : List (List String) := []

namespace Moment

def opened (a : Moment) : Moment :=
  ⟨{ a.state with frames := [] :: a.state.frames }, [] :: a.references⟩

/-- After a scope or a call: the names of the moment `a` are visible again. -/
def back (a : Moment) (t : State) : Moment :=
  ⟨{ t with frames := a.state.frames, depth := a.state.depth }, a.references⟩

/-- The references among the first `count` parameters. -/
def parameters (params : List Param) (count : Nat) : List String :=
  (params.take count).foldl noteParam []

/-- Inside a call that binds its parameters in a frame. -/
def called (u : State) (frame : Frame) (references : List String) : Moment :=
  ⟨{ u with frames := [frame], depth := u.depth + 1 }, [references]⟩

/-- After a declaration in the innermost scope, which is bound to a location. -/
def declared (references : List (List String)) (t : State) (d : Declarator) (r : Reference) :
    Moment :=
  ⟨t.declaring [(d.name, r)], references.modifyHead (noteName d.type.isReference d.name)⟩

end Moment

/-- Something that declares nothing leads from the first state to the second, however it ends. -/
inductive Passes (m : Machine) (P : Expr → Prop) (s : State) : State → Prop
  | counted (n : Int) : Passes m P s (stateAfter (charge m.limits n) s)
  | evaluated (level n : Nat) {e : Expr} (he : e.Every P) :
      Passes m P s (stateAfter (eval m (invoke m (exec m level)) n e) s)
  /-- The location of an expression is looked for. -/
  | referred (level n : Nat) {e : Expr} (he : e.Every P) :
      Passes m P s (stateAfter (refer m (invoke m (exec m level)) n e) s)
  /-- Arguments are bound to the parameters of a function. -/
  | bound (level n : Nat) {f : Function} (hf : m.linked.Has f) {args : List Expr}
      (hargs : ∀ e ∈ args, e.Every P) :
      Passes m P s (stateAfter
      (bindArgs m (invoke m (exec m level)) n f.signature.params args []) s)
  /-- The location of a declared variable is looked for. -/
  | located (level n : Nat) {d : Declarator} (hd : d.Every P fun _ => True) :
      Passes m P s (stateAfter (declaredLocation m (invoke m (exec m level)) n d) s)
  /-- Input is read into the location of an expression. -/
  | input (level n : Nat) {e : Expr} (he : e.Every P) :
      Passes m P s (stateAfter (refer m (invoke m (exec m level)) n e >>= readInto) s)
  | printed (level n : Nat) {e : Expr} (he : e.Every P) :
      Passes m P s (stateAfter (printPart (eval m (invoke m (exec m level)) n) e) s)
  /-- A statement that declares nothing is executed. -/
  | executed (level n : Nat) {stmt : Stmt} (hstmt : stmt.Every P fun _ => True)
      (hnames : stmt.declaredNames = []) : Passes m P s (stateAfter (exec m level n stmt) s)

/-- A run at the first moment may be at the second one later, or inside something that it does then.
It does not matter which expressions and statements the program has at that point, so these are more
moments than those of one run. -/
inductive Visits (m : Machine) (P : Expr → Prop) : Moment → Moment → Prop
  | refl (a : Moment) : Visits m P a a
  | passed {a b : Moment} {t : State} (h : Visits m P a b) (ht : Passes m P b.state t) :
      Visits m P a ⟨t, b.references⟩
  | declared {a b : Moment} (h : Visits m P a b) (level n : Nat) {d : Declarator}
      (hd : d.Every P fun _ => True) {r : Reference} {t : State}
      (hr : declaredLocation m (invoke m (exec m level)) n d b.state = .ok r t) :
      Visits m P a (.declared b.references t d r)
  | inScope {a b c : Moment} (h : Visits m P a b) (hc : Visits m P b.opened c) : Visits m P a c
  | afterScope {a b c : Moment} (h : Visits m P a b) (hc : Visits m P b.opened c) :
      Visits m P a (b.back c.state)
  | inCall {a b c : Moment} (h : Visits m P a b) (level n : Nat) {f : Function}
      (hf : m.linked.Has f) {args : List Expr} (hargs : ∀ e ∈ args, e.Every P) {frame : Frame}
      {u : State}
      (hu : bindArgs m (invoke m (exec m level)) n f.signature.params args [] b.state = .ok frame u)
      (hc : Visits m P (.called u frame (Moment.parameters f.signature.params args.length)) c) :
      Visits m P a c
  | afterCall {a b c : Moment} (h : Visits m P a b) (level n : Nat) {f : Function}
      (hf : m.linked.Has f) {args : List Expr} (hargs : ∀ e ∈ args, e.Every P) {frame : Frame}
      {u : State}
      (hu : bindArgs m (invoke m (exec m level)) n f.signature.params args [] b.state = .ok frame u)
      (hc : Visits m P (.called u frame (Moment.parameters f.signature.params args.length)) c) :
      Visits m P a (b.back c.state)

/-! ### What is left alone -/

theorem tidy_bindArgs {run run' : RunStmt} (h : TidyRuns m run run') (n : Nat) (params : List Param)
    (args : List Expr) (frame : Frame) :
    Tidy m.limits.maxCallDepth [] (bindArgs m (invoke m run) n params args frame)
      (bindArgs m (invoke m run') n params args frame) :=
  (compatible_tidy m _).bindsArgs (entering_invoke h) n params args frame

theorem Passes.sameNames (h : Passes m P s t) : SameNames s t := by
  have htidy := fun level => tidy_exec m (exec m level) level
  have hparts := compatible_tidy m m.limits.maxCallDepth
  cases h with
  | counted n => exact sameNames_charge m.limits n s
  | evaluated level n => exact (tidy_eval (htidy level) n _).keeps s
  | referred level n => exact (tidy_refer (htidy level) n _).keeps s
  | bound level n => exact (tidy_bindArgs (htidy level) n _ _ _).keeps s
  | located level n => exact (tidy_declaredLocation (htidy level) n _).keeps s
  | input level n => exact ((tidy_refer (htidy level) n _).after hparts.readInto).keeps s
  | printed level n => exact (hparts.printPart (tidy_eval (htidy level) n) _).keeps s
  | executed level n _ hnames =>
    have h := htidy level n
    exact (hnames ▸ h _ : Tidy _ [] _ _).keeps s

/-! ### Disciplines -/

/-- The discipline is one of single runs: what it says of a computation holds of the outcome, and
the names of an earlier state may come back. -/
structure Discipline.Adequate (D : Discipline m m) : Prop where
  room : ∀ level s, D.Room level level s
  ok : ∀ {α s t} {Q : State → α → Prop} {c d : Run α} {x : α}, D.Rel s Q c d → D.Good s →
    c s = .ok x t → D.Good t ∧ D.After s t ∧ Q t x
  ends : ∀ {α s} {Q : State → α → Prop} {c d : Run α}, D.Rel s Q c d → D.Good s →
    D.Good (stateAfter c s) ∧ D.After s (stateAfter c s)
  back : ∀ {a : Moment} {t}, D.Good a.state → D.Good t → D.After a.state t → D.Good (a.back t).state
  called : ∀ {s frame references}, D.Good s → D.FrameOk s frame →
    D.Good (Moment.called s frame references).state

namespace Discipline.Adequate

variable {D : Discipline m m} (hD : D.Adequate) (hl : m.linked.EveryFunction D.Allows D.Free)
  (hP : ∀ e, P e → D.Allows e) (hfree : ∀ name, D.Free name)

include hD hl

theorem runs (level : Nat) (s : State) : D.Runs s (exec m level) (exec m level) :=
  Discipline.runs_of_functions hl level level s (hD.room level s)

theorem expressions (level : Nat) (s : State) :
    D.Expressions s (invoke m (exec m level)) (invoke m (exec m level)) :=
  Discipline.expressions hl (hD.runs hl level s)

include hP hfree

theorem bindArgs (hs : D.Good s) (level n : Nat) (params : List Param)
    (hargs : ∀ e ∈ args, e.Every P) :
    D.Rel s D.FrameOk (bindArgs m (invoke m (exec m level)) n params args [])
      (bindArgs m (invoke m (exec m level)) n params args []) :=
  (Evaluation.all hl (Discipline.enters_invoke hl (hD.runs hl level s))
    fun e he => (hargs e he).imp hP).2 rfl params [] s (fun p _ _ => hfree p.name)
    (D.after_refl s) hs nofun

theorem declaredLocation (hs : D.Good s) (level n : Nat) (hd : d.Every P fun _ => True) :
    D.Rel s (fun t r => D.Ref t r ∧ D.Binds d.name r)
      (SmallCpp.declaredLocation m (invoke m (exec m level)) n d)
      (SmallCpp.declaredLocation m (invoke m (exec m level)) n d) :=
  Evaluation.declaredLocation (hd.imp hP fun name _ => hfree name) (hD.expressions hl level s) rfl
    (D.after_refl s) hs

theorem passes (h : Passes m P s t) (hs : D.Good s) : D.Good t ∧ D.After s t := by
  have hrefl := D.after_refl s
  cases h with
  | counted n => exact hD.ends (D.charge n hs) hs
  | evaluated level n he =>
    exact hD.ends ((hD.expressions hl level s).evaluates (he.imp hP) (rfl : n = n) s hrefl hs) hs
  | referred level n he =>
    exact hD.ends ((hD.expressions hl level s).refers (he.imp hP) (rfl : n = n) s hrefl hs) hs
  | bound level n _ hargs => exact hD.ends (hD.bindArgs hl hP hfree hs level n _ hargs) hs
  | located level n hd => exact hD.ends (hD.declaredLocation hl hP hfree hs level n hd) hs
  | input level n he =>
    exact hD.ends (D.bind ((hD.expressions hl level s).refers (he.imp hP) (rfl : n = n) s hrefl hs)
      fun r u _ hu _ hr => D.readInto hu hr) hs
  | printed level n he =>
    exact hD.ends (Discipline.printPart (hD.expressions hl level s) n (he.imp hP) s hrefl hs) hs
  | executed level n hstmt =>
    exact hD.ends ((hD.runs hl level s).rel n _ s (hstmt.imp hP fun name _ => hfree name)
      hrefl hs) hs

/-- **A discipline is kept at every moment of a run.** -/
theorem visits (h : Visits m P a b) (ha : D.Good a.state) :
    D.Good b.state ∧ D.After a.state b.state := by
  -- whatever names are visible, the same variables and containers are there
  have hnames : ∀ {s t : State} (frames : List Frame) (depth : Nat),
      D.After { s with frames, depth } t → D.After s t :=
    fun frames depth hst => D.after_trans (D.after_scope _ frames depth) hst
  have hback : ∀ (a : Moment) {s t : State}, D.After s t → D.After s (a.back t).state :=
    fun a _ t hst => D.after_trans hst (D.after_scope t a.state.frames a.state.depth)
  induction h with
  | refl a => exact ⟨ha, D.after_refl _⟩
  | passed _ ht ih =>
    obtain ⟨hb, hab⟩ := ih ha
    obtain ⟨ht, hbt⟩ := hD.passes hl hP hfree ht hb
    exact ⟨ht, D.after_trans hab hbt⟩
  | @declared _ b _ level n d hd r t hr ih =>
    obtain ⟨hb, hab⟩ := ih ha
    obtain ⟨ht, hbt, hr⟩ := hD.ok (hD.declaredLocation hl hP hfree hb level n hd) hb hr
    obtain ⟨hu, htu, -⟩ := hD.ok (D.declare ht hr.1 hr.2) ht (declareName_apply d.name r t)
    exact ⟨hu, D.after_trans hab (D.after_trans hbt htu)⟩
  | inScope _ _ ih ihc =>
    obtain ⟨hb, hab⟩ := ih ha
    obtain ⟨hc, hbc⟩ := ihc (D.good_scope hb)
    exact ⟨hc, D.after_trans hab (hnames _ _ hbc)⟩
  | @afterScope _ b c _ _ ih ihc =>
    obtain ⟨hb, hab⟩ := ih ha
    obtain ⟨hc, hbc⟩ := ihc (D.good_scope hb)
    have hbc : D.After b.state c.state := hnames _ _ hbc
    exact ⟨hD.back hb hc hbc, hback b (D.after_trans hab hbc)⟩
  | inCall _ level n _ hargs hu _ ih ihc =>
    obtain ⟨hb, hab⟩ := ih ha
    obtain ⟨hu, hbu, hfr⟩ := hD.ok (hD.bindArgs hl hP hfree hb level n _ hargs) hb hu
    obtain ⟨hc, huc⟩ := ihc (hD.called hu hfr)
    exact ⟨hc, D.after_trans hab (D.after_trans hbu (hnames _ _ huc))⟩
  | @afterCall _ b c _ level n _ _ _ hargs _ _ hu _ ih ihc =>
    obtain ⟨hb, hab⟩ := ih ha
    obtain ⟨hu, hbu, hfr⟩ := hD.ok (hD.bindArgs hl hP hfree hb level n _ hargs) hb hu
    obtain ⟨hc, huc⟩ := ihc (hD.called hu hfr)
    have hbc : D.After b.state c.state := D.after_trans hbu (hnames _ _ huc)
    exact ⟨hD.back hb hc hbc, hback b (D.after_trans hab hbc)⟩

end Discipline.Adequate

/-! ### Custody -/

section Parts

variable (hl : m.linked.Every C.Permits C.frees) (level n : Nat)

include hl

theorem runs_custody (s : State) : (custody C m).Runs s (exec m level) (exec m level) :=
  Discipline.runs_exec (D := custody C m) hl level level s rfl

theorem enters_custody (s : State) :
    (custody C m).Enters s (invoke m (exec m level)) (invoke m (exec m level)) :=
  Discipline.enters_invoke (D := custody C m) hl.functions (runs_custody hl level s)

theorem expressions_custody (s : State) :
    (custody C m).Expressions s (invoke m (exec m level)) (invoke m (exec m level)) :=
  Discipline.expressions (D := custody C m) hl.functions (runs_custody hl level s)

theorem guards_eval (he : e.Every C.Permits) :
    Guards C.Within C s (fun t v => C.Val t.heap v) (eval m (invoke m (exec m level)) n e) :=
  .assuming fun hs => (expressions_custody hl level s).evaluates he rfl s (refl_of C.Within s) hs

theorem guards_refer (he : e.Every C.Permits) :
    Guards C.Within C s C.Target (refer m (invoke m (exec m level)) n e) :=
  .assuming fun hs => (expressions_custody hl level s).refers he rfl s (refl_of C.Within s) hs

theorem guards_bindArgs {params : List Param}
    (hpars : ∀ param ∈ params, param.type.isReference = true → C.frees param.name)
    (hargs : ∀ e ∈ args, e.Every C.Permits) :
    Guards C.Within C s (fun t frame => ∀ b ∈ frame, C.Bound t b)
      (bindArgs m (invoke m (exec m level)) n params args []) := by
  refine .assuming fun hs => Maintains.weaken ((Evaluation.all hl.functions
    (enters_custody hl level s) hargs).2 rfl params [] s hpars (refl_of C.Within s) hs nofun)
    fun _ _ _ _ h b hb => ?_
  exact ⟨(h b hb).1, (h b hb).2⟩

theorem guards_declaredLocation (hd : d.Every C.Permits C.frees) :
    Guards C.Within C s (fun t r => C.Bound t (d.name, r))
    (declaredLocation m (invoke m (exec m level)) n d) := by
  refine .assuming fun hs => Maintains.weaken (Evaluation.declaredLocation hd
    (expressions_custody hl level s) rfl (refl_of C.Within s) hs) fun _ _ _ _ h => ?_
  exact ⟨h.1, h.2⟩

end Parts

theorem Custody.Guarded.back (ht : C.Guarded t) (ha : C.Guarded a.state)
    (hat : C.Within a.state t) : C.Guarded (a.back t).state :=
  ht.withNames _ ht.globals fun frame hfr b hb => (ha.frames frame hfr b hb).mono hat.later

theorem Custody.Guarded.called (hs : C.Guarded s) {frame : Frame} (hfr : ∀ b ∈ frame, C.Bound s b)
    (references : List String) : C.Guarded (Moment.called s frame references).state :=
  hs.withNames _ hs.globals fun _ hmem b hb => hfr b (List.mem_singleton.mp hmem ▸ hb)

theorem adequate_custody : (custody C m).Adequate where
  room _ _ := rfl
  ok hc hs hx := hc.ok hs hx
  ends hc hs := Maintains.stateAfter hc hs
  back ha ht hat := ht.back ha hat
  called hs hfr := hs.called (fun b hb => ⟨(hfr b hb).1, (hfr b hb).2⟩) _

theorem Passes.guarded (hl : m.linked.Every C.Permits C.frees) (hP : ∀ e, P e → C.Permits e)
    (h : Passes m P s t) (hs : C.Guarded s) (hfree : ∀ name, C.frees name) :
    C.Guarded t ∧ C.Within s t :=
  adequate_custody.passes hl.functions hP hfree h hs

/-- **Custody is kept at every moment of a run.** -/
theorem Visits.guarded (hl : m.linked.Every C.Permits C.frees)
    (hP : ∀ e, P e → C.Permits e) (h : Visits m P a b) (ha : C.Guarded a.state)
    (hfree : ∀ name, C.frees name) : C.Guarded b.state ∧ C.Within a.state b.state :=
  adequate_custody.visits hl.functions hP hfree h ha

/-! ### Whole runs -/

/-- When a run starts there is nothing that could be held. -/
theorem Custody.guarded_start (hkeep : ∀ loc, C.keep loc) (hcell : ∀ i, C.keepCell i)
    (hheld : ∀ i, ¬C.held i)
    (limits : Limits) (input : List String) : C.Guarded (.start limits input) where
  inv := by
    constructor
    · constructor
      · exact fun ho => nomatch ho
      · exact fun ho => nomatch ho
      · exact fun ho => nomatch ho
      · exact fun ho => nomatch ho
      · exact fun _ => hkeep _
      · exact fun _ hpos => absurd hpos (Nat.lt_irrefl 0)
      · exact .inr (Int.le_refl 0)
    · exact fun _ => Nat.zero_le 1
    · exact fun _ hpos => absurd hpos (Nat.lt_irrefl 0)
  touchCell hc := nomatch hc
  keepCell hc := nomatch hc
  kinds hc := nomatch hc
  pairs hc := nomatch hc
  held hi := absurd hi (hheld _)
  freshCell _ := hcell _
  globals := nofun
  frames := nofun

/-- A run keeps custody to its end. -/
theorem Custody.guarded_run {p : Program} (hp : p.Every C.Permits C.frees)
    {input : List String} {limits : Limits} (hstart : C.Guarded (.start limits input))
    (lines : Array String) :
    C.Guarded (p.run input limits lines).state := by
  cases hfault : limits.fault? with
  | some fault =>
    rw [run_of_fault hfault]
    exact hstart
  | none =>
    rw [run_of_no_fault hfault, reportOf_state]
    let m : Machine := ⟨p.link, limits⟩
    have hl : m.linked.Every C.Permits C.frees := hp.link
    have hrun := Discipline.runMain (D := custody C m) hl
      (runs_custody hl limits.level (.start limits input)) hstart
    exact (Maintains.stateAfter hrun hstart).1

end SmallCpp
