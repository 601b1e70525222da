import SmallCpp.Proofs.Machine.Evaluation

/-!
# Disciplines of statements and runs

A discipline that holds of every expression holds of every statement too: first of a statement whose
inner statements are run in a way that keeps it, then, by induction on the bound, of the loops and
of `exec`, and so of a whole run.

## Main results

* `Discipline.runs_exec` — **the discipline holds of executing every statement.**
* `Discipline.runMain` — **the discipline holds of every run.**
-/

namespace SmallCpp

variable {s s₀ w : State} {α : Type} {run run' : RunStmt} {k k' : Nat} {f g : α → Run Unit}
  {stmt : Stmt} {e : Expr}

theorem Machine.depth_eq (m : Machine) : m.limits.maxCallDepth = m.limits.maxCallDepth :=
  rfl

theorem zero_iff_of_eq {_ : State} (h : k = k') : k = 0 ↔ k' = 0 :=
  h ▸ Iff.rfl

/-- What is known of the single operations of two machines with similar programs. -/
structure Discipline (m m' : Machine) extends Evaluation Eq m m' where
  /-- The bounds on the recursion of the two machines suit the state. -/
  Room : Nat → Nat → State → Prop
  /- The two machines -/
  depth_eq : m'.limits.maxCallDepth = m.limits.maxCallDepth
  tame_exec : ∀ level, Tame (invoke m (exec m level))
  /- Order of states -/
  after_refl : ∀ s, After s s
  after_scope : ∀ s frames depth, After s { s with frames, depth }
  good_scope : ∀ {s}, Good s → Good { s with frames := [] :: s.frames }
  /- Stops, steps and bounds -/
  throw : ∀ {α s Q} {e : Stop}, Good s → e ≠ .exhausted → (∀ v, e = .returned v → Val s v) →
    Rel s Q (throw e : Run α) (throw e)
  raise hs e := throw hs (by split <;> exact nofun) (by intro v h; split at h <;> cases h)
  check hn hs := checkNesting_rel (K := Rel _ anyway) (pure hs trivial) (throw hs nofun nofun)
    depth_eq hn
  inside := add_of_eq
  room_after : ∀ {k k' s t}, After s t → Room k k' s → Room k k' t
  room_tick : ∀ {k k' s t}, Room (k + 1) (k' + 1) s → Yields (tick m.limits) s () t → Room k k' t
  room_zero : ∀ {k k' s}, Room k k' s → (k = 0 ↔ k' = 0)
  exhausted : ∀ {s}, Good s → Room 0 0 s → Rel s anyway (MonadExcept.throw .exhausted : Run Unit)
    (MonadExcept.throw .exhausted)
  /- Names, input and output -/
  declare : ∀ {s name r}, Good s → Ref s r → Binds name r →
    Rel s anyway (declareName name r) (declareName name r)
  readInto : ∀ {s r}, Good s → Ref s r → Rel s anyway (readInto r) (readInto r)
  emit : ∀ {s v}, Good s → Val s v → Rel s anyway (onHeap (printed v) >>= emit)
    (onHeap (printed v) >>= emit)
  emitLineEnd : ∀ {s}, Good s → Rel s anyway emitLineEnd emitLineEnd
  /- Scopes, loops and calls -/
  depth : ∀ {s}, Good s → Rel s (fun t n => n = t.depth) callsInProgress callsInProgress
  inScope : ∀ {s} {c d : Run Unit}, Good s → Rel { s with frames := [] :: s.frames } anyway c d →
    Rel s anyway (inScope c) (inScope d)
  locating : ∀ {s} {c d : Run Unit} p, Rel s anyway c d → Rel s anyway (locating p c) (locating p d)
  iterate : ∀ {s} {c d : Run Unit}, Rel s anyway c d → Rel s anyway (iterate c) (iterate d)
  result : ∀ {s v} t, Good s → Val s v → Rel s Val (onHeap (resultOf t v)) (onHeap (resultOf t v))
  call : ∀ {s frame} {c d : Run Unit}, Good s → s.depth < m.limits.maxCallDepth →
    (∀ b ∈ frame, Ref s b.2 ∧ Binds b.1 b.2) →
    (Good { s with frames := [frame], depth := s.depth + 1 } →
      Rel { s with frames := [frame], depth := s.depth + 1 } anyway c d) →
    Rel s Val (returning (calling frame c)) (returning (calling frame d))
  untilReturn : ∀ {s b} {c d : Run Unit}, Good s → Rel s anyway c d →
    Rel s anyway (untilReturn b c) (untilReturn b d)

namespace Discipline

variable {m m' : Machine} {D : Discipline m m'}

variable (D) in
/-- The discipline holds of two ways to run statements, in the states after `s₀`. -/
structure Runs (s₀ : State) (run run' : RunStmt) : Prop where
  tame : D.Tame (invoke m run)
  rel : ∀ n stmt s, stmt.Every D.Allows D.Free → D.After s₀ s → D.Good s →
    D.Rel s anyway (run n stmt) (run' n stmt)

/-! ### Statements in order, and function bodies -/

theorem runAll (hrun : D.Runs s₀ run run') (n : Nat) (ss : List Stmt) :
    ∀ s, (∀ stmt ∈ ss, stmt.Every D.Allows D.Free) → D.After s₀ s → D.Good s →
      D.Rel s anyway (runAll run n ss) (runAll run' n ss) := by
  induction ss with
  | nil => exact fun s _ _ hs => D.pure hs trivial
  | cons stmt ss ih =>
    intro s hss hs₀ hs
    rw [SmallCpp.runAll, SmallCpp.runAll]
    refine D.bind (hrun.rel n stmt s (hss stmt List.mem_cons_self) hs₀ hs) fun _ t _ ht hst _ => ?_
    exact ih t (fun u hu => hss u (List.mem_cons_of_mem stmt hu)) (D.after_trans hs₀ hst) ht

/-- Entering a function keeps a discipline that running its statements keeps. -/
theorem enters_invoke (hl : m.linked.EveryFunction D.Allows D.Free)
    (hrun : D.Runs s₀ run run') : D.Enters s₀ (invoke m run) (invoke m' run') := by
  refine ⟨hrun.tame, ?_⟩
  rintro n _ rfl f frame s hf hs₀ hs hfr
  have hbody : ∀ stmt ∈ f.body.getD [], stmt.Every D.Allows D.Free := by
    intro stmt hstmt
    cases hb : f.body with
    | none => rw [hb] at hstmt; cases hstmt
    | some body => rw [hb] at hstmt; exact (hl f hf).body body hb stmt hstmt
  rw [invoke, invoke, D.depth_eq]
  refine D.bind (D.depth hs) fun depth t _ ht hst hdepth => ?_
  subst hdepth
  have hs₀t := D.after_trans hs₀ hst
  dsimp only
  split
  · exact Evaluation.raise_bind ht _
  · next hlt =>
    refine D.bind (D.call ht (by omega) (hfr.after hst) fun hcalled => ?_) ?_
    · exact runAll hrun (n + 2) _ _ hbody (D.after_trans hs₀t (D.after_scope t _ _)) hcalled
    · exact fun v u _ hu _ hv => D.result _ hu hv

/-! ### Loops -/

section Loops

variable (D) in
/-- The discipline holds of a computation in the states after `s₀`. -/
def Throughout {α : Type} (s₀ : State) (c d : Run α) : Prop :=
  ∀ s, D.After s₀ s → D.Good s → D.Rel s anyway c d

variable (D) in
/-- A step was counted between the two states. -/
def Past (s w : State) : Prop :=
  ∃ t u, D.After s t ∧ D.Yields (tick m.limits) t () u ∧ D.After u w

theorem room_past (hroom : D.Room (k + 1) (k' + 1) s) (h : D.Past s w) : D.Room k k' w := by
  obtain ⟨t, u, hst, htick, huw⟩ := h
  exact D.room_after huw (D.room_tick (D.room_after hst hroom) htick)

variable (D) in
/-- The discipline holds of a round of a loop, if it holds of the rest of the loop in the states
that the round reaches it in. -/
def Rounds (s₀ : State) (round round' : Run Unit → Run Unit) : Prop :=
  ∀ again again' s, D.After s₀ s → D.Good s →
    (∀ w, D.After s w → D.Past s w → D.Good w → D.Rel w anyway again again') →
    D.Rel s anyway (round again) (round' again')

variable (D) in
/-- The discipline holds of two ways to run loops, in the states after `s₀`. -/
def Loops (s₀ : State) (loop loop' : RunLoop) : Prop :=
  ∀ round round', D.Rounds s₀ round round' → D.Throughout s₀ (loop round) (loop' round')

variable {cond cond' : Run Bool} {update update' body body' : Run Unit}

theorem Throughout.after {c d : Run α} (h : D.Throughout s₀ c d) (hs : D.After s₀ s) :
    D.Throughout s c d :=
  fun t hst ht => h t (D.after_trans hs hst) ht

/-- The part of a round that all loops share: a step is counted and the body is run. -/
theorem iteration {f g : Bool → Run Unit} (hb : D.Throughout s body body') (hs : D.Good s)
    (hrest : ∀ go w, D.After s w → D.Past s w → D.Good w → D.Rel w anyway (f go) (g go)) :
    D.Rel s anyway (tick m.limits >>= fun _ => SmallCpp.iterate body >>= f)
      (tick m'.limits >>= fun _ => SmallCpp.iterate body' >>= g) := by
  refine D.bind (D.charge 1 hs) fun _ t htick ht hst _ => ?_
  refine D.bind (D.iterate (hb t hst ht)) fun go w _ hw htw _ => ?_
  exact hrest go w (D.after_trans hst htw) ⟨s, t, D.after_refl s, htick, htw⟩ hw

theorem Past.before {t : State} (hst : D.After s t) (h : D.Past t w) : D.Past s w := by
  obtain ⟨t', u, htt', htick, huw⟩ := h
  exact ⟨t', u, D.after_trans hst htt', htick, huw⟩

theorem Past.later {w' : State} (h : D.Past s w) (hww' : D.After w w') : D.Past s w' := by
  obtain ⟨t, u, hst, htick, huw⟩ := h
  exact ⟨t, u, hst, htick, D.after_trans huw hww'⟩

theorem rounds_while (hc : D.Throughout s₀ cond cond') (hb : D.Throughout s₀ body body') :
    D.Rounds s₀ (whileRound m.limits cond body) (whileRound m'.limits cond' body') := by
  intro again again' s hs₀ hs hrest
  refine D.bind (hc s hs₀ hs) fun go t _ ht hst _ => ?_
  split
  · refine iteration (hb.after (D.after_trans hs₀ hst)) ht fun go' w htw hpast hw => ?_
    split
    · exact hrest w (D.after_trans hst htw) (hpast.before hst) hw
    · exact D.pure hw trivial
  · exact D.pure ht trivial

theorem rounds_do (hc : D.Throughout s₀ cond cond') (hb : D.Throughout s₀ body body') :
    D.Rounds s₀ (doRound m.limits cond body) (doRound m'.limits cond' body') := by
  intro again again' s hs₀ hs hrest
  refine iteration (hb.after hs₀) hs fun go t hst hpast ht => ?_
  split
  · refine D.bind (hc t (D.after_trans hs₀ hst) ht) fun go' w _ hw htw _ => ?_
    split
    · exact hrest w (D.after_trans hst htw) (hpast.later htw) hw
    · exact D.pure hw trivial
  · exact D.pure ht trivial

theorem rounds_for (hc : D.Throughout s₀ cond cond') (hu : D.Throughout s₀ update update')
    (hb : D.Throughout s₀ body body') :
    D.Rounds s₀ (forRound m.limits cond update body) (forRound m'.limits cond' update' body') := by
  intro again again' s hs₀ hs hrest
  refine D.bind (hc s hs₀ hs) fun go t _ ht hst _ => ?_
  have hs₀t := D.after_trans hs₀ hst
  split
  · refine iteration (hb.after hs₀t) ht fun go' w htw hpast hw => ?_
    split
    · refine D.bind (hu w (D.after_trans hs₀t htw) hw) fun _ w' _ hw' hww' _ => ?_
      exact hrest w' (D.after_trans hst (D.after_trans htw hww'))
        ((hpast.before hst).later hww') hw'
    · exact D.pure hw trivial
  · exact D.pure ht trivial

theorem bound_cases (hroom : D.Room k k' s) :
    (k = 0 ∧ k' = 0) ∨ ∃ j j', k = j + 1 ∧ k' = j' + 1 := by
  have hzero := D.room_zero hroom
  cases k with
  | zero => exact Or.inl ⟨rfl, hzero.mp rfl⟩
  | succ j =>
    cases k' with
    | zero => exact absurd (hzero.mpr rfl) (Nat.succ_ne_zero j)
    | succ j' => exact Or.inr ⟨j, j', rfl, rfl⟩

/-- **The discipline holds of a loop** if it holds of its rounds, at bounds that suit the state. -/
theorem loops_atMost (k : Nat) : ∀ k' s₀, D.Room k k' s₀ → D.Loops s₀ (atMost k) (atMost k') := by
  induction k with
  | zero =>
    intro k' s₀ hroom round round' _ s hs₀ hs
    obtain rfl : k' = 0 := (D.room_zero hroom).mp rfl
    exact D.exhausted hs (D.room_after hs₀ hroom)
  | succ k ih =>
    intro k' s₀ hroom round round' hround s hs₀ hs
    rcases bound_cases hroom with ⟨h, -⟩ | ⟨_, j', -, rfl⟩
    · exact absurd h (Nat.succ_ne_zero k)
    refine hround (atMost k round) (atMost j' round') s hs₀ hs fun w hsw hpast hw => ?_
    -- The rest of the loop starts in `w`, where the rounds that are left fit the smaller bound.
    have hround' : D.Rounds w round round' := fun again again' t hwt =>
      hround again again' t (D.after_trans (D.after_trans hs₀ hsw) hwt)
    exact ih j' w (room_past (D.room_after hs₀ hroom) hpast) round round' hround' w
      (D.after_refl w) hw

end Loops

/-! ### Statements -/

theorem declareVariable {enter enter' : Enter} {d : Declarator} (hd : d.Every D.Allows D.Free)
    (h : D.Expressions s₀ enter enter') (n : Nat) (hs₀ : D.After s₀ s) (hs : D.Good s) :
    D.Rel s anyway (declareVariable m enter n d) (declareVariable m' enter' n d) :=
  D.bind (Evaluation.declaredLocation hd h rfl hs₀ hs) fun _ _ _ ht _ hr => D.declare ht hr.1 hr.2

theorem forM (xs : List α) (h : ∀ x ∈ xs, D.Throughout s₀ (f x) (g x)) :
    D.Throughout s₀ (xs.forM f) (xs.forM g) := by
  induction xs with
  | nil => exact fun s _ hs => D.pure hs trivial
  | cons x xs ih =>
    intro s hs₀ hs
    show D.Rel s anyway (f x >>= fun _ => xs.forM f) (g x >>= fun _ => xs.forM g)
    refine D.bind (h x List.mem_cons_self s hs₀ hs) fun _ t _ ht hst _ => ?_
    exact ih (fun y hy => h y (List.mem_cons_of_mem x hy)) t (D.after_trans hs₀ hst) ht

theorem ifPresent (o : Option α) (h : ∀ x ∈ o, D.Throughout s₀ (f x) (g x)) :
    D.Throughout s₀ (ifPresent f o) (ifPresent g o) := by
  intro s hs₀ hs
  cases o with
  | none => exact D.pure hs trivial
  | some x => exact h x rfl s hs₀ hs

/-- The body of a loop or the branch of a condition, in a scope of its own. -/
theorem inOwnScope (hrun : D.Runs s₀ run run') (n : Nat) (h : stmt.Every D.Allows D.Free) :
    D.Throughout s₀ (SmallCpp.inScope (run n stmt)) (SmallCpp.inScope (run' n stmt)) := by
  intro s hs₀ hs
  refine D.inScope hs (hrun.rel n stmt _ h ?_ (D.good_scope hs))
  exact D.after_trans hs₀ (D.after_scope s _ s.depth)

section Parts

variable {enter enter' : Enter} (h : D.Expressions s₀ enter enter') (n : Nat)

include h

theorem printPart (he : e.Every D.Allows) :
    D.Throughout s₀ (printPart (eval m enter n) e) (printPart (eval m' enter' n) e) := by
  intro s hs₀ hs
  unfold SmallCpp.printPart
  split
  · exact D.emitLineEnd hs
  · exact D.bind (h.evaluates he rfl s hs₀ hs) fun v t _ ht _ hv => D.emit ht hv

theorem holds (he : e.Every D.Allows) :
    D.Throughout s₀ (holds (eval m enter n) e) (holds (eval m' enter' n) e) :=
  fun s hs₀ hs => D.bind (h.evaluates he rfl s hs₀ hs) fun _ _ _ ht _ hv => D.truth ht hv

theorem goesOn (o : Option Expr) (ho : ∀ e ∈ o, e.Every D.Allows) :
    D.Throughout s₀ (goesOn (eval m enter n) o) (goesOn (eval m' enter' n) o) := by
  cases o with
  | none => exact fun s _ hs => D.pure hs trivial
  | some e => exact holds h n (ho e rfl)

end Parts

/-- Inside a statement, the discipline holds of every expression. -/
theorem expressions (hl : m.linked.EveryFunction D.Allows D.Free) (hrun : D.Runs s₀ run run') :
    D.Expressions s₀ (invoke m run) (invoke m' run') :=
  Evaluation.expressions hl (enters_invoke hl hrun)

/-- A statement keeps a discipline that running the statements and loops inside it keeps. -/
theorem perform (hl : m.linked.EveryFunction D.Allows D.Free) (hrun : D.Runs s₀ run run')
    {loop loop' : RunLoop} (hloop : D.Loops s₀ loop loop') (n : Nat)
    (hstmt : stmt.Every D.Allows D.Free) (hs₀ : D.After s₀ s) (hs : D.Good s) :
    D.Rel s anyway (perform m run loop n stmt) (perform m' run' loop' n stmt) := by
  have h := expressions hl hrun
  have hopen : D.After s { s with frames := [] :: s.frames } := D.after_scope s _ s.depth
  rw [perform.eq_def, perform.eq_def]
  dsimp only
  cases stmt with
  | directive | usingNamespace | prototype => exact D.pure hs trivial
  | define signature _ _ => exact D.raise hs _
  | declare d => exact declareVariable hstmt h (n + 1) hs₀ hs
  | declareAll _ ds =>
    exact forM ds (fun d hd t hs₀t ht => declareVariable (hstmt d hd) h (n + 3) hs₀t ht) s hs₀ hs
  | block _ body =>
    exact D.inScope hs (runAll hrun (n + 2) body _ (Stmt.everyOf_iff.mp hstmt)
      (D.after_trans hs₀ hopen) (D.good_scope hs))
  | branch _ condition positive negative =>
    obtain ⟨hcond, hpos, hneg⟩ := hstmt
    refine D.bind (holds h (n + 1) hcond s hs₀ hs) fun go t _ ht hst _ => ?_
    have hs₀t := D.after_trans hs₀ hst
    split
    · exact inOwnScope hrun (n + 2) hpos t hs₀t ht
    · exact ifPresent negative
        (fun u hu => inOwnScope hrun (n + 2) (Stmt.everyOption_iff.mp hneg u hu)) t hs₀t ht
  | whileLoop _ condition body =>
    exact hloop _ _ (rounds_while (holds h (n + 1) hstmt.1)
      (inOwnScope hrun (n + 2) hstmt.2)) s hs₀ hs
  | doLoop _ body condition =>
    exact hloop _ _ (rounds_do (holds h (n + 1) hstmt.2) (inOwnScope hrun (n + 2) hstmt.1)) s hs₀ hs
  | forLoop _ start condition update body =>
    obtain ⟨hstart, hcond, hupdate, hbody⟩ := hstmt
    have hs₀' := D.after_trans hs₀ hopen
    have hbegin := ifPresent start
      (fun u hu t => hrun.rel (n + 1) u t (Stmt.everyOption_iff.mp hstart u hu)) _ hs₀'
      (D.good_scope hs)
    -- what is declared at the start of the loop lives in a scope around all rounds
    refine D.inScope hs (D.bind hbegin fun _ t _ ht hst _ => ?_)
    have hnext : D.Throughout s₀ _ _ := ifPresent update fun e he u hs₀u hu =>
      Evaluation.discard (h.evaluates (hupdate e he) (rfl : n + 1 = _) u hs₀u hu)
    exact hloop _ _ (rounds_for (goesOn h (n + 1) condition hcond) hnext
      (inOwnScope hrun (n + 2) hbody)) t (D.after_trans hs₀' hst) ht
  | leave _ value =>
    cases value with
    | none => exact D.throw hs nofun fun v hv => by cases hv; exact D.val_simple rfl
    | some e =>
      refine D.bind (h.evaluates (hstmt e rfl) rfl s hs₀ hs) fun v t _ ht _ hv => ?_
      exact D.throw ht nofun fun w hw => by cases hw; exact hv
  | breakLoop | continueLoop => exact D.throw hs nofun nofun
  | read _ targets =>
    refine forM targets (fun e he t hs₀t ht => ?_) s hs₀ hs
    exact D.bind (h.refers (hstmt e he) rfl t hs₀t ht) fun r u _ hu _ hr => D.readInto hu hr
  | print _ parts => exact forM parts (fun e he => printPart h (n + 1) (hstmt e he)) s hs₀ hs
  | evaluate _ e => exact Evaluation.discard (h.evaluates hstmt rfl s hs₀ hs)

/-- **The discipline holds of executing every statement**, at bounds that suit the state. -/
theorem runs_of_functions (hl : m.linked.EveryFunction D.Allows D.Free) (level : Nat) :
    ∀ level' s, D.Room level level' s → D.Runs s (exec m level) (exec m' level') := by
  induction level with
  | zero =>
    intro level' s hroom
    refine ⟨D.tame_exec 0, fun n stmt t _ hst ht => ?_⟩
    obtain rfl : level' = 0 := (D.room_zero hroom).mp rfl
    exact D.exhausted ht (D.room_after hst hroom)
  | succ level ih =>
    intro level' s hroom
    refine ⟨D.tame_exec _, fun n stmt t hstmt hst ht => ?_⟩
    rcases bound_cases hroom with ⟨h, -⟩ | ⟨_, j', -, rfl⟩
    · exact absurd h (Nat.succ_ne_zero level)
    rw [exec, exec]
    refine D.bind (D.charge 1 ht) fun _ u htick hu _ _ => D.locating _ ?_
    have hroom' := D.room_tick (D.room_after hst hroom) htick
    exact perform hl (ih j' u hroom') (loops_atMost level j' u hroom') (n + 2) hstmt
      (D.after_refl u) hu

theorem runs_exec (hl : m.linked.Every D.Allows D.Free) (level level' : Nat) (s : State)
    (hroom : D.Room level level' s) : D.Runs s (exec m level) (exec m' level') :=
  runs_of_functions hl.functions level level' s hroom

/-- **The discipline holds of every run**, if it holds of running statements. -/
theorem runMain (hl : m.linked.Every D.Allows D.Free) (hrun : D.Runs s run run') (hs : D.Good s) :
    D.Rel s anyway (runMain m run) (runMain m' run') := by
  have hinit : D.Rel s anyway (runInit m run) (runInit m' run') := by
    rw [runInit, runInit, D.similar.init, D.similar.main]
    exact D.untilReturn hs (runAll hrun startNesting _ s hl.init (D.after_refl s) hs)
  rw [SmallCpp.runMain, SmallCpp.runMain, D.similar.main]
  refine D.bind hinit fun go t _ ht hst _ => ?_
  split
  · split
    · exact D.pure ht trivial
    · next f hf =>
      exact Evaluation.discard
        ((enters_invoke hl.functions hrun).rel rfl f [] t (Linked.has_of_main? hf)
        hst ht nofun)
  · exact D.pure ht trivial

end Discipline

end SmallCpp
