import SmallCpp.Proofs.Machine.Compatible

/-!
# Relations that runs respect

A relation that evaluation respects may also be passed on by the scopes, loops and calls of the
machine. Then statements respect it, whatever values are computed: first what a statement does if
its inner statements respect it, then, by induction on the bound, every statement, and so a whole
run.  The induction is over what a statement does and how it marks its errors; a relation for which
only the first is known can still be followed through one statement.

## Main results

* `CompatibleRun.execAt` — **statements respect the relation.**
* `CompatibleRun.runMain` — **runs respect the relation.**
-/

namespace SmallCpp

variable {α : Type} {value value' : Expr → Run Value} {m : Machine}
  {K : {α : Type} → Run α → Run α → Prop} {N : Nat → Nat → Prop}

/-- The relation holds between the operations of statements and themselves, and is passed on to
sequences and loops. -/
structure CompatibleParts (m : Machine) (K : {α : Type} → Run α → Run α → Prop) : Prop
    extends Compatible m K where
  exhausted : K (throw .exhausted : Run Unit) (throw .exhausted)
  pull : K pull pull
  emit : ∀ text, K (emit text) (emit text)
  emitLineEnd : K emitLineEnd emitLineEnd
  iterate : ∀ {c d : Run Unit}, K c d → K (iterate c) (iterate d)

/-- The relation holds between every operation of the machine and itself, and is passed on to scopes
and calls.  A stop that is no error may be of any kind. -/
structure CompatibleBody (m : Machine) (K : {α : Type} → Run α → Run α → Prop) : Prop
    extends CompatibleParts m K where
  throw : ∀ {α : Type} (e : Stop), (∀ error position, e ≠ .failed error position) →
    K (throw e : Run α) (throw e)
  exhausted := throw .exhausted nofun
  declareName : ∀ name r, K (declareName name r) (declareName name r)
  callsInProgress : K callsInProgress callsInProgress
  inScope : ∀ {c d : Run Unit}, K c d → K (inScope c) (inScope d)
  call : ∀ {c d : Run Unit} frame, K c d →
    K (returning (calling frame c)) (returning (calling frame d))
  untilReturn : ∀ {c d : Run Unit} hasMain, K c d →
    K (untilReturn hasMain c) (untilReturn hasMain d)

/-- The relation is passed on to statements, which record their positions in errors. -/
structure CompatibleRun (m : Machine) (K : {α : Type} → Run α → Run α → Prop) : Prop
    extends CompatibleBody m K where
  locating : ∀ {c d : Run Unit} position, K c d → K (locating position c) (locating position d)

/-- The statement declares variables in the scope that it stands in. -/
def Stmt.declares : Stmt → Bool
  | .declare _ | .declareAll _ _ => true
  | _ => false

namespace CompatibleParts

variable (h : CompatibleParts m K)

include h

/-! ### Parts of statements -/

theorem forM {f g : α → Run Unit} (hf : ∀ x, K (f x) (g x)) (xs : List α) :
    K (xs.forM f) (xs.forM g) := by
  induction xs with
  | nil => exact h.pure ()
  | cons x xs ih => exact h.bind (hf x) fun _ => ih

theorem ifPresent {f g : α → Run Unit} (hf : ∀ x, K (f x) (g x)) (o : Option α) :
    K (ifPresent f o) (ifPresent g o) := by
  cases o with
  | none => exact h.pure ()
  | some x => exact hf x

theorem holds (hval : ∀ e, K (value e) (value' e)) (e : Expr) :
    K (holds value e) (holds value' e) :=
  h.bind (hval e) fun _ => h.onHeap _

theorem goesOn (hval : ∀ e, K (value e) (value' e)) (o : Option Expr) :
    K (goesOn value o) (goesOn value' o) := by
  cases o with
  | none => exact h.pure true
  | some e => exact h.holds hval e

theorem printPart (hval : ∀ e, K (value e) (value' e)) (e : Expr) :
    K (printPart value e) (printPart value' e) := by
  unfold SmallCpp.printPart
  split
  · exact h.emitLineEnd
  · exact h.bind (hval _) fun v => h.bind (h.onHeap _) fun text => h.emit text

theorem readInto (r : Reference) : K (readInto r) (readInto r) :=
  h.bind h.pull fun _ => h.bind (h.onHeap _) fun v => h.assign r v

/-! ### Loops -/

section Rounds

variable {condition condition' : Run Bool} {update update' body body' again again' : Run Unit}

/-- The part of a round that all loops share: a step is counted and the body is run. -/
theorem iteration {f g : Bool → Run Unit}
    (hbody : K (SmallCpp.iterate body) (SmallCpp.iterate body'))
    (hf : ∀ go, K (f go) (g go)) :
    K (tick m.limits >>= fun _ => SmallCpp.iterate body >>= f)
      (tick m.limits >>= fun _ => SmallCpp.iterate body' >>= g) :=
  h.bind (h.charge 1) fun _ => h.bind hbody hf

theorem whileRound (hcond : K condition condition')
    (hbody : K (SmallCpp.iterate body) (SmallCpp.iterate body')) (hagain : K again again') :
    K (whileRound m.limits condition body again) (whileRound m.limits condition' body' again') := by
  refine h.bind hcond fun go => ?_
  split
  · refine h.iteration hbody fun go' => ?_
    split
    · exact hagain
    · exact h.pure ()
  · exact h.pure ()

theorem doRound (hcond : K condition condition')
    (hbody : K (SmallCpp.iterate body) (SmallCpp.iterate body')) (hagain : K again again') :
    K (doRound m.limits condition body again) (doRound m.limits condition' body' again') := by
  refine h.iteration hbody fun go => ?_
  split
  · refine h.bind hcond fun go' => ?_
    split
    · exact hagain
    · exact h.pure ()
  · exact h.pure ()

theorem forRound (hcond : K condition condition') (hupdate : K update update')
    (hbody : K (SmallCpp.iterate body) (SmallCpp.iterate body')) (hagain : K again again') :
    K (forRound m.limits condition update body again)
      (forRound m.limits condition' update' body' again') := by
  refine h.bind hcond fun go => ?_
  split
  · refine h.iteration hbody fun go' => ?_
    split
    · exact h.bind hupdate fun _ => hagain
    · exact h.pure ()
  · exact h.pure ()

theorem atMost {round round' : Run Unit → Run Unit}
    (hround : ∀ again again', K again again' → K (round again) (round' again')) (bound : Nat) :
    K (atMost bound round) (atMost bound round') := by
  induction bound with
  | zero => exact h.exhausted
  | succ bound ih => exact hround _ _ ih

end Rounds

/-! ### Statements without declarations -/

/-- A statement that declares nothing respects the relation if jumps, its expressions, the scopes of
the statements inside it and loops behind their starts do. -/
theorem perform {run run' : RunStmt} {n n' : Nat} {stmt : Stmt} (hstmt : ¬stmt.declares = true)
    (hthrow : ∀ e : Stop, (∀ error position, e ≠ .failed error position) →
      K (MonadExcept.throw e : Run Unit) (MonadExcept.throw e))
    (hval : ∀ e, K (eval m (invoke m run) (n + 1) e) (eval m (invoke m run') (n' + 1) e))
    (hrefer : ∀ e, K (refer m (invoke m run) (n + 1) e) (refer m (invoke m run') (n' + 1) e))
    (hinside : ∀ stmt, K (inScope (run (n + 2) stmt)) (inScope (run' (n' + 2) stmt)))
    (hblock : ∀ body, K (inScope (runAll run (n + 2) body)) (inScope (runAll run' (n' + 2) body)))
    (hstart : ∀ start (loop loop' : Run Unit), K loop loop' →
      K (inScope (SmallCpp.ifPresent (run (n + 1)) start >>= fun _ => loop))
        (inScope (SmallCpp.ifPresent (run' (n' + 1)) start >>= fun _ => loop'))) (bound : Nat) :
    K (perform m run (SmallCpp.atMost bound) n stmt)
    (perform m run' (SmallCpp.atMost bound) n' stmt) := by
  have hround := fun stmt => h.iterate (hinside stmt)
  rw [perform.eq_def, perform.eq_def]
  dsimp only
  cases stmt with
  | directive | usingNamespace | prototype => exact h.pure ()
  | define signature _ _ => exact h.raise _
  | declare | declareAll => exact absurd rfl hstmt
  | block _ body => exact hblock body
  | branch _ condition positive negative =>
    refine h.bind (h.holds hval condition) fun go => ?_
    split
    · exact hinside positive
    · exact h.ifPresent hinside negative
  | whileLoop _ condition body =>
    exact h.atMost (fun _ _ => h.whileRound (h.holds hval condition) (hround body)) bound
  | doLoop _ body condition =>
    exact h.atMost (fun _ _ => h.doRound (h.holds hval condition) (hround body)) bound
  | forLoop _ start condition update body =>
    exact hstart start _ _ (h.atMost (fun _ _ => h.forRound (h.goesOn hval condition)
      (h.ifPresent (fun e => h.discard (hval e)) update) (hround body)) bound)
  | leave _ value =>
    cases value with
    | none => exact hthrow _ nofun
    | some e => exact h.bind (hval e) fun v => hthrow _ nofun
  | breakLoop | continueLoop => exact hthrow _ nofun
  | read _ targets => exact h.forM (fun e => h.bind (hrefer e) fun r => h.readInto r) targets
  | print _ parts => exact h.forM (h.printPart hval) parts
  | evaluate _ e => exact h.discard (hval e)

end CompatibleParts

namespace CompatibleBody

variable {run run' : RunStmt}

variable (K) in
/-- The two ways to run statements are related, nested as `N` says. -/
def RunsAt (N : Nat → Nat → Prop) (run run' : RunStmt) : Prop :=
  ∀ n n', N n n' → ∀ stmt, K (run n stmt) (run' n' stmt)

variable {n n' : Nat} (h : CompatibleBody m K) (hN : Compatible.Nests m K N)

include h

/-! ### Function bodies -/

theorem runAll (hrun : RunsAt K N run run') (hn : N n n') (ss : List Stmt) :
    K (runAll run n ss) (runAll run' n' ss) := by
  induction ss with
  | nil => exact h.pure ()
  | cons stmt ss ih => exact h.bind (hrun n n' hn stmt) fun _ => ih

include hN in
theorem invoke (hrun : RunsAt K N run run') :
    Compatible.EnteringAt K N (invoke m run) (invoke m run') := by
  intro n n' hn f frame
  refine h.bind h.callsInProgress fun depth => ?_
  dsimp only
  split
  · exact h.raise_bind _
  · exact h.bind (h.call frame (h.runAll hrun (hN.inside hn 2) _)) fun v => h.onHeap _

/-! ### Statements -/

include hN in
/-- A statement respects the relation if the statements inside it do. -/
theorem perform (hrun : RunsAt K N run run') (bound : Nat) (hn : N n n') (stmt : Stmt) :
    K (perform m run (SmallCpp.atMost bound) n stmt)
    (perform m run' (SmallCpp.atMost bound) n' stmt) := by
  have hin := hN.inside hn
  have henter : Compatible.EnteringAt K N (SmallCpp.invoke m run) (SmallCpp.invoke m run') :=
    h.invoke hN hrun
  have hexpr := h.expression hN henter
  have hdecl : ∀ k d, K (declareVariable m (SmallCpp.invoke m run) (n + k) d)
      (declareVariable m (SmallCpp.invoke m run') (n' + k) d) := fun k d =>
    h.bind (h.declaresAt hN henter (hin k) d) fun r => h.declareName d.name r
  by_cases hstmt : stmt.declares = true
  · rw [perform.eq_def, perform.eq_def]
    cases stmt with
    | declare d => exact hdecl 1 d
    | declareAll _ ds => exact h.forM (hdecl 3) ds
    | _ => cases hstmt
  · refine h.toCompatibleParts.perform hstmt h.throw (fun e => (hexpr e).evaluates (hin 1))
      (fun e => (hexpr e).refers (hin 1)) (fun stmt => h.inScope (hrun _ _ (hin 2) stmt))
      (fun body => h.inScope (h.runAll hrun (hin 2) body)) (fun start _ _ hloop => ?_) bound
    exact h.inScope (h.bind (h.ifPresent (hrun _ _ (hin 1)) start) fun _ => hloop)

/-! ### Runs -/

/-- What a run does respects the relation if its statements do. -/
theorem runMain (hrun : RunsAt K Eq run run') : K (runMain m run) (runMain m run') := by
  refine h.bind (h.untilReturn _ (h.runAll hrun rfl m.linked.init)) fun go => ?_
  split
  · split
    · exact h.pure ()
    · exact h.discard (h.invoke h.nests_eq hrun rfl _ [])
  · exact h.pure ()

end CompatibleBody

namespace CompatibleRun

variable (h : CompatibleRun m K) (hN : Compatible.Nests m K N)

include h

include hN in
/-- **Statements respect the relation**, by induction on the steps that are left. -/
theorem execAt (level : Nat) : CompatibleBody.RunsAt K N (exec m level) (exec m level) := by
  induction level with
  | zero => exact fun _ _ _ stmt => h.throw _ nofun
  | succ level ih =>
    intro n n' hn stmt
    exact h.bind (h.charge 1) fun _ => h.locating _ (h.perform hN ih level (hN.inside hn 2) stmt)

/-! ### Runs that are nested alike -/

theorem exec (level n : Nat) (stmt : Stmt) : K (exec m level n stmt) (exec m level n stmt) :=
  h.execAt h.nests_eq level n n rfl stmt

/-- **Runs respect the relation.** -/
theorem runMain (level : Nat) :
    K (runMain m (SmallCpp.exec m level)) (runMain m (SmallCpp.exec m level)) :=
  h.toCompatibleBody.runMain (h.execAt h.nests_eq level)

end CompatibleRun

end SmallCpp
