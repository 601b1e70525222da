import SmallCpp.Proofs.Machine.CompatibleRun
import SmallCpp.Proofs.Machine.Steps

/-!
# Scopes and calls in progress

A scope ends with the statement that opened it, and a call with the expression that made it, however
they end.  So an expression leaves all bindings as they were, and a statement leaves them so too,
unless it declares variables: then it binds their names in the innermost scope.  The number of calls
in progress is the same again afterwards, and it never exceeds its limit in between: what statements
would do beyond the limit makes no difference.

## Main results

* `scope_discipline` — **scopes and calls are restored on every way out.**
-/

namespace SmallCpp

variable {bound : List (String × Reference)} {x : String} {α : Type} {limit : Int} {m : Machine}
  {run run' : RunStmt}

/-! ### Bindings of a state -/

/-- A frame with several names bound, one after the other. -/
def Frame.bindAll (frame : Frame) (bound : List (String × Reference)) : Frame :=
  bound.foldl (fun frame b => Frame.bind b.1 b.2 frame) frame

/-- The state with names bound in the innermost scope, one after the other. -/
def State.declaring (s : State) (bound : List (String × Reference)) : State :=
  match s.frames with
  | [] => { s with globals := s.globals.bindAll bound }
  | frame :: frames => { s with frames := frame.bindAll bound :: frames }

/-- The two states have the same scopes with the same bindings, and as many calls in progress. -/
structure SameNames (s t : State) : Prop where
  frames : t.frames = s.frames
  globals : t.globals = s.globals
  depth : t.depth = s.depth

namespace SameNames

variable {s t u : State}

theorem refl (s : State) : SameNames s s :=
  ⟨rfl, rfl, rfl⟩

theorem trans (h : SameNames s t) (h' : SameNames t u) : SameNames s u :=
  ⟨h'.frames.trans h.frames, h'.globals.trans h.globals, h'.depth.trans h.depth⟩

theorem declaring (h : SameNames s t) (bound : List (String × Reference)) :
    SameNames (s.declaring bound) (t.declaring bound) := by
  unfold State.declaring
  rw [h.frames]
  split
  · exact ⟨rfl, by rw [h.globals], h.depth⟩
  · exact ⟨rfl, h.globals, h.depth⟩

theorem lookup?_eq (h : SameNames s t) (name : String) : t.lookup? name = s.lookup? name := by
  rw [State.lookup?, State.lookup?, h.frames, h.globals]

end SameNames

@[simp]
theorem State.declaring_nil (s : State) : s.declaring [] = s := by
  unfold State.declaring
  split
  · rfl
  · next frame frames hframes =>
    cases s
    cases hframes
    rfl

theorem State.declaring_append (s : State) (bound bound' : List (String × Reference)) :
    s.declaring (bound ++ bound') = (s.declaring bound).declaring bound' := by
  unfold State.declaring
  cases hframes : s.frames with
  | nil => simp [Frame.bindAll]
  | cons frame frames => simp [Frame.bindAll]

@[simp]
theorem State.depth_declaring (s : State) (bound : List (String × Reference)) :
    (s.declaring bound).depth = s.depth := by
  unfold State.declaring
  split <;> rfl

theorem Frame.find?_cons (n : String) (r : Reference) (frame : Frame) (x : String) :
    Frame.find? ((n, r) :: frame) x = if n = x then some r else frame.find? x := by
  rw [Frame.find?, Frame.find?, List.find?_cons]
  by_cases h : n = x
  · simp [h]
  · simp [h, beq_false_of_ne h]

theorem Frame.find?_bind (name : String) (r : Reference) (frame : Frame) (x : String) :
    (Frame.bind name r frame).find? x = if name = x then some r else frame.find? x := by
  induction frame with
  | nil => exact Frame.find?_cons name r [] x
  | cons b frame ih =>
    obtain ⟨n, r'⟩ := b
    rw [Frame.bind]
    by_cases hn : n = name
    · subst hn
      rw [if_pos (by simp), Frame.find?_cons, Frame.find?_cons]
      split <;> rfl
    · rw [if_neg (by simpa using hn), Frame.find?_cons, Frame.find?_cons, ih]
      by_cases hx : n = x
      · rw [if_pos hx, if_pos hx, if_neg fun h => hn (hx.trans h.symm)]
      · rw [if_neg hx, if_neg hx]

theorem State.lookup?_declaring (s : State) (name : String) (r : Reference) :
    (s.declaring [(name, r)]).lookup? name = some r := by
  unfold State.declaring
  split
  · next hframes => simp [State.lookup?, hframes, Frame.bindAll, Frame.find?_bind]
  · simp [State.lookup?, Frame.bindAll, Frame.find?_bind]

theorem Frame.find?_bindAll
    (hx : x ∉ bound.map Prod.fst) :
    ∀ frame : Frame, (frame.bindAll bound).find? x = frame.find? x := by
  induction bound with
  | nil => exact fun _ => rfl
  | cons b bound ih =>
    intro frame
    rw [List.map_cons, List.mem_cons, not_or] at hx
    refine (ih hx.2 (Frame.bind b.1 b.2 frame)).trans ?_
    rw [Frame.find?_bind, if_neg (Ne.symm hx.1)]

theorem State.lookup?_declaring_of_not_mem (s : State)
    (hx : x ∉ bound.map Prod.fst) : (s.declaring bound).lookup? x = s.lookup? x := by
  unfold State.declaring
  split
  · next hframes => simp [State.lookup?, hframes, Frame.find?_bindAll hx]
  · next frame frames hframes =>
    simp only [State.lookup?, hframes, List.findSome?_cons, Frame.find?_bindAll hx]

/-! ### Tidy computations -/

/-- The names that were bound are `names` if the computation returned, and the first of them
else. -/
def Bound {α : Type} (names : List String) (bound : List (String × Reference)) : Ending α → Prop
  | .ok _ _ => bound.map Prod.fst = names
  | .error _ _ => bound.map Prod.fst <+: names

/-- The computation `c` binds `names` in the innermost scope and nothing else, as far as it comes,
and leaves the scopes and the number of calls in progress as they were.  From states within the
limit on calls it does what `d` does. -/
structure Tidy {α : Type} (limit : Int) (names : List String) (c d : Run α) : Prop where
  binds : ∀ s, ∃ bound, Bound names bound (c s) ∧ SameNames (s.declaring bound) (Ending.state (c s))
  agrees : ∀ s, (s.depth : Int) ≤ limit → d s = c s

namespace Tidy

variable {β : Type} {names names' : List String} {c d : Run α}

theorem depth (h : Tidy limit names c d) (s : State) : (Ending.state (c s)).depth = s.depth := by
  obtain ⟨bound, -, hnames⟩ := h.binds s
  rw [hnames.depth, State.depth_declaring]

theorem keeps (h : Tidy limit [] c d) (s : State) : SameNames s (Ending.state (c s)) := by
  obtain ⟨bound, hbd, hnames⟩ := h.binds s
  obtain rfl : bound = [] := by
    cases hc : c s with
    | ok a t =>
      rw [hc] at hbd
      exact List.map_eq_nil_iff.mp hbd
    | error e t =>
      rw [hc] at hbd
      exact List.map_eq_nil_iff.mp (List.prefix_nil.mp hbd)
  rwa [State.declaring_nil] at hnames

theorem of_keeps (h : ∀ s, SameNames s (Ending.state (c s)))
    (hd : ∀ s : State, (s.depth : Int) ≤ limit → d s = c s) : Tidy limit [] c d := by
  refine ⟨fun s => ⟨[], ?_, ?_⟩, hd⟩
  · cases c s with
    | ok a t => rfl
    | error e t => exact List.prefix_rfl
  · rw [State.declaring_nil]
    exact h s

theorem of_same (h : ∀ s, SameNames s (Ending.state (c s))) : Tidy limit [] c c :=
  of_keeps h fun _ _ => rfl

/-- A stop binds nothing, whatever names were to be bound. -/
theorem throw (e : Stop) : Tidy limit names (throw e : Run α) (throw e) where
  binds s := ⟨[], List.nil_prefix, by rw [State.declaring_nil]; exact .refl s⟩
  agrees _ _ := rfl

theorem bind {f g : α → Run β} (h : Tidy limit names c d)
    (hf : ∀ a s t, c s = .ok a t → Tidy limit names' (f a) (g a)) :
    Tidy limit (names ++ names') (c >>= f) (d >>= g) where
  binds s := by
    obtain ⟨bound, hbd, hnames⟩ := h.binds s
    cases hc : c s with
    | error e t =>
      rw [hc] at hbd hnames
      rw [bind_of_error hc]
      exact ⟨bound, List.IsPrefix.trans hbd (List.prefix_append _ _), hnames⟩
    | ok a t =>
      rw [hc] at hbd hnames
      rw [bind_of_ok hc]
      obtain ⟨bound', hbd', hnames'⟩ := (hf a s t hc).binds t
      -- the names of the second computation come on top of those of the first
      have hall := (hnames.declaring bound').trans hnames'
      rw [← State.declaring_append] at hall
      refine ⟨bound ++ bound', ?_, hall⟩
      have hfirst : bound.map Prod.fst = names := hbd
      cases hfa : f a t with
      | ok b u =>
        rw [hfa] at hbd'
        show (bound ++ bound').map Prod.fst = names ++ names'
        rw [List.map_append, hfirst, show bound'.map Prod.fst = names' from hbd']
      | error e u =>
        rw [hfa] at hbd'
        show (bound ++ bound').map Prod.fst <+: names ++ names'
        rw [List.map_append, hfirst]
        exact (List.prefix_append_right_inj names).mpr hbd'
  agrees s hs := by
    have hdepth := h.depth s
    cases hc : c s with
    | error e t => rw [bind_of_error hc, bind_of_error ((h.agrees s hs).trans hc)]
    | ok a t =>
      rw [hc] at hdepth
      rw [bind_of_ok hc, bind_of_ok ((h.agrees s hs).trans hc)]
      refine (hf a s t hc).agrees t ?_
      rw [show t.depth = s.depth from hdepth]
      exact hs

theorem after {f g : α → Run β} (h : Tidy limit [] c d) (hf : ∀ a, Tidy limit names (f a) (g a)) :
    Tidy limit names (c >>= f) (d >>= g) :=
  h.bind fun a _ _ _ => hf a

/-- A computation that treats the outcome of another one and keeps the state. -/
theorem handle {handler : Run α → Run β} (treat : Ending α → Ending β)
    (hrun : ∀ c s, handler c s = treat (c s))
    (hstate : ∀ r, Ending.state (treat r) = Ending.state r) (h : Tidy limit [] c d) :
    Tidy limit [] (handler c) (handler d) := by
  refine of_keeps (fun s => ?_) fun s hs => ?_
  · rw [hrun, hstate]
    exact h.keeps s
  · rw [hrun, hrun, h.agrees s hs]

theorem iterate {c d : Run Unit} (h : Tidy limit [] c d) : Tidy limit [] (iterate c) (iterate d) :=
  handle (fun r => SmallCpp.iterate (fun _ => r) default) (fun _ _ => rfl) (h := h) fun r => by
    cases r with
    | ok a t => rfl
    | error e t => cases e <;> rfl

theorem returning {c d : Run Unit} (h : Tidy limit [] c d) :
    Tidy limit [] (returning c) (returning d) :=
  handle (fun r => SmallCpp.returning (fun _ => r) default) (fun _ _ => rfl) (h := h) fun r => by
    cases r with
    | ok a t => rfl
    | error e t => cases e <;> rfl

/-- Recording a position changes neither the state nor whether a computation returns. -/
theorem locating (position : Position) (h : Tidy limit names c d) :
    Tidy limit names (locating position c) (locating position d) where
  binds s := by
    obtain ⟨bound, hbd, hnames⟩ := h.binds s
    refine ⟨bound, ?_⟩
    rw [SmallCpp.locating]
    split
    · next e t heq =>
      rw [heq] at hbd hnames
      exact ⟨hbd, hnames⟩
    · exact ⟨hbd, hnames⟩
  agrees s hs := by rw [SmallCpp.locating, SmallCpp.locating, h.agrees s hs]

theorem inScope (h : Tidy limit names c d) : Tidy limit [] (inScope c) (inScope d) := by
  refine of_keeps (fun s => ?_) fun s hs => ?_
  · obtain ⟨bound, -, hnames⟩ := h.binds { s with frames := [] :: s.frames }
    rw [SmallCpp.inScope]
    cases hc : c { s with frames := [] :: s.frames } with
    | ok a t =>
      rw [hc] at hnames
      exact ⟨rfl, hnames.globals, hnames.depth⟩
    | error e t =>
      rw [hc] at hnames
      exact ⟨rfl, hnames.globals, hnames.depth⟩
  · have hopened := h.agrees { s with frames := [] :: s.frames } hs
    rw [SmallCpp.inScope, SmallCpp.inScope, hopened]

/-- What was bound in a called function is gone with the call. -/
theorem calling (h : Tidy limit names c d) (frame : Frame) (s : State) :
    SameNames s (Ending.state (calling frame c s)) := by
  obtain ⟨bound, -, hnames⟩ := h.binds { s with frames := [frame], depth := s.depth + 1 }
  rw [SmallCpp.calling]
  cases hc : c { s with frames := [frame], depth := s.depth + 1 } with
  | ok a t =>
    rw [hc] at hnames
    exact ⟨rfl, hnames.globals, rfl⟩
  | error e t =>
    rw [hc] at hnames
    exact ⟨rfl, hnames.globals, rfl⟩

/-- **To put the scopes from before back is to take the innermost scope off**, since the others are
as they were. -/
theorem inScope_eq (h : Tidy limit names c d) (s : State) :
    SmallCpp.inScope c s = match c { s with frames := [] :: s.frames } with
      | .ok a t => .ok a { t with frames := t.frames.tail }
      | .error e t => .error e { t with frames := t.frames.tail } := by
  obtain ⟨bound, -, hnames⟩ := h.binds { s with frames := [] :: s.frames }
  have htail : (Ending.state (c { s with frames := [] :: s.frames })).frames.tail = s.frames := by
    rw [hnames.frames]
    rfl
  rw [SmallCpp.inScope]
  cases hc : c { s with frames := [] :: s.frames } with
  | ok a t | error e t =>
    rw [hc] at htail
    dsimp only
    rw [show t.frames.tail = s.frames from htail]

/-- **To put the number of calls from before back is to count the call off.** -/
theorem calling_eq (h : Tidy limit names c d) (frame : Frame) (s : State) :
    SmallCpp.calling frame c s = match c { s with frames := [frame], depth := s.depth + 1 } with
      | .ok a t => .ok a { t with frames := s.frames, depth := t.depth - 1 }
      | .error e t => .error e { t with frames := s.frames, depth := t.depth - 1 } := by
  have hdepth := h.depth { s with frames := [frame], depth := s.depth + 1 }
  rw [SmallCpp.calling]
  cases hc : c { s with frames := [frame], depth := s.depth + 1 } with
  | ok a t | error e t =>
    rw [hc] at hdepth
    dsimp only
    rw [show t.depth = s.depth + 1 from hdepth, Nat.add_sub_cancel]

end Tidy

/-! ### Expressions -/

theorem sameNames_onHeap (op : HeapM α) (s : State) : SameNames s (Ending.state (onHeap op s)) := by
  rw [onHeap]
  dsimp only
  split <;> exact ⟨rfl, rfl, rfl⟩

theorem sameNames_charge (limits : Limits) (n : Int) (s : State) :
    SameNames s (Ending.state (charge limits n s)) := by
  rw [charge_apply]
  split
  · split <;> exact ⟨rfl, rfl, rfl⟩
  · exact .refl s

theorem sameNames_pull (s : State) : SameNames s (Ending.state (pull s)) := by
  obtain ⟨heap, cells, globals, frames, depth, steps, input, output⟩ := s
  cases input with
  | nil => exact ⟨rfl, rfl, rfl⟩
  | cons token rest => exact ⟨rfl, rfl, rfl⟩

/-- Tidy computations are closed under what statements do, declarations and calls apart. -/
theorem compatible_tidy (m : Machine) (limit : Int) :
    CompatibleParts m fun c d => Tidy limit [] c d where
  pure _ := .of_same fun s => .refl s
  after h hf := h.bind hf
  raise _ := .throw _
  tooDeep := .throw _
  charge n := .of_same (sameNames_charge m.limits n)
  onHeap op := .of_same (sameNames_onHeap op)
  look f hc := .of_same fun s => by rw [hc]; exact .refl s
  lookup _ := .of_same .refl
  setCells _ := .of_same fun _ => ⟨rfl, rfl, rfl⟩
  newVariable _ _ := .of_same fun _ => ⟨rfl, rfl, rfl⟩
  exhausted := .throw _
  pull := .of_same sameNames_pull
  emit _ := .of_same fun _ => ⟨rfl, rfl, rfl⟩
  emitLineEnd := .of_same fun _ => ⟨rfl, rfl, rfl⟩
  iterate h := h.iterate

section Expressions

/-- The names that a statement binds in the scope it stands in. -/
def Stmt.declaredNames : Stmt → List String
  | .declare d => [d.name]
  | .declareAll _ ds => ds.map Declarator.name
  | _ => []

variable (m) in
/-- The two ways to run statements are tidy. -/
def TidyRuns (run run' : RunStmt) : Prop :=
  ∀ n stmt, Tidy m.limits.maxCallDepth stmt.declaredNames (run n stmt) (run' n stmt)

theorem tidy_runAll (h : TidyRuns m run run') (n : Nat) (ss : List Stmt) :
    Tidy m.limits.maxCallDepth (ss.flatMap Stmt.declaredNames) (runAll run n ss)
    (runAll run' n ss) := by
  induction ss with
  | nil => exact .of_same fun s => .refl s
  | cons stmt ss ih => exact (h n stmt).bind fun _ _ _ _ => ih

theorem invoke_apply (m : Machine) (run : RunStmt) (n : Nat) (f : Function) (frame : Frame)
    (s : State) :
    invoke m run n f frame s =
      if m.limits.maxCallDepth ≤ s.depth then raise (.callBudget m.limits.maxCallDepth) s
      else (returning (calling frame (runAll run (n + 2) (f.body.getD []))) >>= fun v =>
        onHeap (resultOf f.signature.returns v)) s := by
  by_cases h : m.limits.maxCallDepth ≤ (s.depth : Int)
  · rw [if_pos h]
    have hdepth : callsInProgress s = .ok s.depth s := rfl
    rw [invoke, bind_of_ok hdepth, if_pos h]
    rfl
  · rw [if_neg h]
    have hdepth : callsInProgress s = .ok s.depth s := rfl
    rw [invoke, bind_of_ok hdepth, if_neg h]

/-- A call leaves the bindings of the caller alone, and is made only within the limit. -/
theorem tidy_invoke (h : TidyRuns m run run') (n : Nat) (f : Function) (frame : Frame) :
    Tidy m.limits.maxCallDepth [] (invoke m run n f frame) (invoke m run' n f frame) := by
  have hbody := tidy_runAll h (n + 2) (f.body.getD [])
  refine .of_keeps (fun s => ?_) fun s hs => ?_
  · rw [invoke_apply]
    split
    · exact .refl s
    · have hcalled : Tidy 0 [] (calling frame (runAll run (n + 2) (f.body.getD []))) _ :=
        .of_same (hbody.calling frame)
      exact (hcalled.returning.after fun v => .of_same (sameNames_onHeap _)).keeps s
  · rw [invoke_apply, invoke_apply]
    split
    · rfl
    · next hlimit =>
      have hcalled : calling frame (runAll run' (n + 2) (f.body.getD [])) s =
          calling frame (runAll run (n + 2) (f.body.getD [])) s := by
        have hinside := hbody.agrees { s with frames := [frame], depth := s.depth + 1 }
          (by dsimp only; omega)
        rw [calling, calling, hinside]
      have hreturned : returning (calling frame (runAll run' (n + 2) (f.body.getD []))) s =
          returning (calling frame (runAll run (n + 2) (f.body.getD []))) s := by
        rw [returning, returning, hcalled]
      simp only [bind, EStateM.bind, hreturned]

theorem entering_invoke (h : TidyRuns m run run') :
    Compatible.Entering (fun c d => Tidy m.limits.maxCallDepth [] c d) (invoke m run)
    (invoke m run') :=
  tidy_invoke h

theorem tidy_eval (h : TidyRuns m run run') (n : Nat) (e : Expr) :
    Tidy m.limits.maxCallDepth [] (eval m (invoke m run) n e) (eval m (invoke m run') n e) :=
  (compatible_tidy m _).evaluates (entering_invoke h) n e

theorem tidy_refer (h : TidyRuns m run run') (n : Nat) (e : Expr) :
    Tidy m.limits.maxCallDepth [] (refer m (invoke m run) n e) (refer m (invoke m run') n e) :=
  (compatible_tidy m _).refers (entering_invoke h) n e

end Expressions

/-! ### Declarations -/

theorem tidy_declaredLocation (h : TidyRuns m run run') (n : Nat) (d : Declarator) :
    Tidy m.limits.maxCallDepth [] (declaredLocation m (invoke m run) n d)
      (declaredLocation m (invoke m run') n d) :=
  (compatible_tidy m _).declaredLocation (entering_invoke h) n d

theorem declareName_apply (name : String) (r : Reference) (s : State) :
    declareName name r s = .ok () (s.declaring [(name, r)]) := by
  obtain ⟨heap, cells, globals, frames, depth, steps, input, output⟩ := s
  cases frames with
  | nil => rfl
  | cons frame frames => rfl

theorem tidy_declareName (name : String) (r : Reference) :
    Tidy limit [name] (declareName name r) (declareName name r) where
  binds s := by
    refine ⟨[(name, r)], rfl, ?_⟩
    rw [declareName_apply]
    exact .refl _
  agrees _ _ := rfl

theorem tidy_declareVariable (h : TidyRuns m run run') (n : Nat) (d : Declarator) :
    Tidy m.limits.maxCallDepth [d.name] (declareVariable m (invoke m run) n d)
      (declareVariable m (invoke m run') n d) :=
  (tidy_declaredLocation h n d).after fun r => tidy_declareName d.name r

/-! ### Statements -/

theorem tidy_forM {f g : α → Run Unit} {names : α → List String} (xs : List α)
    (h : ∀ x, Tidy limit (names x) (f x) (g x)) :
    Tidy limit (xs.flatMap names) (xs.forM f) (xs.forM g) := by
  induction xs with
  | nil => exact .of_same fun s => .refl s
  | cons x xs ih => exact (h x).bind fun _ _ _ _ => ih

theorem declaredNames_of_not_declares {stmt : Stmt} (h : ¬stmt.declares = true) :
    stmt.declaredNames = [] := by
  cases stmt with
  | declare | declareAll => exact absurd rfl h
  | _ => rfl

/-- A statement binds the names that it declares, if the statements inside it do so. -/
theorem tidy_perform (h : TidyRuns m run run') (bound n : Nat) (stmt : Stmt) :
    Tidy m.limits.maxCallDepth stmt.declaredNames (perform m run (atMost bound) n stmt)
      (perform m run' (atMost bound) n stmt) := by
  by_cases hstmt : stmt.declares = true
  · rw [perform.eq_def, perform.eq_def]
    cases stmt with
    | declare d => exact tidy_declareVariable h (n + 1) d
    | declareAll _ ds =>
      have hds := tidy_forM ds (tidy_declareVariable h (n + 3))
      rwa [← List.map_eq_flatMap] at hds
    | _ => cases hstmt
  · rw [declaredNames_of_not_declares hstmt]
    refine (compatible_tidy m _).perform hstmt (fun e _ => .throw e) (tidy_eval h (n + 1))
      (tidy_refer h (n + 1))
      (fun stmt => (h (n + 2) stmt).inScope) (fun body => (tidy_runAll h (n + 2) body).inScope)
      (fun start loop loop' hloop => ?_) bound
    -- The start may declare variables, in the scope of the loop.
    cases start with
    | none => exact Tidy.inScope (Tidy.after (.of_same fun s => .refl s) fun _ => hloop)
    | some stmt => exact Tidy.inScope ((h (n + 1) stmt).bind fun _ _ _ _ => hloop)

/-- Executes statements as `exec` does while no more calls are in progress than the limit allows,
and does what `other` says where there are more. -/
def execWithin (m : Machine) (other : RunStmt) : Nat → Nat → Stmt → Run Unit
  | 0, _, _ => throw .exhausted
  | level + 1, nesting, stmt => fun s =>
    if (s.depth : Int) ≤ m.limits.maxCallDepth then
      (do
        tick m.limits
        locating stmt.position
          (perform m (execWithin m other level) (atMost level) (nesting + 2) stmt) : Run Unit) s
    else other nesting stmt s

/-- **Statements are tidy**, by induction on the steps that are left. -/
theorem tidy_exec (m : Machine) (other : RunStmt) (level : Nat) :
    TidyRuns m (exec m level) (execWithin m other level) := by
  induction level with
  | zero => exact fun n stmt => .throw _
  | succ level ih =>
    intro n stmt
    have htidy := ((compatible_tidy m _).charge 1).after fun _ =>
      (tidy_perform ih level (n + 2) stmt).locating stmt.position
    rw [exec]
    refine ⟨htidy.binds, fun s hs => ?_⟩
    have hwithin := htidy.agrees s hs
    rw [execWithin]
    exact (if_pos hs).trans hwithin

/-- A run that starts within the limit stays within it. -/
theorem tidy_main (h : TidyRuns m run run') (go : Bool) : Tidy m.limits.maxCallDepth []
    (if go = true then (match m.linked.main? with
      | none => pure ()
      | some f => discard (invoke m run startNesting f []) : Run Unit) else pure ())
    (if go = true then (match m.linked.main? with
      | none => pure ()
      | some f => discard (invoke m run' startNesting f []) : Run Unit) else pure ()) := by
  split
  · split
    · exact .of_same fun s => .refl s
    · exact (compatible_tidy m _).discard (tidy_invoke h startNesting _ [])
  · exact .of_same fun s => .refl s

theorem agrees_runMain (h : TidyRuns m run run') {s : State}
    (hs : (s.depth : Int) ≤ m.limits.maxCallDepth) :
    runMain m run' s = runMain m run s := by
  have hbody := tidy_runAll h startNesting m.linked.init
  have hinit : runInit m run' s = runInit m run s := by
    rw [runInit, runInit, untilReturn, untilReturn, hbody.agrees s hs]
  have hdepth : (Ending.state (runInit m run s)).depth = s.depth := by
    have hkept := hbody.depth s
    rw [runInit, untilReturn]
    cases hrun : runAll run startNesting m.linked.init s with
    | ok a t =>
      rw [hrun] at hkept
      exact hkept
    | error e t =>
      rw [hrun] at hkept
      cases e <;> cases m.linked.main?.isSome <;> exact hkept
  cases hrun : runInit m run s with
  | error e t => rw [runMain, runMain, bind_of_error hrun, bind_of_error (hinit.trans hrun)]
  | ok go t =>
    rw [hrun] at hdepth
    rw [runMain, runMain, bind_of_ok hrun, bind_of_ok (hinit.trans hrun)]
    refine (tidy_main h go).agrees t ?_
    rw [show t.depth = s.depth from hdepth]
    exact hs

/-! ### Scopes and calls are restored -/

/-- What a visit that ends with `r` has done to the bindings of the state `s` in which it began: it
bound `names` in the innermost scope, all of them if it returned, and the first of them else. -/
structure Restores {α : Type} (names : List String) (s : State) (r : Ending α) : Prop where
  depth : r.state.depth = s.depth
  /-- The scopes are the same, with the same bindings but for `names` in the innermost one. -/
  scopes : ∃ bound, Bound names bound r ∧ r.state.frames = (s.declaring bound).frames ∧
    r.state.globals = (s.declaring bound).globals

theorem Tidy.restores {names : List String} {c d : Run α}
    (h : Tidy limit names c d) (s : State) : Restores names s (c s) := by
  obtain ⟨bound, hbd, hnames⟩ := h.binds s
  exact ⟨h.depth s, bound, hbd, hnames.frames, hnames.globals⟩

/-- **Scopes and calls are restored on every way out.**  However the evaluation of an expression or
the execution of a statement ends, the scopes are those from before, with the same bindings, and as
many calls are in progress; only a declaration binds its own names, in the innermost scope.  The
number of calls in progress stays within its limit: what statements would do beyond it makes no
difference. -/
theorem scope_discipline (m : Machine) (level n : Nat) (s : State) :
    (∀ e, Restores [] s (eval m (invoke m (exec m level)) n e s) ∧
      Restores [] s (refer m (invoke m (exec m level)) n e s)) ∧
    (∀ stmt, Restores stmt.declaredNames s (exec m level n stmt s)) ∧
    ((s.depth : Int) ≤ m.limits.maxCallDepth → ∀ other : RunStmt,
      (∀ e, eval m (invoke m (execWithin m other level)) n e s =
      eval m (invoke m (exec m level)) n e s ∧
        refer m (invoke m (execWithin m other level)) n e s =
        refer m (invoke m (exec m level)) n e s) ∧
      (∀ stmt, execWithin m other level n stmt s = exec m level n stmt s) ∧
      runMain m (execWithin m other level) s = runMain m (exec m level) s) := by
  have hruns := tidy_exec m
  refine ⟨fun e => ?_, fun stmt => ?_, fun hs other => ⟨fun e => ?_, fun stmt => ?_, ?_⟩⟩
  · have htidy := hruns (fun _ _ => throw .exhausted) level
    exact ⟨(tidy_eval htidy n e).restores s, (tidy_refer htidy n e).restores s⟩
  · exact (hruns (fun _ _ => throw .exhausted) level n stmt).restores s
  · exact ⟨(tidy_eval (hruns other level) n e).agrees s hs,
      (tidy_refer (hruns other level) n e).agrees s hs⟩
  · exact (hruns other level n stmt).agrees s hs
  · exact agrees_runMain (hruns other level) hs

/-- A function that calls itself without end, called by the second variable of a declaration, while
one of two calls that the limit allows is in progress: the first variable is declared, and
everything else is as before. -/
theorem scope_discipline_recursion :
    let pos : Position := ⟨1, 1⟩
    let int : TypeExpr := .of .int []
    let call (x : String) : Expr := .call pos (.name pos "f") [.name pos x]
    let p : Program := ⟨"", [.define ⟨pos, int, "f", [⟨pos, int, "x"⟩], []⟩ pos [
      .declare ⟨pos, int, "y", some (.name pos "x"), .single⟩,
      .leave pos (some (call "y"))]]⟩
    let m : Machine := ⟨p.link, ⟨100, 2⟩⟩
    let stmt : Stmt := .declareAll pos [⟨pos, int, "a", some (.literal pos (.int 1 "1")), .single⟩,
      ⟨pos, int, "b", some (call "a"), .single⟩]
    let s : State := { depth := 1 }
    Restores ["a", "b"] s (exec m 20 0 stmt s) ∧
      (stateAfter (exec m 20 0 stmt) s).globals.map Prod.fst = ["a"] ∧
      (stateAfter (exec m 20 0 stmt) s).cells.size = 4 ∧
      ∀ other, execWithin m other 20 0 stmt s = exec m 20 0 stmt s := by
  intro pos int call p m stmt s
  obtain ⟨-, hstmt, hlimit⟩ := scope_discipline m 20 0 s
  have hdepth : (s.depth : Int) ≤ m.limits.maxCallDepth := by decide
  have hnames : (stateAfter (exec m 20 0 stmt) s).globals.map Prod.fst = ["a"] := by decide +kernel
  have hcells : (stateAfter (exec m 20 0 stmt) s).cells.size = 4 := by decide +kernel
  exact ⟨hstmt stmt, hnames, hcells, fun other => (hlimit hdepth other).2.1 stmt⟩

end SmallCpp
