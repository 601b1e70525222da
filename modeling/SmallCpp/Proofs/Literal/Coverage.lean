import SmallCpp.Heap.Basic
import SmallCpp.Literal.Check
import SmallCpp.Stmt.Node

/-!
# The declarations that a check reaches

The check of a program goes through its statements and passes over everything that is no
declaration.  Here the declared variables of a program are listed, wherever they stand: in
functions, blocks, branches, loops and the heads of loops, each with the room that the stack has
left there.  The list names the declarations among the nodes of the program in their order, and the
check is the check of the listed variables one after the other, unless the nesting stops it.  So no
declaration is left out, none is checked twice, and the first that is refused ends the check.

A variable is checked as it would be on its own if its initializer can be folded in the room that is
left.

## Main results

* `check_covers` — **the check ends at the first declaration that is refused**, wherever it stands.
-/

namespace SmallCpp

/-- A declared variable, with the frames that are left to its check. -/
structure Declaration where
  room : Nat
  declarator : Declarator

variable {ds es : List Declaration} {d : Declaration} {stop : CheckStop}

/-! ### The declared variables of a program -/

namespace Stmt

mutual

/-- The variables that a statement declares, in source order, where `room` frames are left. -/
@[simp]
def declarations (room : Nat) : Stmt → List Declaration
  | declare d => [⟨room - 2, d⟩]
  | declareAll _ ds => ds.map (⟨room - 2 - 2, ·⟩)
  | define _ _ body => declarationsAll (room - 4) body
  | block _ body => declarationsAll (room - 2) body
  | branch _ _ positive negative =>
    declarations (room - 2) positive ++ declarationsOf (room - 2) negative
  | whileLoop _ _ body | doLoop _ body _ => declarations (room - 2) body
  | forLoop _ start _ _ body => declarationsOf (room - 2) start ++ declarations (room - 2) body
  | _ => []

@[simp]
def declarationsAll (room : Nat) : List Stmt → List Declaration
  | [] => []
  | s :: ss => declarations room s ++ declarationsAll room ss

@[simp]
def declarationsOf (room : Nat) : Option Stmt → List Declaration
  | none => []
  | some s => declarations room s

end

end Stmt

def Program.declarations (p : Program) : List Declaration :=
  Stmt.declarationsAll (Stack.room - 2) p.body

namespace Declaration

def node (d : Declaration) : Node :=
  ⟨"VariableDeclaration", d.declarator.position⟩

/-- The verdict on the variable at its place. -/
def check (d : Declaration) : Option CheckStop :=
  d.declarator.checkIn d.room

def isInitialized (d : Declaration) : Bool :=
  d.declarator.initializer.isSome

/-- The visit of the variable at its place. -/
def visit (d : Declaration) : Checker Unit :=
  d.declarator.checkCounted (d.room + 2)

end Declaration

def Node.isDeclaration (n : Node) : Bool :=
  n.kind == "VariableDeclaration"

/-- The declarations among nodes are those of the variables. -/
def Lists (nodes : List Node) (ds : List Declaration) : Prop :=
  nodes.filter Node.isDeclaration = ds.map Declaration.node

section Nodes

variable {ns ms : List Node}

theorem Lists.append (h : Lists ns ds) (h' : Lists ms es) : Lists (ns ++ ms) (ds ++ es) := by
  rw [Lists, List.filter_append, h, h', List.map_append]

theorem lists_nodes (e : Expr) : Lists e.nodes [] := by
  induction e using Expr.rec (motive_2 := fun es => Lists (Expr.nodesAll es) []) with
  | literal | name | new | endl | nil => rfl
  | unary _ _ _ ih | step _ _ _ ih | member _ _ _ _ ih | newArray _ _ _ ih | braces _ _ ih =>
    exact ih
  | binary _ _ _ _ iha ihb | assign _ _ _ _ iha ihb | index _ _ _ iha ihb | call _ _ _ iha ihb
    | cons _ _ iha ihb =>
    exact iha.append ihb

theorem lists_nodesAll (es : List Expr) : Lists (Expr.nodesAll es) [] := by
  induction es with
  | nil => rfl
  | cons e es ih => exact (lists_nodes e).append ih

theorem lists_nodesOf (e : Option Expr) : Lists (Expr.nodesOf e) [] := by
  cases e with
  | none => rfl
  | some e => exact lists_nodes e

theorem Declarator.lists (room : Nat) (d : Declarator) : Lists d.nodes [⟨room, d⟩] := by
  obtain ⟨position, type, name, initializer, extent⟩ := d
  refine congrArg (_ :: ·) ((lists_nodesOf initializer).append ?_)
  cases extent with
  | sized size => exact lists_nodes size
  | _ => rfl

theorem Signature.lists (s : Signature) : Lists s.paramNodes [] := by
  rw [Lists, Signature.paramNodes, List.filter_eq_nil_iff.mpr]
  · rfl
  · simp [Node.isDeclaration]

theorem Stmt.lists (room : Nat) (s : Stmt) : Lists s.nodes (s.declarations room) := by
  induction s using Stmt.rec (motive_2 :=
    fun ss => ∀ room, Lists (nodesAll ss) (declarationsAll room ss))
    (motive_3 := fun o => ∀ room, Lists (nodesOf o) (declarationsOf room o)) generalizing room with
  | declare d => exact d.lists _
  | declareAll _ ds =>
    change Lists (ds.flatMap Declarator.nodes) (ds.map (⟨room - 2 - 2, ·⟩))
    induction ds with
    | nil => rfl
    | cons d ds ih => exact (d.lists _).append ih
  | prototype s => exact s.lists
  | define s _ _ ih => exact s.lists.append (ih _)
  | block _ _ ih => exact ih _
  | branch _ e _ _ ih ih' => exact ((lists_nodes e).append (ih _)).append (ih' _)
  | whileLoop _ e _ ih => exact (lists_nodes e).append (ih _)
  | doLoop _ _ e ih =>
    have hboth := (ih (room - 2)).append (lists_nodes e)
    rwa [List.append_nil] at hboth
  | forLoop _ _ e e' _ ih ih' =>
    have hhead := ((ih (room - 2)).append (lists_nodesOf e)).append (lists_nodesOf e')
    rw [List.append_nil, List.append_nil] at hhead
    exact hhead.append (ih' _)
  | leave _ e => exact lists_nodesOf e
  | read _ es | print _ es => exact lists_nodesAll es
  | evaluate _ e => exact lists_nodes e
  | directive | usingNamespace | breakLoop | continueLoop | nil | none => rfl
  | cons _ _ ih ih' => exact (ih _).append (ih' _)
  | some _ ih => exact ih _

/-- The listed variables are the declarations among the nodes of a program. -/
theorem Program.filter_nodes (p : Program) :
    p.nodes.filter Node.isDeclaration = p.declarations.map Declaration.node := by
  have hall : ∀ ss, Lists (Stmt.nodesAll ss) (Stmt.declarationsAll (Stack.room - 2) ss) :=
      fun ss => by
    induction ss with
    | nil => rfl
    | cons s ss ih => exact (s.lists _).append ih
  exact hall p.body

end Nodes

/-! ### The check, variable by variable -/

/-- The check stops at the limit of nesting, or it is the check of the variables in order. -/
def Sweeps (c : Checker Unit) (ds : List Declaration) : Prop :=
  ∀ n, (∃ k, c n = .error .tooDeep k) ∨ c n = (forM ds Declaration.visit : Checker Unit) n

namespace Sweeps

variable {c c' : Checker Unit}

theorem refl (ds : List Declaration) : Sweeps (forM ds Declaration.visit) ds :=
  fun _ => .inr rfl

theorem bind (h : Sweeps c ds) (h' : Sweeps c' es) : Sweeps (c >>= fun _ => c') (ds ++ es) := by
  intro n
  rw [List.forM_append]
  rcases h n with ⟨k, hdeep⟩ | hc
  · exact .inl ⟨k, bind_of_error hdeep⟩
  · cases hds : (forM ds Declaration.visit : Checker Unit) n with
    | error stop k => exact .inr ((bind_of_error (hc.trans hds)).trans (bind_of_error hds).symm)
    | ok _ k =>
      rw [bind_of_ok (hc.trans hds), bind_of_ok hds]
      exact h' k

theorem visit (room : Nat) : Sweeps (visit room) [] := by
  unfold SmallCpp.visit
  split
  · exact fun n => .inl ⟨n, rfl⟩
  · exact refl []

theorem passOver (room : Nat) (es : List Expr) : Sweeps (passOver room es) [] := by
  unfold SmallCpp.passOver
  split
  · exact refl []
  · exact fun n => .inl ⟨n, rfl⟩

theorem params (room : Nat) (s : Signature) : Sweeps (s.passOver room) [] := by
  unfold Signature.passOver
  split
  · exact refl []
  · exact visit room

/-- A variable that cannot be visited stops the check; any other one is visited with two frames
less. -/
theorem declaration (room : Nat) (d : Declarator) :
    Sweeps (d.checkCounted room) [⟨room - 2, d⟩] := by
  rw [Sweeps, List.forM_cons, List.forM_nil, bind_pure_unit]
  by_cases hroom : room < 2
  · refine fun n => .inl ⟨n, bind_of_error ?_⟩
    rw [SmallCpp.visit, if_pos hroom]
    rfl
  · rw [Declaration.visit, Nat.sub_add_cancel (Nat.not_lt.mp hroom)]
    exact fun n => .inr rfl

theorem declarations (room : Nat) (ds : List Declarator) :
    Sweeps (forM ds (Declarator.checkCounted room)) (ds.map (⟨room - 2, ·⟩)) := by
  induction ds with
  | nil => exact refl []
  | cons d ds ih =>
    rw [List.forM_cons]
    exact (declaration room d).bind ih

/-- By induction on the statement, each one sweeps what it declares. -/
theorem check (room : Nat) (stmt : Stmt) : Sweeps (stmt.check room) (stmt.declarations room) := by
  induction stmt using Stmt.rec (motive_2 :=
    fun ss => ∀ room, Sweeps (Stmt.checkAll room ss) (Stmt.declarationsAll room ss))
    (motive_3 := fun o => ∀ room, Sweeps (Stmt.checkOption room o) (Stmt.declarationsOf room o))
    generalizing room with
  | declare d => rw [Stmt.check]; exact declaration room d
  | declareAll _ ds => rw [Stmt.check]; exact (visit room).bind (declarations _ ds)
  | prototype s => rw [Stmt.check]; exact (visit room).bind (params _ s)
  | define s _ _ ih =>
    rw [Stmt.check]; exact (visit room).bind ((params _ s).bind ((visit _).bind (ih _)))
  | block _ _ ih => rw [Stmt.check]; exact (visit room).bind (ih _)
  | branch _ _ _ _ ih ih' =>
    rw [Stmt.check]; exact (visit room).bind ((passOver _ _).bind ((ih _).bind (ih' _)))
  | whileLoop _ _ _ ih => rw [Stmt.check]; exact (visit room).bind ((passOver _ _).bind (ih _))
  | doLoop _ _ condition ih =>
    have hboth := (ih (room - 2)).bind (passOver (room - 2) [condition])
    rw [List.append_nil] at hboth
    rw [Stmt.check]
    exact (visit room).bind hboth
  | forLoop _ _ _ _ _ ih ih' =>
    rw [Stmt.check]
    exact (visit room).bind ((ih _).bind ((passOver _ _).bind ((passOver _ _).bind (ih' _))))
  | leave | read | print | evaluate => rw [Stmt.check]; exact (visit room).bind (passOver _ _)
  | directive | usingNamespace | breakLoop | continueLoop => rw [Stmt.check]; exact visit room
  | nil => rw [Stmt.checkAll]; exact refl []
  | cons _ _ ih ih' => rw [Stmt.checkAll]; exact (ih _).bind (ih' _)
  | none => rw [Stmt.checkOption]; exact refl []
  | some _ ih => rw [Stmt.checkOption]; exact ih _

theorem checkAll (room : Nat) (ss : List Stmt) :
    Sweeps (Stmt.checkAll room ss) (Stmt.declarationsAll room ss) := by
  induction ss with
  | nil => rw [Stmt.checkAll]; exact refl []
  | cons s ss ih => rw [Stmt.checkAll]; exact (check room s).bind ih

end Sweeps

theorem Declaration.visit_eq (d : Declaration) (n : Nat) :
    d.visit n = match d.check with
      | none => .ok () (n + [d].countP isInitialized)
      | some stop => .error stop (n + [d].countP isInitialized) := by
  unfold visit Declarator.checkCounted SmallCpp.visit
  rw [if_neg (by omega), Nat.add_sub_cancel, ← check]
  cases hinitializer :
    d.declarator.initializer <;> cases d.check <;> simp [isInitialized, hinitializer] <;> rfl

theorem forM_visit (h : ∀ d ∈ ds, d.check = none) (n : Nat) :
    (forM ds Declaration.visit : Checker Unit) n =
    .ok () (n + ds.countP Declaration.isInitialized) := by
  induction ds generalizing n with
  | nil => rfl
  | cons d ds ih =>
    obtain ⟨hd, hds⟩ := List.forall_mem_cons.mp h
    have hfirst := d.visit_eq n
    rw [hd] at hfirst
    rw [List.forM_cons, bind_of_ok hfirst, ih hds, Nat.add_assoc, ← List.countP_append]
    rfl

theorem forM_visit_error {front back : List Declaration} (hfront : ∀ e ∈ front, e.check = none)
    (hd : d.check = some stop) (n : Nat) :
    (forM (front ++ d :: back) Declaration.visit : Checker Unit) n =
      .error stop (n + (front ++ [d]).countP Declaration.isInitialized) := by
  have hlast := d.visit_eq (n + front.countP Declaration.isInitialized)
  rw [hd] at hlast
  rw [List.forM_append, bind_of_ok (forM_visit hfront n), List.forM_cons, bind_of_error hlast,
    List.countP_append, Nat.add_assoc]

/-- The first of the variables that the check refuses, if there is one. -/
theorem exists_first_refused (ds : List Declaration) : (∀ d ∈ ds, d.check = none) ∨
    ∃ front d back stop, ds = front ++ d :: back ∧ (∀ e ∈ front, e.check = none) ∧
    d.check = some stop := by
  cases hfind : ds.find? fun d => d.check.isSome with
  | none => exact .inl fun d hd => by simpa using List.find?_eq_none.mp hfind d hd
  | some d =>
    obtain ⟨hd, front, back, hds, hfront⟩ := List.find?_eq_some_iff_append.mp hfind
    obtain ⟨stop, hstop⟩ := Option.isSome_iff_exists.mp hd
    exact .inr ⟨front, d, back, stop, hds, fun e he => by simpa using hfront e he, hstop⟩

/-- The check of a program stops at the limit of nesting, or it is the check of its variables in
order. -/
theorem Program.sweeps (p : Program) : Sweeps p.checkAll p.declarations :=
  .checkAll (Stack.room - 2) p.body

/-- What ends the check is what is wrong with a declared variable. -/
theorem Program.exists_of_stop {p : Program} (h : p.check.stop = some stop) :
    ∃ d ∈ p.declarations, d.check = some stop := by
  unfold Program.check at h
  rcases p.sweeps 0 with ⟨k, hdeep⟩ | hrun
  · rw [hdeep] at h
    cases h
  rcases exists_first_refused p.declarations with hall | ⟨front, d, back, stop', hds, hfront, hd⟩
  · rw [hrun, forM_visit hall] at h
    cases h
  · refine ⟨d, hds ▸ List.mem_append_right front List.mem_cons_self, ?_⟩
    rw [hrun, hds, forM_visit_error hfront hd] at h
    cases stop' with
    | tooDeep => cases h
    | _ => exact hd.trans h

/-! ### The check of a variable on its own -/

theorem ne_tooDeep_of_bind {α β : Type} {x : Except FoldStop α} {f : α → Except FoldStop β}
    (h : (x >>= f) ≠ .error .tooDeep) : x ≠ .error .tooDeep := by
  rintro rfl
  exact h rfl

/-- In more room an expression that fits is folded to the same result. -/
theorem Expr.foldWithin_of_le {room room' : Nat} (hle : room ≤ room') (e : Expr)
    (h : e.foldWithin room ≠ .error .tooDeep) : e.foldWithin room' = e.foldWithin room := by
  induction room generalizing room' e with
  | zero => exact absurd rfl h
  | succ room ih =>
    obtain ⟨room', rfl⟩ : ∃ k, room' = k + 1 := ⟨room' - 1, by omega⟩
    have hle : room ≤ room' := Nat.le_of_succ_le_succ hle
    cases e with
    | literal _ l => cases l <;> rfl
    | unary _ op operand =>
      cases op with
      | negate | plus =>
        have hoperand := ih hle operand (ne_tooDeep_of_bind h)
        rw [foldWithin, foldWithin, hoperand]
      | _ => rfl
    | binary _ op left right =>
      rw [foldWithin] at h ⊢
      rw [foldWithin]
      split at h
      · have hleft := ih hle left (ne_tooDeep_of_bind h)
        rw [if_pos ‹_›, if_pos ‹_›, hleft]
        cases hfold : foldWithin room left with
        | error => rfl
        | ok a =>
          rw [hfold] at h
          have hright := ih hle right (ne_tooDeep_of_bind h)
          rw [hright]
      · rw [if_neg ‹_›, if_neg ‹_›]
    | _ => rfl

/-- The variables are checked in no more room than there is. -/
def Within (room : Nat) (ds : List Declaration) : Prop :=
  ∀ d ∈ ds, d.room ≤ room

theorem Within.append {room : Nat} (h : Within room ds) (h' : Within room es) :
    Within room (ds ++ es) :=
  List.forall_mem_append.mpr ⟨h, h'⟩

theorem Within.of_sub {room k : Nat} (h : Within (room - k) ds) : Within room ds :=
  fun d hd => Nat.le_trans (h d hd) (Nat.sub_le room k)

theorem Stmt.within (room : Nat) (s : Stmt) : Within room (s.declarations room) := by
  induction s using Stmt.rec (motive_2 := fun ss => ∀ room, Within room (declarationsAll room ss))
    (motive_3 := fun o => ∀ room, Within room (declarationsOf room o)) generalizing room with
  | declare d => simp [Within]
  | declareAll => simp [Within]; omega
  | define _ _ _ ih | block _ _ ih | whileLoop _ _ _ ih | doLoop _ _ _ ih => exact .of_sub (ih _)
  | branch _ _ _ _ ih ih' | forLoop _ _ _ _ _ ih ih' => exact .of_sub ((ih _).append (ih' _))
  | cons _ _ ih ih' => exact (ih _).append (ih' _)
  | some _ ih => exact ih _
  | _ => exact nofun

theorem Program.room_le (p : Program) : ∀ d ∈ p.declarations, d.room ≤ Stack.room := by
  have hall : ∀ ss, Within (Stack.room - 2) (Stmt.declarationsAll (Stack.room - 2) ss) :=
      fun ss => by
    induction ss with
    | nil => exact nofun
    | cons s ss ih => exact (s.within _).append ih
  exact (hall p.body).of_sub

/-- The initializer of the variable can be folded, or is found not to fold, in the room that is
left. -/
def Declaration.Fits (d : Declaration) : Prop :=
  0 < d.room ∧ ∀ e, d.declarator.initializer = some e → e.foldWithin (d.room - 1) ≠ .error .tooDeep

theorem Declaration.check_of_fits (h : d.Fits) (hroom : d.room ≤ Stack.room) :
    d.check = d.declarator.check := by
  obtain ⟨room, declarator⟩ := d
  obtain ⟨hpos, hfits⟩ := h
  dsimp only at hpos hroom hfits
  have hne : room ≠ 0 := Nat.ne_of_gt hpos
  have hstack : Stack.room ≠ 0 := by decide
  simp only [check, Declarator.check, Declarator.checkIn, beq_iff_eq, hne, if_false, hstack]
  cases hinitializer : declarator.initializer with
  | none => rfl
  | some e =>
    have hfold := e.foldWithin_of_le (Nat.sub_le_sub_right hroom 1) (hfits e hinitializer)
    simp only [Expr.foldIn, hfold]

/-- The check ended because a declaration was refused. -/
def CheckStop.isRejection : CheckStop → Bool
  | rejected .. => true
  | _ => false

/-- **The check ends at the first declaration that is refused**, wherever in the program it stands.
If the nesting does not stop it, then the first declared variable whose check fails ends it with
this failure, and the count is that of the initializers up to this variable and with it; if there is
none, the check passes and counts all initializers.  A variable is checked at its place as on its
own, unless its initializer is nested too deeply for the room that is left there.  So if all
initializers fit and folding them has no fault, then a program is refused just when one of its
declarations is. -/
theorem check_covers {p : Program} (hroom : ∀ n, p.checkAll 0 ≠ .error .tooDeep n) :
    p.nodes.filter Node.isDeclaration = p.declarations.map Declaration.node ∧
    (∀ front d back stop, p.declarations = front ++ d :: back → (∀ e ∈ front, e.check = none) →
      d.check = some stop → p.check =
      ⟨(front ++ [d]).countP Declaration.isInitialized, some stop⟩) ∧
    ((∀ d ∈ p.declarations, d.check = none) →
      p.check = ⟨p.declarations.countP Declaration.isInitialized, none⟩) ∧
    (∀ d ∈ p.declarations, d.Fits → d.check = d.declarator.check) ∧
    ((∀ d ∈ p.declarations, d.Fits ∧ ∀ f, d.declarator.check ≠ some (.fault f)) →
      (p.check.stop.any CheckStop.isRejection = true ↔
        ∃ d ∈ p.declarations, d.declarator.check.any CheckStop.isRejection = true)) := by
  have hrun : p.checkAll 0 = (forM p.declarations Declaration.visit : Checker Unit) 0 :=
    (p.sweeps 0).resolve_left fun ⟨n, hn⟩ => hroom n hn
  have herr : ∀ {front d back stop}, p.declarations = front ++ d :: back →
    (∀ e ∈ front, e.check = none) →
      d.check = some stop → stop ≠ .tooDeep ∧
        p.check = ⟨(front ++ [d]).countP Declaration.isInitialized, some stop⟩ := by
    intro front d back stop hds hfront hd
    rw [hds, forM_visit_error hfront hd, Nat.zero_add] at hrun
    cases stop with
    | tooDeep => exact absurd hrun (hroom _)
    | _ => exact ⟨nofun, by rw [Program.check, hrun]⟩
  have hpasses : (∀ d ∈ p.declarations, d.check = none) →
      p.check = ⟨p.declarations.countP Declaration.isInitialized, none⟩ := by
    intro hall
    rw [forM_visit hall, Nat.zero_add] at hrun
    rw [Program.check, hrun]
  have halone : ∀ d ∈ p.declarations, d.Fits → d.check = d.declarator.check := fun d hd hfits =>
    d.check_of_fits hfits (p.room_le d hd)
  refine ⟨p.filter_nodes, fun _ _ _ _ hds hfront hd => (herr hds hfront hd).2, hpasses, halone,
    fun hplain => ?_⟩
  have hsame : ∀ d ∈ p.declarations, d.declarator.check = d.check := fun d hd =>
    (halone d hd (hplain d hd).1).symm
  -- the check stops at the first declaration that is refused
  rcases exists_first_refused p.declarations with hall | ⟨front, d, back, stop, hds, hfront, hd⟩
  · rw [hpasses hall]
    refine iff_of_false nofun ?_
    rintro ⟨d, hd, hrejected⟩
    rw [hsame d hd, hall d hd] at hrejected
    cases hrejected
  · have hmem : d ∈ p.declarations := hds ▸ List.mem_append_right front List.mem_cons_self
    obtain ⟨hdeep, hchk⟩ := herr hds hfront hd
    have hrejection : stop.isRejection = true := by
      cases stop with
      | rejected => rfl
      | fault f => exact absurd ((hsame d hmem).trans hd) ((hplain d hmem).2 f)
      | tooDeep => exact absurd rfl hdeep
    rw [hchk]
    exact iff_of_true hrejection ⟨d, hmem, by rw [hsame d hmem, hd]; exact hrejection⟩

/-- The second variable in the body of a loop is refused, behind the one in the head of the loop. -/
theorem check_covers_loop :
    let p : Position := ⟨1, 1⟩
    let int : TypeExpr := .of .int []
    let i : Declarator := ⟨p, int, "i", some (.literal p (.int 0 "0")), .single⟩
    let a : Declarator := ⟨p, int, "a", none, .single⟩
    let b : Declarator := ⟨p, int, "b", some (.literal p (.string "x" "x")), .single⟩
    let program : Program := ⟨"loop.cpp", [.define ⟨p, int, "main", [], []⟩ p
      [.forLoop p (some (.declare i)) none none (.block p [.declareAll p [a, b]])]]⟩
    (∀ n, program.checkAll 0 ≠ .error .tooDeep n) ∧
    program.declarations.map (·.declarator) = [i, a, b] ∧
      program.check = ⟨2, some (.rejected "int" (some "string") "b" p)⟩ := by
  intro p int i a b program
  have hrun : program.checkAll 0 = .error (.rejected "int" (some "string") "b" p) 2 := rfl
  have hroom : ∀ n, program.checkAll 0 ≠ .error .tooDeep n := fun n h => nomatch hrun.symm.trans h
  have hfront : ∀ e ∈ ([⟨978, i⟩, ⟨974, a⟩] : List Declaration), e.check = none :=
    List.forall_mem_cons.mpr ⟨rfl, List.forall_mem_cons.mpr ⟨rfl, nofun⟩⟩
  exact ⟨hroom, rfl, (check_covers hroom).2.1 [⟨978, i⟩, ⟨974, a⟩] ⟨974, b⟩ [] _ rfl hfront rfl⟩

end SmallCpp
