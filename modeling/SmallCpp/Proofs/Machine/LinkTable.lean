import Mathlib.Data.List.Induction
import SmallCpp.Proofs.Machine.Budget

/-!
# The table of functions

Linking reads the top level once, from the front.  A function goes into the table under its name, a
header into the list of headers, every other node into the initialization, and none of the three
looks at what the others hold.  So the order between nodes of different kinds is lost, and the order
of the functions counts only in so far as a later definition takes the place of an earlier one.

## Main results

* `link_table` — **what is in the table, and what does not change it.**
-/

namespace SmallCpp

variable {name : String} {count : Nat} {f : Function} {fs gs : List Function}
  {table : FunctionTable}

/-- The function of a node of the top level. -/
def Stmt.function? : Stmt → Option Function
  | .define signature _ body => some ⟨signature, some body⟩
  | .prototype signature => some ⟨signature, none⟩
  | _ => none

/-- The header that a node of the top level includes. -/
def Stmt.header? : Stmt → Option String
  | .directive _ header _ => some header
  | _ => none

/-- The node is neither a function nor an include directive. -/
def Stmt.isInitial (s : Stmt) : Bool :=
  s.function?.isNone && s.header?.isNone

/-- The function is called by this name with so many arguments. -/
def Function.answers (name : String) (count : Nat) (f : Function) : Bool :=
  f.signature.name == name && f.arity == count

/-- The last definition among the functions of a name and a number of parameters, or else the first
prototype. -/
def chosen (name : String) (count : Nat) (fs : List Function) : Option Function :=
  (fs.filter fun f => f.answers name count && f.isDefined).getLast?.or
    (fs.find? fun f => f.answers name count && !f.isDefined)

/-! ### One more function -/

/-- The functions of a list, entered into a table one by one. -/
abbrev tableOf (fs : List Function) : FunctionTable :=
  fs.foldl (fun table f => addFunction f table) []

/-- The overloads that a table holds under a name. -/
abbrev FunctionTable.overloads? (table : FunctionTable) (name : String) : Option (List Function) :=
  (table.find? fun e => e.1 == name).map Prod.snd

/-- Among the overloads of its number of parameters, a definition takes the place of what was there,
and a prototype comes in only if nothing was there. -/
theorem filter_addOverload {o : Option Function} (h : gs.filter (fun g => g.arity == f.arity) =
    o.toList) :
    (addOverload f gs).filter (fun g => g.arity == f.arity) =
      (if f.isDefined then some f else o.or (some f)).toList := by
  induction gs with
  | nil =>
    have ho : o = none := Option.toList_eq_nil_iff.mp h.symm
    simp [addOverload, ho]
  | cons g gs ih =>
    cases hg : g.arity == f.arity with
    | true =>
      -- The overload in front is the only one of this number.
      rw [List.filter_cons, hg, if_pos rfl] at h
      obtain ⟨rfl, hrest⟩ : o = some g ∧ gs.filter (fun g => g.arity == f.arity) = [] := by
        cases o with
        | none => cases h
        | some k => exact ⟨congrArg some (List.cons.inj h).1.symm, (List.cons.inj h).2⟩
      rw [addOverload, hg, if_pos rfl, List.filter_cons, hrest]
      split <;> simp_all
    | false =>
      rw [List.filter_cons, hg, if_neg Bool.false_ne_true] at h
      rw [addOverload, hg, if_neg Bool.false_ne_true, List.filter_cons, hg,
        if_neg Bool.false_ne_true]
      exact ih h

/-- The overloads of other numbers of parameters stay as they are. -/
theorem filter_addOverload_of_ne (h : f.arity ≠ count) :
    (addOverload f gs).filter (fun g => g.arity == count) = gs.filter fun g =>
    g.arity == count := by
  have hf : (f.arity == count) = false := beq_false_of_ne h
  induction gs with
  | nil => simp [addOverload, hf]
  | cons g gs ih =>
    rw [addOverload]
    split
    · next hg =>
      have hgc : (g.arity == count) = false := by rw [beq_iff_eq.mp hg, hf]
      split <;> simp [hf, hgc]
    · rw [List.filter_cons, List.filter_cons, ih]

/-- A function changes the overloads of its own name only. -/
theorem overloads?_addFunction (f : Function) (table : FunctionTable) (name : String) :
    FunctionTable.overloads? (addFunction f table) name =
      if f.signature.name == name then
        some (addOverload f ((FunctionTable.overloads? table name).getD []))
      else FunctionTable.overloads? table name := by
  induction table with
  | nil =>
    rw [addFunction, FunctionTable.overloads?, List.find?_cons]
    cases f.signature.name == name <;> rfl
  | cons e table ih =>
    obtain ⟨key, overloads⟩ := e
    simp only [FunctionTable.overloads?, addFunction] at ih ⊢
    cases hkey : key == f.signature.name with
    | true =>
      rw [if_pos rfl, List.find?_cons, List.find?_cons, beq_iff_eq.mp hkey]
      cases f.signature.name == name <;> rfl
    | false =>
      rw [if_neg Bool.false_ne_true, List.find?_cons, List.find?_cons]
      cases hname : key == name with
      | true =>
        have hne : (f.signature.name == name) = false :=
          beq_false_of_ne fun h => ne_of_beq_false hkey ((beq_iff_eq.mp hname).trans h.symm)
        rw [hne]
        rfl
      | false => exact ih

theorem names_addFunction (f : Function) (table : FunctionTable) :
    (addFunction f table).map Prod.fst = if f.signature.name ∈ table.map
    Prod.fst then table.map Prod.fst
      else table.map Prod.fst ++ [f.signature.name] := by
  induction table with
  | nil => rfl
  | cons e table ih =>
    obtain ⟨key, overloads⟩ := e
    rw [addFunction]
    by_cases hkey : key = f.signature.name
    · simp [hkey]
    · have hne : ¬f.signature.name = key := fun h => hkey h.symm
      simp only [beq_iff_eq, hkey, if_false, List.map_cons, ih, List.mem_cons, hne, false_or]
      split <;> rfl

theorem chosen_append (name : String) (count : Nat) (fs : List Function) (f : Function) :
    chosen name count (fs ++ [f]) =
      if f.answers name count then
        if f.isDefined then some f else (chosen name count fs).or (some f)
      else chosen name count fs := by
  rw [chosen, chosen, List.filter_append, List.find?_append]
  cases hf : f.answers name count <;> cases hd : f.isDefined <;> simp [hf, hd]

/-! ### The whole table -/

theorem tableOf_append (fs : List Function) (f : Function) :
    tableOf (fs ++ [f]) = addFunction f (tableOf fs) :=
  List.foldl_append

theorem names_nodup (fs : List Function) : ((tableOf fs).map Prod.fst).Nodup := by
  induction fs using List.reverseRecOn with
  | nil => exact List.nodup_nil
  | append_singleton fs f ih =>
    rw [tableOf_append, names_addFunction]
    split
    · exact ih
    · next h => exact List.nodup_append.mpr ⟨ih, List.pairwise_singleton _ _, by
        rintro key hkey _ hname rfl
        exact h (List.mem_singleton.mp hname ▸ hkey)⟩

/-- The overloads of a name come from the functions of that name. -/
theorem overloads?_tableOf (name : String) (fs : List Function) :
    FunctionTable.overloads? (tableOf fs) name =
      (fs.filter fun f => f.signature.name == name).foldl
        (fun o f => some (addOverload f (o.getD []))) none := by
  induction fs using List.reverseRecOn with
  | nil => rfl
  | append_singleton fs f ih =>
    rw [tableOf_append, overloads?_addFunction, List.filter_append, List.foldl_append,
      List.filter_cons, ih]
    split <;> rfl

theorem overloads?_of_mem (h : f ∈ fs) :
    ∃ overloads, FunctionTable.overloads? (tableOf fs) f.signature.name = some overloads := by
  induction fs using List.reverseRecOn with
  | nil => cases h
  | append_singleton fs g ih =>
    rw [tableOf_append, overloads?_addFunction]
    split
    · exact ⟨_, rfl⟩
    · next hne =>
      refine (List.mem_append.mp h).elim ih fun hg => ?_
      rw [List.mem_singleton.mp hg] at hne
      exact absurd (beq_self_eq_true _) hne

/-- **The one overload of a name and a number of parameters.** -/
theorem filter_tableOf (name : String) (count : Nat) (fs : List Function) :
    ((FunctionTable.overloads? (tableOf fs) name).getD []).filter (fun f => f.arity == count) =
      (chosen name count fs).toList := by
  induction fs using List.reverseRecOn with
  | nil => rfl
  | append_singleton fs f ih =>
    rw [tableOf_append, overloads?_addFunction, chosen_append, Function.answers]
    cases f.signature.name == name with
    | false => exact ih
    | true =>
      rw [if_pos rfl, Option.getD_some, Bool.true_and]
      by_cases hcnt : f.arity = count
      · subst hcnt
        rw [if_pos (beq_self_eq_true _)]
        exact filter_addOverload ih
      · rw [if_neg (beq_iff_eq.not.mpr hcnt), filter_addOverload_of_ne hcnt]
        exact ih

theorem find?_overloads {overloads : List Function}
    (h : FunctionTable.overloads? (tableOf fs) name = some overloads) (count : Nat) :
    overloads.find? (fun f => f.arity == count) = chosen name count fs := by
  have hfilter := filter_tableOf name count fs
  rw [h, Option.getD_some] at hfilter
  rw [← List.head?_filter, hfilter, Option.head?_toList]

/-- Nodes of different kinds do not meet while a program is linked. -/
theorem foldl_addStmt (body : List Stmt) (l : Linked) :
    body.foldl Linked.addStmt l =
      ⟨(body.filterMap Stmt.function?).foldl (fun table f => addFunction f table) l.functions,
        l.headers ++ body.filterMap Stmt.header?, l.init ++ body.filter Stmt.isInitial⟩ := by
  induction body generalizing l with
  | nil => simp
  | cons s body ih =>
    rw [List.foldl_cons, ih]
    cases s <;> simp [Linked.addStmt, List.filterMap_cons, Stmt.function?, Stmt.header?,
      Stmt.isInitial]

/-- **The three parts of a linked program.** -/
theorem link_eq (p : Program) :
    p.link = ⟨tableOf (p.body.filterMap Stmt.function?), p.body.filterMap Stmt.header?,
      p.body.filter Stmt.isInitial⟩ :=
  foldl_addStmt p.body {}

/-! ### Runs -/

/-- **Programs in which calls find the same functions run alike.** -/
theorem run_of_similar {p q : Program} (h : p.link.Similar q.link) (hfile : q.file = p.file)
    (input : List String) (limits : Limits) (lines : Array String) :
    q.run input limits lines = p.run input limits lines := by
  cases hfault : limits.fault? with
  | some fault => rw [run_of_fault hfault, run_of_fault hfault]
  | none =>
    rw [run_of_no_fault hfault, run_of_no_fault hfault, hfile]
    exact congrArg _ ((shadows_runMain h (Int.le_refl _) rfl rfl).equal rfl)

/-- A prototype next to a definition is not chosen. -/
theorem chosen_insert {before after : List Function} {g : Function} (hf : f.isDefined = false)
    (hg : g ∈ before ++ after) (hd : g.isDefined = true)
    (hname : g.signature.name = f.signature.name)
    (harity : g.arity = f.arity) :
    chosen name count (before ++ f :: after) = chosen name count (before ++ after) := by
  rw [chosen, chosen, List.filter_append, List.filter_append, List.filter_cons, hf, Bool.and_false,
    if_neg Bool.false_ne_true, ← List.filter_append]
  by_cases ha : f.answers name count = true
  · have hmem : g ∈ (before ++ after).filter fun f => f.answers name count && f.isDefined := by
      refine List.mem_filter.mpr ⟨hg, ?_⟩
      rw [hd, Bool.and_true, Function.answers, hname, harity]
      exact ha
    obtain ⟨last, hlast⟩ : ∃ last, (((before ++ after).filter fun f =>
        f.answers name count && f.isDefined).getLast?) = some last :=
      Option.ne_none_iff_exists'.mp fun h =>
      List.ne_nil_of_mem hmem (List.getLast?_eq_none_iff.mp h)
    rw [hlast, Option.some_or, Option.some_or]
  · rw [List.find?_append, List.find?_append, List.find?_cons, Bool.eq_false_iff.mpr ha,
      Bool.false_and]

/-- Calls find the same functions in a program with one more prototype of a function that it
defines. -/
theorem similar_insert {file : String} {before after : List Stmt} {signature defined : Signature}
    {position : Position} {definition : List Stmt} (hmain : signature.name ≠ "main")
    (hmem : Stmt.define defined position definition ∈ before ++ after)
    (hname : defined.name = signature.name)
    (harity : defined.params.length = signature.params.length) :
    (Program.link ⟨file, before ++ after⟩).Similar
      (Program.link ⟨file, before ++ .prototype signature :: after⟩) := by
  let f : Function := ⟨signature, none⟩
  let g : Function := ⟨defined, some definition⟩
  let B := before.filterMap Stmt.function?
  let A := after.filterMap Stmt.function?
  have hg : g ∈ B ++ A := by
    rw [← List.filterMap_append]
    exact List.mem_filterMap.mpr ⟨_, hmem, rfl⟩
  have hfunctions : (before ++ Stmt.prototype signature :: after).filterMap Stmt.function? =
      B ++ f :: A :=
    List.filterMap_append
  have hheaders : (before ++ Stmt.prototype signature :: after).filterMap Stmt.header? =
      (before ++ after).filterMap Stmt.header? := by
    rw [List.filterMap_append, List.filterMap_append]
    rfl
  rw [link_eq, link_eq, hfunctions, hheaders, List.filterMap_append]
  have hother : ∀ name, f.signature.name ≠ name →
      FunctionTable.overloads? (tableOf (B ++ f :: A)) name =
        FunctionTable.overloads? (tableOf (B ++ A)) name := by
    intro name hne
    rw [overloads?_tableOf, overloads?_tableOf, List.filter_append, List.filter_append,
      List.filter_cons,
      beq_false_of_ne hne, if_neg Bool.false_ne_true]
  refine ⟨?_, ?_, fun _ => rfl, fun name count => ?_⟩
  · show (before ++ Stmt.prototype signature :: after).filter _ = (before ++ after).filter _
    rw [List.filter_append, List.filter_append]
    rfl
  · exact congrArg (fun o : Option (List Function) => (o.getD []).find? Function.isDefined)
      (hother "main" hmain)
  · refine (em (f.signature.name = name)).elim (fun heq => ?_) fun hne =>
      congrArg (Option.map _) (hother name hne)
    -- The name has overloads without the prototype already, and the prototype is not chosen.
    subst heq
    obtain ⟨fs, hfs⟩ := overloads?_of_mem hg
    obtain ⟨fs', hfs'⟩ := overloads?_of_mem (f := f) (List.mem_append_right B List.mem_cons_self)
    rw [show g.signature.name = f.signature.name from hname] at hfs
    show (FunctionTable.overloads? (tableOf (B ++ f :: A)) f.signature.name).map _ =
      (FunctionTable.overloads? (tableOf (B ++ A)) f.signature.name).map _
    rw [hfs, hfs', Option.map_some, Option.map_some, find?_overloads hfs, find?_overloads hfs',
      chosen_insert (f := f) rfl hg rfl hname harity]

/-- **What is in the table, and what does not change it.**  No name stands in the table twice, and
under its name stands at most one function of a number of parameters: the last definition that the
top level has, or else the first prototype.  The initialization is what is neither a function nor an
include directive.  Programs with the same functions, the same headers and the same other nodes,
each in the same order, are linked alike and run alike, however the three are mixed; and so runs a
program with a prototype more, at any place, of a function other than `main` that it defines with
the same number of parameters. -/
theorem link_table (file : String) (body : List Stmt) :
    let l := Program.link ⟨file, body⟩
    ((l.functions.map Prod.fst).Nodup ∧
      ∀ name count, ((l.overloads? name).getD []).filter (fun f => f.arity == count) =
        (chosen name count (body.filterMap Stmt.function?)).toList) ∧
    l.headers = body.filterMap Stmt.header? ∧ l.init = body.filter Stmt.isInitial ∧
    (∀ body', body'.filterMap Stmt.function? = body.filterMap Stmt.function? →
      body'.filterMap Stmt.header? = body.filterMap Stmt.header? →
      body'.filter Stmt.isInitial = body.filter Stmt.isInitial →
      Program.link ⟨file, body'⟩ = l ∧ ∀ input limits lines,
        Program.run ⟨file, body'⟩ input limits lines = Program.run ⟨file, body⟩ input
        limits lines) ∧
    ∀ before after signature, body = before ++ after → signature.name ≠ "main" →
      (∃ defined position definition, Stmt.define defined position definition ∈ body ∧
        defined.name = signature.name ∧ defined.params.length = signature.params.length) →
      ∀ input limits lines,
        Program.run ⟨file, before ++ .prototype signature :: after⟩ input limits lines =
          Program.run ⟨file, body⟩ input limits lines := by
  intro l
  have hl : l = ⟨tableOf (body.filterMap Stmt.function?), body.filterMap Stmt.header?,
      body.filter Stmt.isInitial⟩ := link_eq ⟨file, body⟩
  refine ⟨⟨?_, fun name count => ?_⟩, congrArg Linked.headers hl, congrArg Linked.init hl, ?_, ?_⟩
  · rw [hl]
    exact names_nodup _
  · rw [hl]
    exact filter_tableOf name count _
  · intro body' hfunctions hheaders hinit
    have hsame : Program.link ⟨file, body'⟩ = l := by
      rw [hl, link_eq, hfunctions, hheaders, hinit]
    exact ⟨hsame, run_of_similar (hsame ▸ .refl l) rfl⟩
  · rintro before after signature rfl hmain ⟨defined, position, definition, hmem, hname, hpars⟩
    exact run_of_similar (similar_insert hmain hmem hname hpars) rfl

/-- A function that is declared, defined and declared again, with a block before or behind the
definition. -/
theorem link_table_twice :
    let declaration : Signature := ⟨⟨1, 1⟩, .of .int [], "f", [], []⟩
    let definition : Stmt := .define ⟨⟨2, 1⟩, .of .int [], "f", [], []⟩ ⟨2, 9⟩ []
    let block : Stmt := .block ⟨3, 1⟩ []
    (Program.link ⟨"", [.prototype declaration, block, definition]⟩ =
      Program.link ⟨"", [.prototype declaration, definition, block]⟩) ∧
    Program.run ⟨"", [.prototype declaration, definition, .prototype declaration, block]⟩ []
    ⟨9, 9⟩ #[] =
      Program.run ⟨"", [.prototype declaration, definition, block]⟩ [] ⟨9, 9⟩ #[] := by
  intro declaration definition block
  obtain ⟨-, -, -, hmixed, hinserted⟩ := link_table "" [.prototype declaration, definition, block]
  refine ⟨(hmixed [.prototype declaration, block, definition] rfl rfl rfl).1, ?_⟩
  exact hinserted [.prototype declaration, definition] [block] declaration rfl (by decide)
    ⟨_, _, _, List.mem_cons_of_mem _ List.mem_cons_self, rfl, rfl⟩ [] ⟨9, 9⟩ #[]

end SmallCpp
