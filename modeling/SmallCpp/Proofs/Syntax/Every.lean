import SmallCpp.Link

/-!
# Conditions on every expression of a program

A condition on single expressions is lifted to whole expressions, statements and programs: it holds
of every expression inside them.  Beside it stands a condition on the names that are declared as
references, since such a name may stand for any location.
-/

namespace SmallCpp

variable {P Q : Expr → Prop} {F G : String → Prop} {f g : Function} {e : Expr} {d : Declarator}
  {s : Stmt}

/-! ### Expressions -/

namespace Expr

mutual

/-- The condition holds of an expression and of every expression inside it. -/
def Every (P : Expr → Prop) : Expr → Prop
  | literal p v => P (literal p v)
  | name p id => P (name p id)
  | unary p op e => P (unary p op e) ∧ Every P e
  | step p op e => P (step p op e) ∧ Every P e
  | binary p op a b => P (binary p op a b) ∧ Every P a ∧ Every P b
  | assign p op a b => P (assign p op a b) ∧ Every P a ∧ Every P b
  | call p f args => P (call p f args) ∧ Every P f ∧ EveryOf P args
  | member p e access field => P (member p e access field) ∧ Every P e
  | index p a b => P (index p a b) ∧ Every P a ∧ Every P b
  | new p t => P (new p t)
  | newArray p t e => P (newArray p t e) ∧ Every P e
  | braces p es => P (braces p es) ∧ EveryOf P es
  | endl p => P (endl p)

/-- The condition holds of several expressions and of every expression inside them. -/
def EveryOf (P : Expr → Prop) : List Expr → Prop
  | [] => True
  | e :: es => Every P e ∧ EveryOf P es

end

theorem everyOf_iff {es : List Expr} : EveryOf P es ↔ ∀ e ∈ es, e.Every P := by
  induction es with
  | nil => simp [EveryOf]
  | cons e es ih => simp [EveryOf, ih]

/-- A condition that holds of every expression at all holds of those inside one. -/
theorem every_of_forall (h : ∀ e, P e) (e : Expr) : e.Every P := by
  induction e using Expr.rec (motive_2 := fun es => EveryOf P es) with
  | literal | name | new | endl => simpa [Every] using h _
  | unary _ _ _ ih | step _ _ _ ih | member _ _ _ _ ih | newArray _ _ _ ih => exact ⟨h _, ih⟩
  | binary _ _ _ _ iha ihb | assign _ _ _ _ iha ihb | index _ _ _ iha ihb | call _ _ _ iha ihb =>
    exact ⟨h _, iha, ihb⟩
  | braces _ _ ih => exact ⟨h _, ih⟩
  | nil => trivial
  | cons _ _ ihe ihes => exact ⟨ihe, ihes⟩

/-- Two conditions that hold of every expression inside one may be replaced by one that they
imply. -/
theorem Every.zip {R : Expr → Prop} (h : ∀ e, P e → Q e → R e) (hP : e.Every P) (hQ : e.Every Q) :
    e.Every R := by
  induction e using Expr.rec (motive_2 := fun es => EveryOf P es → EveryOf Q es → EveryOf R es) with
  | literal | name | new | endl => exact h _ hP hQ
  | unary _ _ _ ih | step _ _ _ ih | member _ _ _ _ ih | newArray _ _ _ ih =>
    exact ⟨h _ hP.1 hQ.1, ih hP.2 hQ.2⟩
  | binary _ _ _ _ iha ihb | assign _ _ _ _ iha ihb | index _ _ _ iha ihb | call _ _ _ iha ihb =>
    exact ⟨h _ hP.1 hQ.1, iha hP.2.1 hQ.2.1, ihb hP.2.2 hQ.2.2⟩
  | braces _ _ ih => exact ⟨h _ hP.1 hQ.1, ih hP.2 hQ.2⟩
  | nil => trivial
  | cons _ _ ihe ihes hP hQ => exact ⟨ihe hP.1 hQ.1, ihes hP.2 hQ.2⟩

/-- A condition may be replaced by one that it implies. -/
theorem Every.imp (h : ∀ e, P e → Q e) (he : e.Every P) : e.Every Q :=
  he.zip (fun e hP _ => h e hP) he

end Expr

/-! ### Statements -/

/-- The conditions on one declared variable. -/
structure Declarator.Every (P : Expr → Prop) (F : String → Prop) (d : Declarator) : Prop where
  initializer : ∀ e, d.initializer = some e → e.Every P
  size : ∀ e, d.extent = .sized e → e.Every P
  reference : d.type.isReference = true → F d.name

theorem Declarator.every_iff :
    d.Every P F ↔ (∀ e, d.initializer = some e → e.Every P) ∧
    (∀ e, d.extent = .sized e → e.Every P) ∧
      (d.type.isReference = true → F d.name) :=
  ⟨fun h => ⟨h.initializer, h.size, h.reference⟩, fun h => ⟨h.1, h.2.1, h.2.2⟩⟩

theorem Declarator.every_of_forall (hP : ∀ e, P e) (hF : ∀ x, F x) (d : Declarator) : d.Every P F :=
  ⟨fun e _ => e.every_of_forall hP, fun e _ => e.every_of_forall hP, fun _ => hF _⟩

theorem Declarator.Every.imp (hP : ∀ e, P e → Q e) (hF : ∀ x, F x → G x) (h : d.Every P F) :
    d.Every Q G :=
  ⟨fun e he => (h.initializer e he).imp hP, fun e he => (h.size e he).imp hP,
    fun href => hF _ (h.reference href)⟩

/-- The condition on the names of the reference parameters of a function. -/
def Signature.Every (F : String → Prop) (s : Signature) : Prop :=
  ∀ p ∈ s.params, p.type.isReference = true → F p.name

namespace Stmt

mutual

/-- The conditions hold of everything inside a statement. -/
def Every (P : Expr → Prop) (F : String → Prop) : Stmt → Prop
  | directive _ _ _ | usingNamespace _ _ | breakLoop _ | continueLoop _ => True
  | prototype signature => signature.Every F
  | declare d => d.Every P F
  | declareAll _ ds => ∀ d ∈ ds, d.Every P F
  | define signature _ body => signature.Every F ∧ EveryOf P F body
  | block _ body => EveryOf P F body
  | branch _ condition positive negative =>
    condition.Every P ∧ Every P F positive ∧ EveryOption P F negative
  | whileLoop _ condition body => condition.Every P ∧ Every P F body
  | doLoop _ body condition => Every P F body ∧ condition.Every P
  | forLoop _ start condition update body =>
    EveryOption P F start ∧ (∀ e ∈ condition, e.Every P) ∧ (∀ e ∈ update, e.Every P) ∧
    Every P F body
  | leave _ value => ∀ e ∈ value, e.Every P
  | read _ es | print _ es => ∀ e ∈ es, e.Every P
  | evaluate _ e => e.Every P

/-- The conditions hold of everything inside several statements. -/
def EveryOf (P : Expr → Prop) (F : String → Prop) : List Stmt → Prop
  | [] => True
  | s :: ss => Every P F s ∧ EveryOf P F ss

/-- The conditions hold of everything inside a statement that may be absent. -/
def EveryOption (P : Expr → Prop) (F : String → Prop) : Option Stmt → Prop
  | none => True
  | some s => Every P F s

end

theorem everyOf_iff {ss : List Stmt} : EveryOf P F ss ↔ ∀ s ∈ ss, s.Every P F := by
  induction ss with
  | nil => simp [EveryOf]
  | cons s ss ih => simp [EveryOf, ih]

theorem everyOption_iff {o : Option Stmt} : EveryOption P F o ↔ ∀ s ∈ o, s.Every P F := by
  cases o with
  | none => simp [EveryOption]
  | some s => simp [EveryOption]

theorem every_of_forall (hP : ∀ e, P e) (hF : ∀ x, F x) (s : Stmt) : s.Every P F := by
  have hsig : ∀ sig : Signature, sig.Every F := fun _ _ _ _ => hF _
  induction s using Stmt.rec (motive_2 := fun ss => EveryOf P F ss)
    (motive_3 := fun o => EveryOption P F o) with
  | directive | usingNamespace | breakLoop | continueLoop => trivial
  | prototype sig => exact hsig sig
  | declare d => exact d.every_of_forall hP hF
  | declareAll _ ds => exact fun d _ => d.every_of_forall hP hF
  | define sig _ _ ih => exact ⟨hsig sig, ih⟩
  | block _ _ ih => exact ih
  | branch _ c _ _ iha ihb => exact ⟨c.every_of_forall hP, iha, ihb⟩
  | whileLoop _ c _ ih => exact ⟨c.every_of_forall hP, ih⟩
  | doLoop _ _ c ih => exact ⟨ih, c.every_of_forall hP⟩
  | forLoop _ _ _ _ _ ihs ihb =>
    exact ⟨ihs, fun e _ => e.every_of_forall hP, fun e _ => e.every_of_forall hP, ihb⟩
  | leave | read | print => exact fun e _ => e.every_of_forall hP
  | evaluate _ e => exact e.every_of_forall hP
  | nil => trivial
  | cons _ _ ihs ihss => exact ⟨ihs, ihss⟩
  | none => trivial
  | some _ ih => exact ih

/-- Conditions may be replaced by ones that they imply. -/
theorem Every.imp (hP : ∀ e, P e → Q e) (hF : ∀ x, F x → G x) (hs : s.Every P F) : s.Every Q G := by
  have hsig : ∀ {sig : Signature}, sig.Every F → sig.Every G := fun h p hp href =>
    hF _ (h p hp href)
  induction s using Stmt.rec (motive_2 := fun ss => EveryOf P F ss → EveryOf Q G ss)
    (motive_3 := fun o => EveryOption P F o → EveryOption Q G o) with
  | directive | usingNamespace | breakLoop | continueLoop => trivial
  | prototype => exact hsig hs
  | declare => exact Declarator.Every.imp hP hF hs
  | declareAll => exact fun d h => (hs d h).imp hP hF
  | define _ _ _ ih => exact ⟨hsig hs.1, ih hs.2⟩
  | block _ _ ih => exact ih hs
  | branch _ _ _ _ iha ihb => exact ⟨hs.1.imp hP, iha hs.2.1, ihb hs.2.2⟩
  | whileLoop _ _ _ ih => exact ⟨hs.1.imp hP, ih hs.2⟩
  | doLoop _ _ _ ih => exact ⟨ih hs.1, hs.2.imp hP⟩
  | forLoop _ _ _ _ _ ihs ihb =>
    exact ⟨ihs hs.1, fun e he => (hs.2.1 e he).imp hP, fun e he => (hs.2.2.1 e he).imp hP,
      ihb hs.2.2.2⟩
  | leave | read | print => exact fun e he => (hs e he).imp hP
  | evaluate => exact Expr.Every.imp hP hs
  | nil => trivial
  | cons _ _ ihs ihss hs => exact ⟨ihs hs.1, ihss hs.2⟩
  | none => trivial
  | some _ ih hs => exact ih hs

end Stmt

/-! ### Functions and programs -/

/-- The conditions hold of everything inside a function. -/
structure Function.Every (P : Expr → Prop) (F : String → Prop) (f : Function) : Prop where
  signature : f.signature.Every F
  body : ∀ body, f.body = some body → ∀ s ∈ body, s.Every P F

theorem Function.Every.imp (hP : ∀ e, P e → Q e) (hF : ∀ x, F x → G x) (h : f.Every P F) :
    f.Every Q G :=
  ⟨fun p hp href => hF _ (h.signature p hp href), fun body hb s hs =>
    (h.body body hb s hs).imp hP hF⟩

def Linked.Has (l : Linked) (f : Function) : Prop :=
  ∃ entry ∈ l.functions, f ∈ entry.2

/-- The conditions hold of everything inside the functions of a linked program. -/
def Linked.EveryFunction (P : Expr → Prop) (F : String → Prop) (l : Linked) : Prop :=
  ∀ f, l.Has f → f.Every P F

/-- The conditions hold of everything inside a linked program. -/
structure Linked.Every (P : Expr → Prop) (F : String → Prop) (l : Linked) : Prop where
  functions : l.EveryFunction P F
  init : ∀ s ∈ l.init, s.Every P F

/-- The conditions hold of everything inside a program. -/
def Program.Every (P : Expr → Prop) (F : String → Prop) (p : Program) : Prop :=
  ∀ s ∈ p.body, s.Every P F

namespace Linked

variable {l : Linked}

theorem every_of_forall (hP : ∀ e, P e) (hF : ∀ x, F x) (l : Linked) : l.Every P F where
  functions _ _ := ⟨fun _ _ _ => hF _, fun _ _ s _ => s.every_of_forall hP hF⟩
  init s _ := s.every_of_forall hP hF

theorem EveryFunction.imp (hP : ∀ e, P e → Q e) (hF : ∀ x, F x → G x) (h : l.EveryFunction P F) :
    l.EveryFunction Q G :=
  fun f hf => (h f hf).imp hP hF

theorem has_of_overloads? {id : String} {overloads : List Function}
    (h : l.overloads? id = some overloads) (hf : f ∈ overloads) : l.Has f := by
  obtain ⟨entry, hfind, rfl⟩ := Option.map_eq_some_iff.mp h
  exact ⟨entry, List.mem_of_find?_eq_some hfind, hf⟩

theorem has_of_main? (h : l.main? = some f) : l.Has f := by
  have hmem : f ∈ (l.overloads? "main").getD [] := List.mem_of_find?_eq_some h
  cases ho : l.overloads? "main" with
  | none => rw [ho] at hmem; exact absurd hmem (by simp)
  | some overloads => rw [ho] at hmem; exact has_of_overloads? ho hmem

end Linked

/-- Overloads with another function are that function and overloads from before. -/
theorem mem_addOverload {gs : List Function} (h : g ∈ addOverload f gs) : g = f ∨ g ∈ gs := by
  induction gs with
  | nil => exact Or.inl (by simpa [addOverload] using h)
  | cons k ks ih =>
    simp only [addOverload] at h
    split at h
    · rcases List.mem_cons.mp h with hk | hks
      · split at hk
        · exact Or.inl hk
        · exact Or.inr (hk ▸ List.mem_cons_self)
      · exact Or.inr (List.mem_cons_of_mem k hks)
    · rcases List.mem_cons.mp h with rfl | hks
      · exact Or.inr List.mem_cons_self
      · exact (ih hks).imp_right (List.mem_cons_of_mem k)

/-- The functions of a table with another one are that function and functions from before. -/
theorem mem_addFunction {table : FunctionTable}
    (h : ∃ entry ∈ addFunction f table, g ∈ entry.2) : g = f ∨ ∃ entry ∈ table, g ∈ entry.2 := by
  induction table with
  | nil =>
    obtain ⟨entry, hent, hg⟩ := h
    rw [addFunction, List.mem_singleton] at hent
    subst hent
    exact Or.inl (List.mem_singleton.mp hg)
  | cons head table ih =>
    obtain ⟨entry, hent, hg⟩ := h
    simp only [addFunction] at hent
    split at hent
    · rcases List.mem_cons.mp hent with rfl | htail
      · exact (mem_addOverload hg).imp_right fun hold => ⟨head, List.mem_cons_self, hold⟩
      · exact Or.inr ⟨entry, List.mem_cons_of_mem _ htail, hg⟩
    · rcases List.mem_cons.mp hent with rfl | htail
      · exact Or.inr ⟨head, List.mem_cons_self, hg⟩
      · refine (ih ⟨entry, htail, hg⟩).imp_right ?_
        rintro ⟨e, he, hge⟩
        exact ⟨e, List.mem_cons_of_mem _ he, hge⟩

theorem Linked.Every.addStmt {l : Linked} (hl : l.Every P F) (hs : s.Every P F) :
    (l.addStmt s).Every P F := by
  have hinit : ∀ t ∈ l.init ++ [s], t.Every P F := by
    intro t ht
    rcases List.mem_append.mp ht with h | h
    · exact hl.init t h
    · rw [List.mem_singleton.mp h]; exact hs
  cases s with
  | directive => exact ⟨hl.functions, hl.init⟩
  | prototype sig =>
    refine ⟨?_, hl.init⟩
    intro g hg
    rcases mem_addFunction hg with rfl | hold
    · exact ⟨hs, fun _ h => nomatch h⟩
    · exact hl.functions g hold
  | define sig _ body =>
    refine ⟨?_, hl.init⟩
    intro g hg
    rcases mem_addFunction hg with rfl | hold
    · refine ⟨hs.1, ?_⟩
      intro b hb
      cases hb
      exact Stmt.everyOf_iff.mp hs.2
    · exact hl.functions g hold
  | _ => exact ⟨hl.functions, hinit⟩

/-- **Linking keeps the conditions of a program.** -/
theorem Program.Every.link {p : Program} (h : p.Every P F) : p.link.Every P F := by
  have key : ∀ (ss : List Stmt) (l : Linked), l.Every P F → (∀ s ∈ ss, s.Every P F) →
      (ss.foldl Linked.addStmt l).Every P F := by
    intro ss
    induction ss with
    | nil => exact fun l hl _ => hl
    | cons s ss ih =>
      intro l hl hss
      exact ih _ (hl.addStmt (hss s List.mem_cons_self)) fun t ht =>
        hss t (List.mem_cons_of_mem s ht)
  refine key p.body {} ⟨?_, ?_⟩ h
  · rintro f ⟨entry, hent, -⟩
    exact absurd hent (by simp)
  · intro s hs
    exact absurd hs (by simp)

end SmallCpp
