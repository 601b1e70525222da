import SmallCpp.Machine.Eval

/-!
# Operations on scalars

Arithmetic, conversions to scalars, tokens of input and functions of numbers do not look at
containers.  Such an operation gives the same answer in every heap, a value or a failure, and leaves
no trace but the mark of a new non-number.  What else is true of it, for the containers or for two
heaps, follows from this.
-/

namespace SmallCpp

variable {h k : Heap} {v : Value} {t : TypeExpr} {α : Type} {op : HeapM α} {a : α}

/-- A value that refers to nothing in the heap. -/
def Value.isSimple : Value → Bool
  | .null | .bool _ | .int _ | .real _ | .char _ | .text _ => true
  | _ => false

/-! ### Answers -/

/-- Whatever the heap is, the operation leaves it as it is, and gives one value, of which `P` holds,
or fails. -/
inductive Answers {α : Type} (P : α → Prop) : HeapM α → Prop
  | value {a : α} (ha : P a) : Answers P (pure a)
  | failure (e : Failure) : Answers P (throw e)

/-- The operation neither looks at the heap nor changes it. -/
abbrev Oblivious {α : Type} (op : HeapM α) : Prop :=
  Answers (fun _ => True) op

namespace Answers

variable {β : Type} {P : α → Prop} {Q : β → Prop}

theorem bind {f : α → HeapM β} (hop : Answers P op) (hf : ∀ a, P a → Answers Q (f a)) :
    Answers Q (op >>= f) := by
  cases hop with
  | value ha =>
    rw [pure_bind]
    exact hf _ ha
  | failure e => exact .failure e

theorem again (hop : Answers P op) (hrun : op h = .ok a k) : k = h ∧ ∀ g, op g = .ok a g := by
  cases hop with
  | value =>
    cases hrun
    exact ⟨rfl, fun _ => rfl⟩
  | failure => cases hrun

theorem of_ok (hop : Answers P op) (hrun : op h = .ok a k) : P a := by
  cases hop with
  | value ha =>
    cases hrun
    exact ha
  | failure => cases hrun

theorem eq_of_ok (hop : Answers P op) {a' : α} {h' k' : Heap} (hrun : op h = .ok a k)
    (hrun' : op h' = .ok a' k') :
    a = a' := by
  rw [(hop.again hrun).2 h'] at hrun'
  cases hrun'
  rfl

theorem orFail {r : Except Failure α} (hr : ∀ a, r = .ok a → P a) : Answers P (orFail r) := by
  cases r with
  | ok a => exact .value (hr a rfl)
  | error e => exact .failure _

end Answers

namespace Oblivious

theorem orFail (r : Except Failure α) : Oblivious (orFail r) :=
  Answers.orFail fun _ _ => trivial

theorem orFault (r : Except Fault α) : Oblivious (orFault r) := by
  cases r with
  | ok a => exact .value trivial
  | error e => exact .failure _

theorem asIndex (v : Value) : Oblivious (asIndex v) :=
  (orFail v.number).bind fun n _ => orFault n.truncate

theorem integerText (n : Int) : Oblivious (integerText n) := by
  unfold SmallCpp.integerText
  cases integerText? n with
  | none => exact .failure _
  | some s => exact .value trivial

theorem indexArgument (args : List Value) (i : Nat) : Oblivious (indexArgument args i) := by
  refine Answers.bind (P := fun _ => True) ?_ fun v _ => asIndex v
  unfold argument
  split
  · exact .value trivial
  · exact .failure _

theorem charAt (operation : String) (s : CodeText) (i : Int) :
    Oblivious (charAt operation s i) := by
  unfold SmallCpp.charAt
  split
  · exact .value trivial
  · exact .failure _

end Oblivious

/-! ### Conversions to scalars -/

section Conversions

variable {P : Value → Prop}

theorem answers_toInteger (hP : ∀ n, P (.int n)) (v : Value) : Answers P (toInteger v) := by
  unfold toInteger
  split
  · exact .failure _
  · exact .failure _
  · split
    · exact .value (hP _)
    · exact .failure _
  · exact (Oblivious.orFail _).bind fun _ _ => (Oblivious.orFault _).bind fun _ _ => .value (hP _)

theorem answers_toReal (hP : ∀ x, P (.real x)) (name : String)
    (hv : ∀ m, v = .nan m → P v) : Answers P (toReal name v) := by
  unfold toReal
  split
  · exact .failure _
  · exact .value (hP _)
  · exact .value (hv _ rfl)
  · exact (Oblivious.orFail _).bind fun _ _ => (Oblivious.orFault _).bind fun _ _ => .value (hP _)

/-- A character stays as it is, and all else becomes one of a single code point. -/
theorem answers_toCharacter_of_single (hP : ∀ c, P (.char [c])) (hv : ∀ s, v = .char s → P v) :
    Answers P (toCharacter v) := by
  unfold toCharacter
  split
  · exact .value (hv _ rfl)
  · exact .value (hP _)
  · exact .failure _
  · refine (Oblivious.orFail _).bind fun n _ => (Oblivious.orFault _).bind fun code _ => ?_
    split
    · exact .value (hP _)
    · exact .failure _

theorem answers_toCharacter (hP : ∀ s, P (.char s)) (v : Value) : Answers P (toCharacter v) :=
  answers_toCharacter_of_single (fun c => hP [c]) fun s hs => hs ▸ hP s

theorem answers_toText (hP : ∀ s, P (.text s)) (v : Value) : Answers P (toText v) := by
  unfold toText
  split
  · exact .value (hP _)
  · exact .failure _

theorem answers_substring (hP : ∀ s, P (.text s)) (s : CodeText) (args : List Value) :
    Answers P (substring s args) := by
  have hrest : ∀ start : Int, Answers P (do
      if start > s.length then fail (.substringStart start)
      if 1 < args.length then
        let count ← indexArgument args 1
        return .text (slice start (start + count) s)
      else return .text (slice start s.length s)) := by
    intro start
    dsimp only
    split
    · exact .failure _
    · split
      · exact (Oblivious.indexArgument args 1).bind fun _ _ => .value (hP _)
      · exact .value (hP _)
  rw [substring]
  split
  · exact hrest 0
  · exact (Oblivious.indexArgument args 0).bind fun start _ => hrest start

end Conversions

/-! ### Types and their arguments -/

/-- Induction over the arguments of types; an argument may be unknown. -/
theorem TypeExpr.inductOption {P : Option TypeExpr → Prop} (hnone : P none)
    (hsome : ∀ t : TypeExpr, (∀ i : Nat, P t.args[i]?) → P (some t)) (t : Option TypeExpr) :
    P t := by
  cases t with
  | none => exact hnone
  | some t =>
    induction t using TypeExpr.induct with
    | h base qualified modifiers args pointers isReference ih =>
      refine hsome _ fun i => ?_
      cases hi : args[i]? with
      | none => exact hi ▸ hnone
      | some s => exact hi ▸ ih s (List.mem_of_getElem? hi)

def TypeExpr.isPair (t : TypeExpr) : Bool :=
  t.pointers == 0 && t.base == .pair

theorem TypeExpr.eq_of_isPair {t : TypeExpr} (ht : t.isPair = true) :
    t.pointers = 0 ∧ t.base = .pair := by
  rw [isPair, Bool.and_eq_true] at ht
  exact ⟨beq_iff_eq.mp ht.1, beq_iff_eq.mp ht.2⟩

theorem defaultOf_eq (t : TypeExpr) : defaultOf t = if t.isPointer then pure .null
    else match t.base with
      | .vector => newVector t.args[0]? #[]
      | .map => newMap t.args[0]? t.args[1]? []
      | .pair =>
        do newPair (← defaultValue t.args[0]?) (← defaultValue t.args[1]?) t.args[0]? t.args[1]?
      | .string => pure (.text [])
      | .float | .double => pure (.real 0.0)
      | .char => pure (.char [0])
      | .bool => pure (.bool false)
      | .int | .void | .auto | .named _ => pure (.int 0) := by
  obtain ⟨base, qualified, modifiers, args, pointers, isReference⟩ := t
  rw [defaultOf.eq_def]
  dsimp only [TypeExpr.isPointer]
  simp only [decide_eq_true_eq]
  split
  · rfl
  · cases base with
    | pair =>
      rcases args with _ | ⟨_, _ | ⟨_, _⟩⟩ <;> rfl
    | _ => rfl

/-- A conversion by the base of the type and the kind of the value. -/
theorem coerceWithin_eq (room : Nat) (t : TypeExpr) (v : Value) :
    coerceWithin room t v = if t.isPointer then copyWithin room v
    else match t.base, v with
      | .vector, .list items => descend 4 room fun room => do
        newVector t.args[0]? (← items.mapM (coerceToWithin room t.args[0]?)).toArray
      | .vector, .vector _ => copyWithin room v
      | .vector, _ => fail (.conversion v.typeName "vector")
      | .map, .list items => descend 3 room fun room => do
        newMap t.args[0]? t.args[1]? (← entriesOf (copyWithin room) (coerceToWithin room t.args[0]?)
          (coerceToWithin (room + 2) t.args[1]?) items [])
      | .map, .map _ => copyWithin room v
      | .map, _ => fail (.conversion v.typeName "map")
      | .pair, v => descend 2 room fun room => do
        let p ← pairParts v
        newPair (← coerceToWithin room t.args[0]? p.1) (← coerceToWithin room t.args[1]? p.2)
          t.args[0]? t.args[1]?
      | base, v =>
        match unwrap? v with
        | some w => toScalar (copyWithin room) base w
        | none => fail (.braceList t.text) := by
  obtain ⟨base, qualified, modifiers, args, pointers, isReference⟩ := t
  rw [coerceWithin.eq_def]
  dsimp only [TypeExpr.isPointer]
  simp only [decide_eq_true_eq]
  split
  · rfl
  · cases base with
    | vector | map =>
      cases v with
      | list items =>
        rcases args with _ | ⟨_, _ | ⟨_, _⟩⟩ <;> rfl
      | _ => rfl
    | pair =>
      rcases args with _ | ⟨_, _ | ⟨_, _⟩⟩ <;> rfl
    | _ => rfl

theorem coerceWithin_of_pointer (hp : t.isPointer = true) (room : Nat) (v : Value) :
    coerceWithin room t v = copyWithin room v := by
  rw [coerceWithin_eq, if_pos hp]

theorem coerceWithin_of_scalar (hp : t.isPointer = false) (hb : t.base.isContainer = false)
    (room : Nat)
    (v : Value) : coerceWithin room t v = match unwrap? v with
      | some w => toScalar (copyWithin room) t.base w
      | none => fail (.braceList t.text) := by
  rw [coerceWithin_eq, if_neg (Bool.eq_false_iff.mp hp)]
  cases hbase : t.base with
  | vector | map | pair =>
    rw [hbase] at hb
    cases hb
  | _ => rfl

/-! A conversion to a scalar takes no room, and a copy of a scalar does not either. -/

theorem inRoom_toScalar (b : BaseType) (v : Value) :
    inRoom (fun room => toScalar (copyWithin room) b v) = toScalar copyValue b v := by
  cases b <;> rfl

theorem coerce_of_scalar (hp : t.isPointer = false) (hb : t.base.isContainer = false) (v : Value) :
    coerce t v = match unwrap? v with
      | some w => toScalar copyValue t.base w
      | none => fail (.braceList t.text) := by
  funext h
  refine (congrFun (coerceWithin_of_scalar hp hb h.room v) h).trans ?_
  cases unwrap? v with
  | none => rfl
  | some w => exact congrFun (inRoom_toScalar t.base w) h

/-! ### New numbers -/

/-- Whatever the heap is, the operation gives one value, of which `P` holds, or fails, or makes a
new non-number. -/
inductive Produces (P : Value → Prop) : HeapM Value → Prop
  | answer {op : HeapM Value} (hop : Answers P op) : Produces P op
  | nan : Produces P (do return .nan (← newMark))

namespace Produces

variable {P : Value → Prop}

theorem value (hv : P v) : Produces P (pure v) :=
  .answer (.value hv)

theorem failure (e : Failure) : Produces P (throw e) :=
  .answer (.failure e)

theorem bind {f : α → HeapM Value} (hop : Oblivious op) (hf : ∀ a, Produces P (f a)) :
    Produces P (op >>= f) := by
  cases hop with
  | value =>
    rw [pure_bind]
    exact hf _
  | failure e => exact failure e

end Produces

section Numbers

variable {P : Value → Prop} (hP : ∀ {v : Value}, v.isSimple = true → P v)

include hP

theorem produces_newReal (x : Float) : Produces P (newReal x) := by
  rw [newReal]
  split
  · exact .nan
  · exact .value (hP rfl)

theorem produces_newNumber (n : Number) : Produces P (newNumber n) := by
  cases n with
  | int n => exact .value (hP rfl)
  | real x => exact produces_newReal hP x

theorem produces_readToken (token : String) (base : Option BaseType) :
    Produces P (readToken token base) := by
  have hguess : Produces P (guessToken token) := by
    rw [guessToken]
    split
    · exact .value (hP rfl)
    · split
      · exact produces_newReal hP _
      · exact .value (hP rfl)
  unfold readToken
  split
  · split
    · exact .value (hP rfl)
    · exact .failure _
  · split
    · exact .value (hP rfl)
    · exact .failure _
  · split
    · exact produces_newReal hP _
    · exact .failure _
  · split
    · exact produces_newReal hP _
    · exact .failure _
  · split
    · exact .value (hP rfl)
    · exact .failure _
  · exact .value (hP rfl)
  · exact hguess

/-! ### Arithmetic -/

theorem produces_divideNumbers (m n : Number) : Produces P (divideNumbers m n) := by
  have hquotient : ∀ {f : Float → Float → HeapM Value}, (∀ x y, Produces P (f x y)) → Produces P (do
        let x ← orFault m.toDouble
        let y ← orFault n.toDouble
        f x y) :=
    fun hf => .bind (.orFault _) fun x => .bind (.orFault _) fun y => hf x y
  unfold divideNumbers
  split
  · split
    · exact .failure _
    · exact .value (hP rfl)
  · split
    · split
      · exact .value (hP rfl)
      · exact hquotient fun _ _ => .value (hP rfl)
    · exact hquotient fun x y => produces_newReal hP (x / y)

theorem answers_shiftInteger (op : BinaryOp) (m n : Int) : Answers P (shiftInteger op m n) := by
  rw [shiftInteger]
  split
  · exact .failure _
  · split
    · rw [shiftLeft]
      split
      · exact .value (hP rfl)
      · split
        · exact .failure _
        · exact .value (hP rfl)
    · rw [shiftRight]
      split
      · exact .value (hP rfl)
      · exact .value (hP rfl)

theorem answers_integerOperator (op : BinaryOp) (m n : Int) :
    Answers P (integerOperator op m n) := by
  unfold integerOperator
  split
  · split
    · exact .failure _
    · exact .value (hP rfl)
  · exact .value (hP rfl)
  · exact .value (hP rfl)
  · exact .value (hP rfl)
  · exact answers_shiftInteger hP op m n

theorem produces_numericOperator (op : BinaryOp) (v w : Value) (m n : Number) :
    Produces P (numericOperator op v w m n) := by
  have hsum : ∀ r : Except Fault Number, Produces P (orFault r >>= newNumber) := fun r =>
    .bind (.orFault r) (produces_newNumber hP)
  unfold numericOperator
  split
  · split
    · exact .answer (answers_integerOperator hP op _ _)
    · exact .failure _
  · split
    · exact hsum _
    · exact hsum _
    · exact hsum _
    · exact produces_divideNumbers hP m n
    · exact .failure _

/-- An operator that does not compare gives a number or a text, or moves a position. -/
theorem produces_arithmetic {op : BinaryOp} (hop : op.isComparison = false) {w : Value}
    (hmoved : ∀ loc i j, v = .iterator loc i → P (.iterator loc j)) :
    Produces P (applyBinary op v w) := by
  unfold applyBinary
  rw [if_neg (by rw [hop]; exact Bool.false_ne_true)]
  split
  · split
    · exact .value (hP rfl)
    · exact .failure _
  · split
    · split
      · unfold moveIterator
        split
        · split
          · exact .value (hP rfl)
          · exact .failure _
        · exact .bind (.orFail _) fun _ => .bind (.orFault _) fun _ => .value (hmoved _ _ _ rfl)
      · exact .failure _
    · split
      · exact .bind (.orFail _) fun _ => .bind (.orFail _) fun _ =>
          produces_numericOperator hP op _ _ _ _
      · exact .failure _

/-- The number of a value is a simple value, or the value itself. -/
theorem answers_asNumber (hv : ∀ m, v = .nan m → P v) : Answers P (orFail v.asNumber) := by
  refine .orFail fun w hw => ?_
  unfold Value.asNumber at hw
  split at hw
  · exact Except.ok.inj hw ▸ hP rfl
  · exact Except.ok.inj hw ▸ hv _ rfl
  · cases hn : v.number with
    | error e => rw [hn] at hw; cases hw
    | ok n =>
      rw [hn] at hw
      cases n <;> exact Except.ok.inj hw ▸ hP rfl

theorem produces_applyUnary (op : UnaryOp) (hv : ∀ m, v = .nan m → P v) :
    Produces P (applyUnary op v) := by
  unfold applyUnary
  split
  · exact .bind (.orFail _) fun _ => .value (hP rfl)
  · refine .bind (.orFail _) fun n => ?_
    split
    · exact produces_newNumber hP _
    · exact .value (hP rfl)
    · exact .failure _
    · exact .answer (answers_asNumber hP hv)

/-! ### Functions of numbers -/

theorem answers_squareRoot (n : Number) : Answers P (squareRoot n) := by
  unfold squareRoot
  split
  · exact (Oblivious.orFault _).bind fun _ _ => .value (hP rfl)
  · exact (Oblivious.orFault _).bind fun _ _ => .value (hP rfl)
  · exact .value (hP rfl)

theorem produces_power (m n : Number) : Produces P (power m n) := by
  unfold power
  split
  · rw [realPower]
    split
    · exact .value (hP rfl)
    · exact produces_newReal hP _
  · exact .value (hP rfl)

theorem answers_roundWith (round : Float → Except IntegerPartError Int) (n : Number) :
    Answers P (roundWith round n) := by
  have hrest : ∀ k, Answers P (orFault (Number.int k).toDouble >>= fun x => pure (Value.real x)) :=
    fun k => (Oblivious.orFault _).bind fun _ _ => .value (hP rfl)
  unfold roundWith
  cases n with
  | int k => exact hrest k
  | real x =>
    dsimp only
    split
    · exact hrest _
    · exact .failure _
    · exact .failure _

theorem produces_absolute (n : Number) : Produces P (absolute n) := by
  cases n with
  | int n => exact .value (hP rfl)
  | real x => exact produces_newReal hP _

theorem answers_decimalText (n : Number) : Answers P (decimalText n) := by
  unfold decimalText
  split
  · exact (Oblivious.integerText _).bind fun _ _ => .value (hP rfl)
  · exact .value (hP rfl)

end Numbers

end SmallCpp
