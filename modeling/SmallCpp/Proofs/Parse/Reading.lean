import SmallCpp.Parse.Stmt
import SmallCpp.Proofs.Token.Lexeme

/-!
# Reading what was written

A rule of the grammar can only fail for two reasons on a text that the grammar allows: it cannot, or
too many rules are in progress.  `Reads fits rule c Q` says exactly that: the rule reads on from `c`
to a result for which `Q` holds if it `fits`, and stops at the nesting limit otherwise.  Such
judgments are put together along the rules. -/

namespace SmallCpp.Parse

variable {c c' : Cursor} {t : Token} {ls : List Lexeme} {g : Cursor → Cursor} {joint : Joint}

variable {α β : Type}

/-! ### Running rules -/

section Run

variable {x : Parser α} {f : α → Parser β} {a : α} {c c' : Cursor} {e : Failure}

theorem run_bind_ok (h : x c = .ok a c') : (x >>= f) c = f a c' := by
  simp only [bind, EStateM.bind, h]

theorem run_bind_error (h : x c = .error e c') : (x >>= f) c = .error e c' := by
  simp only [bind, EStateM.bind, h]

theorem run_bind_eq_ok {b : β} (h : (x >>= f) c = .ok b c') :
    ∃ a c'', x c = .ok a c'' ∧ f a c'' = .ok b c' := by
  cases hx : x c with
  | ok a c'' => exact ⟨a, c'', rfl, by rw [← h, run_bind_ok hx]⟩
  | error e c'' =>
    rw [run_bind_error hx] at h
    cases h

end Run

theorem run_pure (a : α) (c : Cursor) : (pure a : Parser α) c = .ok a c := rfl

theorem run_get (f : Cursor → Parser β) (c : Cursor) : (get >>= f) c = f c c := rfl

theorem run_peek (f : Token → Parser β) (c : Cursor) : (peek >>= f) c = f (c.ahead 0) c := rfl

theorem run_peekDelimiter (text : String) (f : Bool → Parser β) (c : Cursor) :
    (peekDelimiter text >>= f) c = f ((c.ahead 0).isDelimiter text) c := rfl

theorem run_peekStd (f : Bool → Parser β) (c : Cursor) :
    (peekStd >>= f) c = f ((c.ahead 0).is .identifier "std" && (c.ahead 1).kind == .scope) c := rfl

theorem run_advance (f : Token → Parser β) (c : Cursor) :
    (advance >>= f) c = f (c.ahead 0) c.next := rfl

theorem run_discard_advance (f : Unit → Parser β) (c : Cursor) :
    (discard advance >>= f) c = f () c.next := rfl

theorem run_matchDelimiter (text : String) (c : Cursor) :
    matchDelimiter text c =
      if (c.ahead 0).isDelimiter text = true then .ok true c.next else .ok false c := by
  simp only [matchDelimiter, run_peekDelimiter]
  split
  · rfl
  · rfl

theorem run_expectDelimiter {text : String} (h : (c.ahead 0).isDelimiter text = true) :
    expectDelimiter text c = .ok (c.ahead 0) c.next := by
  simp only [expectDelimiter, run_peekDelimiter, h, if_true]
  rfl

theorem run_discard {x : Parser α} {a : α} (h : x c = .ok a c') : discard x c = .ok () c' :=
  run_bind_ok h

/-! ### Forward -/

/-- The rule reads on to what `Q` says if it fits, and stops at the nesting limit otherwise. -/
def Reads (fits : Prop) (rule : Parser α) (c : Cursor) (Q : α → Cursor → Prop) : Prop :=
  (fits → ∃ a c', rule c = .ok a c' ∧ Q a c') ∧ (¬ fits → ∃ c', rule c = .error .tooDeep c')

namespace Reads

variable {p q : Prop} {x y : Parser α} {f : α → Parser β} {c : Cursor} {Q R : α → Cursor → Prop}

theorem of_ok {a : α} (h : x c = .ok a c') (hQ : Q a c') : Reads True x c Q :=
  ⟨fun _ => ⟨a, c', h, hQ⟩, fun hno => absurd trivial hno⟩

theorem tooDeep : Reads False (throw .tooDeep : Parser α) c Q :=
  ⟨False.elim, fun _ => ⟨c, rfl⟩⟩

theorem congr (h : Reads p x c Q) (hpq : p ↔ q) : Reads q x c Q := by
  rwa [← propext hpq]

theorem run (h : Reads p x c Q) (hrun : y c' = x c) : Reads p y c' Q := by
  unfold Reads
  rwa [hrun]

theorem mono (h : Reads p x c Q) (hQ : ∀ a c', Q a c' → R a c') : Reads p x c R :=
  ⟨fun hp => (h.1 hp).imp fun _ ⟨c', hrun, ha⟩ => ⟨c', hrun, hQ _ _ ha⟩, h.2⟩

theorem bind {S : β → Cursor → Prop} (h : Reads p x c Q)
    (hf : ∀ a c', p → Q a c' → Reads q (f a) c' S) : Reads (p ∧ q) (x >>= f) c S := by
  by_cases hp : p
  · obtain ⟨a, c', hrun, ha⟩ := h.1 hp
    refine (Reads.run (hf a c' hp ha) (run_bind_ok hrun)).congr ?_
    exact ⟨fun hq => ⟨hp, hq⟩, And.right⟩
  · refine ⟨fun hpq => absurd hpq.1 hp, fun _ => ?_⟩
    obtain ⟨c', hrun⟩ := h.2 hp
    exact ⟨c', run_bind_error hrun⟩

/-- The same where the sequence as a whole leaves the first part enough room. -/
theorem bind_of_imp {S : β → Cursor → Prop} (h : Reads p x c Q) (hqp : q → p)
    (hf : ∀ a c', p → Q a c' → Reads q (f a) c' S) : Reads q (x >>= f) c S :=
  (h.bind hf).congr ⟨And.right, fun hq => ⟨hqp hq, hq⟩⟩

/-- The same where nothing stops the second part. -/
theorem bind_ok {S : β → Cursor → Prop} (h : Reads p x c Q)
    (hf : ∀ a c', Q a c' → ∃ b c'', f a c' = .ok b c'' ∧ S b c'') : Reads p (x >>= f) c S := by
  have hseq : Reads (p ∧ True) (x >>= f) c S := by
    refine h.bind fun a c' _ ha => ?_
    obtain ⟨b, c'', hrun, hb⟩ := hf a c' ha
    exact of_ok hrun hb
  exact hseq.congr (by simp)

section Repeat

variable {γ δ : Type} {more : Parser Bool} (State : List γ → Cursor → Prop)
  (Done : Cursor → Prop) (fits : γ → Prop) (view : α → δ) (key : γ → δ)
  (hstop : ∀ c, State [] c → ∃ c', more c = .ok false c' ∧ Done c')
  (hstep : ∀ b bs c, State (b :: bs) c → ∃ c', more c = .ok true c' ∧
    Reads (fits b) x c' fun a c'' => view a = key b ∧ State bs c'')

include hstop hstep

theorem repeatUpTo {bs : List γ} {n : Nat} (hbs : State bs c) (hn : bs.length < n) :
    Reads (∀ b ∈ bs, fits b) (repeatUpTo more x n) c fun as c' =>
      as.map view = bs.map key ∧ Done c' := by
  induction n generalizing bs c with
  | zero => exact absurd hn (Nat.not_lt_zero _)
  | succ n ih =>
    cases bs with
    | nil =>
      obtain ⟨c', hmore, hdone⟩ := hstop c hbs
      have hrun : Parse.repeatUpTo more x (n + 1) c = .ok [] c' := by
        rw [Parse.repeatUpTo, run_bind_ok hmore]
        rfl
      exact (of_ok hrun ⟨rfl, hdone⟩).congr (by simp)
    | cons b bs =>
      obtain ⟨c', hmore, hitem⟩ := hstep b bs c hbs
      have hrun : Parse.repeatUpTo more x (n + 1) c =
          (x >>= fun a => Parse.repeatUpTo more x n >>= fun as => pure (a :: as)) c' := by
        rw [Parse.repeatUpTo, run_bind_ok hmore]
        rfl
      rw [List.length_cons, Nat.succ_lt_succ_iff] at hn
      refine (Reads.run (hitem.bind fun a c'' _ ha => ?_) hrun).congr List.forall_mem_cons.symm
      refine (ih ha.2 hn).bind_ok fun as c''' has => ⟨a :: as, c''', rfl, ?_, has.2⟩
      rw [List.map_cons, List.map_cons, ha.1, has.1]

/-- A list of items is read if each of them is: `State bs c` says that the items `bs` are ahead, and
what is seen of an item that was read is the `key` of the one that was ahead. -/
theorem repeatWhile {bs : List γ} (hbs : State bs c) (hlen : bs.length ≤ c.size) :
    Reads (∀ b ∈ bs, fits b) (repeatWhile more x) c fun as c' =>
      as.map view = bs.map key ∧ Done c' :=
  Reads.run (Reads.repeatUpTo State Done fits view key hstop hstep hbs (Nat.lt_succ_of_le hlen)) rfl

end Repeat

end Reads

/-! ### The lexemes ahead -/

/-- The lexemes ahead, and there are no more of them than at the start. -/
structure Cursor.Sees (c : Cursor) (ls : List Lexeme) : Prop where
  lexemes : c.rest.map Token.lexeme = ls
  /-- The size still bounds the number of tokens. -/
  within : c.rest.length ≤ c.size

namespace Cursor.Sees

variable {c : Cursor} {l : Lexeme} {ls : List Lexeme}

theorem length_le (h : c.Sees ls) : ls.length ≤ c.size := by
  rw [← h.lexemes, List.length_map]
  exact h.within

theorem head (h : c.Sees (l :: ls)) : (c.ahead 0).lexeme = l := by
  obtain ⟨t, ts, hrest, rfl, -⟩ := List.map_eq_cons_iff.mp h.lexemes
  simp [Cursor.ahead, hrest]

theorem next (h : c.Sees (l :: ls)) (hl : l.kind ≠ .endOfInput) : c.next.Sees ls := by
  obtain ⟨t, ts, hrest, rfl, rfl⟩ := List.map_eq_cons_iff.mp h.lexemes
  have hwithin := h.within
  rw [hrest, List.length_cons] at hwithin
  have hkind : t.kind ≠ .endOfInput := hl
  have hnext : c.next = { c with rest := ts, previous := some t } := by
    simp [Cursor.next, hrest, hkind]
  rw [hnext]
  exact ⟨rfl, Nat.le_of_succ_le hwithin⟩

end Cursor.Sees

theorem ahead_one_of_sees {l l' : Lexeme} (h : c.Sees (l :: l' :: ls)) :
    (c.ahead 1).lexeme = l' := by
  obtain ⟨t, ts, hrest, -, hts⟩ := List.map_eq_cons_iff.mp h.lexemes
  obtain ⟨t', ts', rfl, rfl, -⟩ := List.map_eq_cons_iff.mp hts
  simp [Cursor.ahead, hrest]

theorem next_openGenerics (c : Cursor) : c.next.openGenerics = c.openGenerics := by
  unfold Cursor.next
  split
  · rfl
  · split <;> rfl

theorem next_splitCloser (c : Cursor) : c.next.splitCloser = c.splitCloser := by
  unfold Cursor.next
  split
  · rfl
  · split <;> rfl

section Tests

variable {t : Token} {l : Lexeme} (h : t.lexeme = l)

include h

theorem is_of_lexeme (kind : TokenKind) (text : String) :
    t.is kind text = (l.kind == kind && l.text == text) := by
  subst h
  rfl

theorem isDelimiter_of_lexeme (text : String) :
    t.isDelimiter text = (l.kind == .delimiter && l.text == text) := by
  subst h
  rfl

theorem isKeyword_of_lexeme (words : List String) :
    t.isKeyword words = (l.kind == .keyword && words.contains l.text) := by
  subst h
  rfl

theorem isOperator_of_lexeme (texts : List String) :
    t.isOperator texts = (l.kind == .operator && texts.contains l.text) := by
  subst h
  rfl

end Tests

/-- The lexeme of the end of the input. -/
def endLexeme : Lexeme :=
  ⟨.endOfInput, ""⟩

/-- The tokens of a text are its lexemes, and the end. -/
theorem exists_sees {source : Source} (h : Lexical.Lexes source.chars ls []) :
    ∃ tokens, source.tokenize = .ok tokens ∧ (Cursor.start tokens).Sees (ls ++ [endLexeme]) := by
  obtain ⟨tokens, htoks, rfl⟩ := Source.tokenize_of_lexes h
  have hended : ended (tokens ++ [Lexical.endAt source.chars source.chars.length]) =
      tokens ++ [Lexical.endAt source.chars source.chars.length] := by
    simp [ended, Lexical.endAt]
  refine ⟨_, htoks, ?_, Nat.le_refl _⟩
  change (ended _).map Token.lexeme = _
  rw [hended, List.map_append]
  rfl

/-! ### Backward

What a rule has read came from the tokens, so it has the form that tokens have. -/

/-- The tokens ahead were cut from a text. -/
def Cursor.Cut (c : Cursor) : Prop :=
  ∀ t ∈ c.rest, t.Cut

/-- Every result of the rule from a state with `I` is as `Q` says, and leaves a state with `I`. -/
def Ensures (I : Cursor → Prop) (rule : Parser α) (Q : α → Prop) : Prop :=
  ∀ c a c', I c → rule c = .ok a c' → I c' ∧ Q a

/-- The condition on states lasts when a token is consumed. -/
class Persists (I : Cursor → Prop) : Prop where
  next : ∀ {c : Cursor}, I c → I c.next

/-- What holds of the results of a rule on the tokens of a text. -/
abbrev Gives (rule : Parser α) (Q : α → Prop) : Prop :=
  Ensures Cursor.Cut rule Q

theorem Cursor.Cut.ahead (h : c.Cut) (distance : Nat) : (c.ahead distance).Cut := by
  unfold Cursor.ahead
  split
  · next t ht => exact h t (List.mem_of_getElem? ht)
  · cases hlast : c.rest.getLast? with
    | none => exact Token.cut_of_end rfl rfl
    | some t => exact h t (List.mem_of_getLast? hlast)

theorem Cursor.Cut.next (h : c.Cut) : c.next.Cut := by
  unfold Cursor.next
  split
  · exact h
  · next t rest hrest =>
    split
    · exact h
    · exact fun t' ht' => h t' (by rw [hrest]; exact List.mem_cons_of_mem t ht')

instance : Persists Cursor.Cut := ⟨Cursor.Cut.next⟩

namespace Ensures

variable {I : Cursor → Prop} {x : Parser α} {f : α → Parser β} {P Q : α → Prop} {R : β → Prop}

theorem pure {a : α} (h : Q a) : Ensures I (Pure.pure a) Q := by
  intro c a' c' hc hrun
  cases hrun
  exact ⟨hc, h⟩

theorem throw {e : Failure} : Ensures I (throw e : Parser α) Q :=
  fun _ _ _ _ hrun => nomatch hrun

theorem mono (h : Ensures I x P) (hPQ : ∀ a, P a → Q a) : Ensures I x Q := by
  intro c a c' hc hrun
  obtain ⟨hc', ha⟩ := h c a c' hc hrun
  exact ⟨hc', hPQ a ha⟩

theorem bind (h : Ensures I x P) (hf : ∀ a, P a → Ensures I (f a) R) : Ensures I (x >>= f) R := by
  intro c b c' hc hrun
  obtain ⟨a, c'', hx, hfa⟩ := run_bind_eq_ok hrun
  obtain ⟨hc'', ha⟩ := h c a c'' hc hx
  exact hf a ha c'' b c' hc'' hfa

theorem ite {p : Prop} [Decidable p] {y : Parser α} (hx : p → Ensures I x Q)
    (hy : ¬ p → Ensures I y Q) :
    Ensures I (if p then x else y) Q := by
  split
  · next h => exact hx h
  · next h => exact hy h

theorem get {f : Cursor → Parser β} (hf : ∀ c : Cursor, I c → Ensures I (f c) R) :
    Ensures I (MonadState.get >>= f) R :=
  fun c b c' hc hrun => hf c hc c b c' hc hrun

theorem modify (h : ∀ c, I c → I (g c)) : Ensures I (modify g : Parser Unit) fun _ => True := by
  intro c a c' hc hrun
  cases hrun
  exact ⟨h c hc, trivial⟩

theorem set (h : I c) : Ensures I (set c : Parser Unit) fun _ => True := by
  intro _ a c' _ hrun
  cases hrun
  exact ⟨h, trivial⟩

theorem discard (h : Ensures I x P) : Ensures I (discard x) fun _ => True :=
  h.bind fun _ _ => pure trivial

theorem look {g : Cursor → α} (h : ∀ c, x c = .ok (g c) c) : Ensures I x fun _ => True := by
  intro c a c' hc hrun
  rw [h] at hrun
  cases hrun
  exact ⟨hc, trivial⟩

theorem failHere (expected : String) : Ensures I (failHere expected : Parser α) Q :=
  (look fun _ => rfl).bind fun _ _ => throw

theorem repeatWhile {more : Parser Bool} (hmore : Ensures I more fun _ => True)
    (hx : Ensures I x Q) :
    Ensures I (repeatWhile more x) fun as => ∀ a ∈ as, Q a := by
  have hupTo : ∀ n, Ensures I (repeatUpTo more x n) fun as => ∀ a ∈ as, Q a := by
    intro n
    induction n with
    | zero => exact pure (by simp)
    | succ n ih =>
      refine hmore.bind fun _ _ => ite (fun _ => ?_) fun _ => pure (by simp)
      exact hx.bind fun a ha => ih.bind fun as has => pure (List.forall_mem_cons.mpr ⟨ha, has⟩)
  exact get fun c _ => hupTo _

variable [Persists I]

theorem advance : Ensures I advance fun _ => True := by
  intro c t c' hc hrun
  cases hrun
  exact ⟨Persists.next hc, trivial⟩

theorem test {x : Parser Bool} {g : Cursor → Bool} (h : ∀ c, x c = .ok (g c) c) :
    Ensures I (x >>= fun b => if b then Functor.discard Parse.advance >>= fun _ => Pure.pure true
      else Pure.pure false) fun _ => True :=
  (look h).bind fun _ _ => ite (fun _ => advance.discard.bind fun _ _ => pure trivial) fun _ =>
    pure trivial

theorem matchDelimiter (text : String) : Ensures I (matchDelimiter text) fun _ => True :=
  test fun _ => rfl

theorem matchKeyword (words : List String) : Ensures I (matchKeyword words) fun _ => True :=
  test fun _ => rfl

theorem matchOperator (texts : List String) : Ensures I (matchOperator texts) fun _ => True :=
  test fun _ => rfl

theorem expectKeyword (word : String) : Ensures I (expectKeyword word) fun _ => True :=
  (look fun _ => rfl).bind fun _ _ => ite (fun _ => advance) fun _ => failHere _

theorem expectIdentifier (description : String) :
    Ensures I (expectIdentifier description) fun _ => True :=
  (look fun _ => rfl).bind fun _ _ => ite (fun _ => advance) fun _ => failHere _

theorem commaSeparated (hx : Ensures I x Q) :
    Ensures I (commaSeparated x) fun as => ∀ a ∈ as, Q a :=
  hx.bind fun _ ha => (repeatWhile (matchDelimiter _) hx).bind fun _ has =>
    pure (List.forall_mem_cons.mpr ⟨ha, has⟩)

end Ensures

namespace Gives

theorem peek : Gives peek Token.Cut := by
  intro c t c' hc hrun
  cases hrun
  exact ⟨hc, hc.ahead 0⟩

theorem advance : Gives advance Token.Cut := by
  intro c t c' hc hrun
  cases hrun
  exact ⟨hc.next, hc.ahead 0⟩

theorem modify (h : ∀ c, (g c).rest = c.rest) : Gives (modify g : Parser Unit) fun _ => True :=
  Ensures.modify fun c hc t ht => hc t (h c ▸ ht)

end Gives

/-! ### Where operands and expressions end -/

/-- The token continues no operand. -/
structure EndsOperand (t : Token) : Prop where
  not_call : t.isDelimiter "(" = false
  not_index : t.isDelimiter "[" = false
  not_member : access? t = none
  not_step : stepOp? t = none

theorem run_stepUpTo_done {step : σ → Parser (ForInStep σ)} {s : σ} (h : step s c = .ok (.done s) c)
    (bound : Nat) : stepUpTo step bound s c = .ok s c := by
  cases bound with
  | zero => rfl
  | succ bound => exact run_bind_ok h

/-- An operand is complete where nothing continues it. -/
theorem suffixes_of_endsOperand {arguments : Parser (List Expr)} {subscript : Parser Expr}
    (h : EndsOperand (c.ahead 0)) (bound : Nat) (e : Expr) :
    stepUpTo (suffixStep arguments subscript) bound e c = .ok e c := by
  refine run_stepUpTo_done ?_ bound
  rw [suffixStep, run_peek]
  simp only [h.not_call, h.not_index, h.not_member, h.not_step, Bool.false_eq_true, if_false]
  rfl

theorem run_orFault_ok (a : α) (f : α → Parser β) (c : Cursor) :
    (orFault (.ok a) >>= f) c = f a c := rfl

section Operators

variable {operand : Nat → Parser Expr} {joint : Joint} {least : Nat}

theorem operators_of_none (h : Joint.ofToken? (c.ahead 0) = .ok none) (bound : Nat) (left : Expr) :
    stepUpTo (operatorStep operand least) bound left c = .ok left c := by
  refine run_stepUpTo_done ?_ bound
  rw [operatorStep, run_peek, h]
  rfl

/-- An operator of a lower power ends the expression before it. -/
theorem operators_of_lower (h : Joint.ofToken? (c.ahead 0) = .ok (some joint))
    (hpow : joint.power < least) (bound : Nat) (left : Expr) :
    stepUpTo (operatorStep operand least) bound left c = .ok left c := by
  refine run_stepUpTo_done ?_ bound
  rw [operatorStep, run_peek, h, run_orFault_ok]
  simp only [hpow, if_true]
  rfl

theorem run_operators (h : Joint.ofToken? (c.ahead 0) = .ok (some joint))
    (hpow : ¬ joint.power < least) (bound : Nat) (left : Expr) :
    stepUpTo (operatorStep operand least) (bound + 1) left c =
      (operand joint.rightPower >>= fun right =>
        stepUpTo (operatorStep operand least) bound (joint.build left right)) c.next := by
  rw [stepUpTo, operatorStep, bind_assoc, run_peek, h, bind_assoc, run_orFault_ok]
  simp only [hpow, if_false, bind_assoc, pure_bind]
  rfl

end Operators

def Joint.lexeme : Joint → Lexeme
  | assign op => ⟨.operator, op.symbol⟩
  | binary op =>
    ⟨if op = .shiftLeft ∨ op = .shiftRight then .stream else .operator, op.symbol⟩

theorem Joint.lexeme_kind (joint : Joint) : joint.lexeme.kind ≠ .endOfInput := by
  cases joint with
  | assign op => exact nofun
  | binary op => cases op <;> exact nofun

theorem Joint.ofToken?_of_lexeme (h : t.lexeme = joint.lexeme) :
    Joint.ofToken? t = .ok (some joint) := by
  obtain ⟨kind, text, offset, position⟩ := t
  cases joint with
  | assign op => cases h; cases op <;> rfl
  | binary op => cases h; cases op <;> rfl

theorem Joint.endsOperand_of_lexeme (h : t.lexeme = joint.lexeme) : EndsOperand t := by
  obtain ⟨kind, text, offset, position⟩ := t
  cases joint with
  | assign op => cases h; cases op <;> exact ⟨rfl, rfl, rfl, rfl⟩
  | binary op => cases h; cases op <;> exact ⟨rfl, rfl, rfl, rfl⟩

theorem endsOperand_of_endOfInput (h : t.kind = .endOfInput) : EndsOperand t := by
  obtain ⟨kind, text, offset, position⟩ := t
  cases h
  exact ⟨rfl, rfl, rfl, rfl⟩

theorem Joint.ofToken?_of_endOfInput (h : t.kind = .endOfInput) : Joint.ofToken? t = .ok none := by
  simp [Joint.ofToken?, h]

end SmallCpp.Parse
