import SmallCpp.Proofs.Parse.Brackets
import SmallCpp.Proofs.Syntax.Unplaced

/-!
# Two readings side by side

What a rule returns does not depend on all the tokens ahead.  `Twins` relates states from which the
same is read: they see the same tokens up to a point that the first reading has not passed when it
leaves, and if the second one is at its end there, the first one sees a token with which no
expression goes on.  `Keeps` says that a rule does from the twin of a state what another one does
there, and is put together along the rules.  The second reading may have more rules in progress, and
its tokens may have lost their places.

## Main results

* `inside_typeExpr`, `insideExpr` — **types and expressions are read alike** from twins.
-/

namespace SmallCpp

variable {c d : Cursor} {w : Twins}

def Token.unplaced (t : Token) : Token :=
  ⟨t.kind, t.text, 0, {}⟩

/-- The token with its place or without it. -/
def Token.placed (keep : Bool) (t : Token) : Token :=
  ⟨t.kind, t.text, bif keep then t.offset else 0, bif keep then t.position else {}⟩

/-- The expression with its places or without them. -/
def Expr.placed (keep : Bool) (e : Expr) : Expr :=
  bif keep then e else e.unplaced

@[simp] theorem Expr.placed_true : Expr.placed true = id := rfl

@[simp] theorem Expr.placed_false : Expr.placed false = Expr.unplaced := rfl

@[simp] theorem Expr.position_unplaced (e : Expr) : e.unplaced.position = {} := by
  cases e <;> rfl

namespace Parse

variable {α β : Type} {t : Token} {a : α} {e' : Failure} {p : Prop} {x item : Parser α}
  {more : Parser Bool} {strict : Prop}

/-! ### Reading on -/

/-- All generic argument lists are closed. -/
structure Cursor.Balanced (c : Cursor) : Prop where
  closed : c.openGenerics = 0
  whole : c.splitCloser = false

/-- The state `d` lies behind `c`.  If `strict`, generic argument lists are closed again. -/
structure Cursor.Onward (strict : Prop) (c d : Cursor) : Prop where
  behind : ∃ used, c.Behind used d
  balanced : strict → c.Balanced → d.Balanced

namespace Cursor

variable {e : Cursor} {used : List Token}

theorem Ended.ahead_succ (hc : c.Ended) (hne : (c.ahead 0).kind ≠ .endOfInput) (k : Nat) :
    c.ahead (k + 1) = c.next.ahead k := by
  have hnext := hc.next hne
  obtain ⟨t, ts, hts⟩ := List.exists_cons_of_ne_nil hnext.ended.ne_nil
  have hrest := hnext.rest
  rw [hts] at hrest
  rw [Cursor.ahead, Cursor.ahead, hrest, hts, List.singleton_append, List.getElem?_cons_succ,
    List.getLast?_cons_cons]

theorem Onward.refl (hc : c.Ended) : c.Onward strict c :=
  ⟨⟨[], .refl hc⟩, fun _ => id⟩

theorem Onward.ended (h : c.Onward strict d) : d.Ended := by
  obtain ⟨used, hused⟩ := h.behind
  exact hused.ended

theorem Onward.suffix (h : c.Onward strict d) : d.rest <:+ c.rest := by
  obtain ⟨used, hused⟩ := h.behind
  exact ⟨used, hused.rest.symm⟩

theorem Onward.trans (h : c.Onward strict d) (h' : d.Onward strict e) : c.Onward strict e := by
  obtain ⟨used, hused⟩ := h.behind
  obtain ⟨others, hothers⟩ := h'.behind
  exact ⟨⟨_, hused.trans hothers⟩, fun hs hc => h'.balanced hs (h.balanced hs hc)⟩

theorem next_eq_self (hc : c.Ended) (h : (c.ahead 0).kind = .endOfInput) : c.next = c := by
  obtain ⟨ts, hts⟩ := hc.rest_eq
  simp [Cursor.next, hts, h]

theorem Onward.next (hc : c.Ended) : c.Onward strict c.next := by
  by_cases hend : (c.ahead 0).kind = .endOfInput
  · rw [next_eq_self hc hend]
    exact .refl hc
  · obtain ⟨hopen, hsplit, -⟩ := Cursor.books_inj c.books_next
    exact ⟨⟨_, hc.next hend⟩, fun _ hbal => ⟨hopen.trans hbal.closed, hsplit.trans hbal.whole⟩⟩

/-- The state with other books on generic argument lists. -/
def withLists (lists : Nat × Bool) (c : Cursor) : Cursor :=
  { c with openGenerics := lists.1, splitCloser := lists.2 }

end Cursor

/-! ### Twins -/

/-- The end of a statement, or the sign before a part of a print statement. -/
def Stops (t : Token) : Prop :=
  t.isDelimiter ";" = true ∨ t.is .stream "<<" = true

/-- The token may end a statement: a semicolon, a closing brace or a directive. -/
def endsStmt (t : Token) : Bool :=
  t.isDelimiter ";" || t.isDelimiter "\x7d" || t.kind == .directive

/-- States from which the same is read.  As long as the first one is `Inner`, both see the same
token. -/
structure Twins where
  Pair : Cursor → Cursor → Prop
  /-- What has to hold of the state in which the first reading leaves. -/
  Need : Cursor → Prop
  Inner : Cursor → Prop
  /-- The second reading sees the places of its tokens. -/
  keep : Bool
  /-- The number of rules that the second reading may have in progress besides the first's. -/
  more : Nat
  /-- The readings fail together. -/
  exact : Prop
  ended : ∀ {c c'}, Pair c c' → c.Ended → c'.Ended
  head : ∀ {c c'}, Pair c c' → c.Ended → Inner c → c'.ahead 0 = (c.ahead 0).placed keep
  next : ∀ {c c'}, Pair c c' → c.Ended → Inner c → Pair c.next c'.next
  lists : ∀ {c c'}, Pair c c' → c'.lists = c.lists
  withLists : ∀ {c c'} k, Pair c c' → Pair (c.withLists k) (c'.withLists k)
  back : ∀ {c d}, d.rest <:+ c.rest → Need d → Need c
  inner : ∀ {c d}, d.rest <:+ c.rest → d.rest.length < c.rest.length → Need d → Inner c
  stops : ∀ {c c'}, Pair c c' → c.Ended → Need c →
    Inner c ∨ (Stops (c.ahead 0) ∧ (c'.ahead 0).kind = .endOfInput)
  further : ∀ {c}, c.Ended → Inner c → endsStmt (c.ahead 0) = false → Need c.next
  always : exact → ∀ c, Need c ∧ Inner c
  more_eq : exact → more = 0

/-- What `x'` does from the twins of `c` if another rule had the result `r` from `c`: the same, if
`need` holds of the state in which that one left. -/
def Mirrors (strict : Prop) (need : Cursor → Prop) (w : Twins) (g : α → α) (x' : Parser α)
    (c : Cursor) :
    EStateM.Result Failure Cursor α → Prop
  | .ok a d =>
    c.Onward strict d ∧ ∀ c', w.Pair c c' → need d → ∃ d', x' c' = .ok (g a) d' ∧ w.Pair d d'
  | .error _ _ => w.exact → ∀ c', w.Pair c c' → ∃ e d, x' c' = .error e d

/-- From the twin of every state `x'` does what `x` does from the state. -/
def Keeps (strict : Prop) (need : Cursor → Prop) (w : Twins) (g : α → α) (x x' : Parser α) : Prop :=
  ∀ c, c.Ended → Mirrors strict need w g x' c (x c)

/-- A rule keeps its result if it leaves where it needs to. -/
def Inside (strict : Prop) (w : Twins) (g : α → α) (x x' : Parser α) : Prop :=
  Keeps strict w.Need w g x x'

/-- The same rule does so in the second reading. -/
abbrev Stable (strict : Prop) (w : Twins) (g : α → α) (x : Parser α) : Prop :=
  Inside strict w g x x

section Keeps

variable {need need' : Cursor → Prop} {g : α → α} {g' : β → β} {x' y y' : Parser α}
  {f f' : α → Parser β} {c' : Cursor}

theorem Keeps.ok (h : Keeps strict need w g x x') (hc : c.Ended) (hrun : x c = .ok a d) :
    c.Onward strict d ∧ ∀ c', w.Pair c c' → need d → ∃ d', x' c' = .ok (g a) d' ∧ w.Pair d d' := by
  have hmirrors := h c hc
  rwa [hrun] at hmirrors

theorem Keeps.error (h : Keeps strict need w g x x') (hc : c.Ended) {e : Failure}
    (hrun : x c = .error e d)
    (hexact : w.exact) (hpair : w.Pair c c') : ∃ e d, x' c' = .error e d := by
  have hmirrors := h c hc
  rw [hrun] at hmirrors
  exact hmirrors hexact c' hpair

theorem Keeps.pure {a' : α} (h : a' = g a) :
    Keeps strict need w g (Pure.pure a : Parser α) (Pure.pure a') := by
  subst h
  exact fun c hc => ⟨.refl hc, fun c' hpair _ => ⟨c', rfl, hpair⟩⟩

theorem Keeps.fail (hx : ∀ c, ∃ e d, x c = .error e d) (hx' : ∀ c, ∃ e d, x' c = .error e d) :
    Keeps strict need w g x x' := by
  intro c _
  obtain ⟨e, d, hrun⟩ := hx c
  rw [hrun]
  exact fun _ c' _ => hx' c'

theorem Keeps.throw {e : Failure} : Keeps strict need w g (throw e : Parser α) (throw e') :=
  .fail (fun _ => ⟨_, _, rfl⟩) fun _ => ⟨_, _, rfl⟩

theorem Keeps.failHere (expected : String) :
    Keeps strict need w g (failHere expected : Parser α) (Parse.failHere expected) :=
  .fail (fun _ => ⟨_, _, rfl⟩) fun _ => ⟨_, _, rfl⟩

/-- A rule that stops at once without room, where the second reading may have some. -/
theorem Keeps.tooDeep (rule : Nat → Parser α) (hx : x = MonadExcept.throw .tooDeep)
    (h : rule 0 = MonadExcept.throw .tooDeep) : Keeps strict need w g x (rule (w.more + 0)) := by
  intro c _
  rw [hx]
  intro hexact c' _
  rw [w.more_eq hexact, h]
  exact ⟨_, _, rfl⟩

/-- A sequence, if what is needed of its end implies what is needed of its middle. -/
theorem Keeps.bind (h : Keeps strict need w g x x')
    (hf : ∀ a, Keeps strict need' w g' (f a) (f' (g a)))
    (hexact : w.exact → ∀ d, need d)
    (hneed : ∀ a d b e, d.Ended → f a d = .ok b e → d.Onward strict e → need' e → need d) :
    Keeps strict need' w g' (x >>= f) (x' >>= f') := by
  intro c hc
  cases hx : x c with
  | error e d =>
    rw [run_bind_error hx]
    intro hw c' hpair
    obtain ⟨e', d', hx'⟩ := h.error hc hx hw hpair
    exact ⟨e', d', run_bind_error hx'⟩
  | ok a d =>
    obtain ⟨honward, hmirror⟩ := h.ok hc hx
    rw [run_bind_ok hx]
    cases hfa : f a d with
    | error e d₁ =>
      intro hw c' hpair
      obtain ⟨d', hx', hpair'⟩ := hmirror c' hpair (hexact hw d)
      obtain ⟨e', d₂, hfa'⟩ := (hf a).error honward.ended hfa hw hpair'
      exact ⟨e', d₂, (run_bind_ok hx').trans hfa'⟩
    | ok b e =>
      obtain ⟨honward', hmirror'⟩ := (hf a).ok honward.ended hfa
      refine ⟨honward.trans honward', fun c' hpair hneedE => ?_⟩
      obtain ⟨d', hx', hpair'⟩ := hmirror c' hpair (hneed a d b e honward.ended hfa honward' hneedE)
      obtain ⟨d₂, hfa', hpair₂⟩ := hmirror' d' hpair' hneedE
      exact ⟨d₂, (run_bind_ok hx').trans hfa', hpair₂⟩

theorem Inside.bind (h : Inside strict w g x x') (hf : ∀ a, Inside strict w g' (f a) (f' (g a))) :
    Inside strict w g' (x >>= f) (x' >>= f') :=
  Keeps.bind h hf (fun hw d => (w.always hw d).1) fun _ _ _ _ _ _ honward => w.back honward.suffix

theorem Keeps.view {g₁ : α → α} (h : Keeps strict need w g x x') (hg : ∀ a, g a = g₁ a) :
    Keeps strict need w g₁ x x' :=
  funext hg ▸ h

theorem Inside.discard (h : Inside strict w g x x') : Inside strict w id (discard x) (discard x') :=
  h.bind fun _ => Keeps.pure rfl

theorem Keeps.ite [Decidable p] (hx : p → Keeps strict need w g x x')
    (hy : ¬ p → Keeps strict need w g y y') :
    Keeps strict need w g (if p then x else y) (if p then x' else y') := by
  split
  · next h => exact hx h
  · next h => exact hy h

end Keeps

/-! ### Looking and consuming -/

/-- Twins see the same. -/
def Twins.Sees (w : Twins) (f : Cursor → Bool) : Prop :=
  ∀ c c', w.Pair c c' → c.Ended → w.Need c → f c' = f c

/-- A test that looks at a class and a text, and that no token passes at which a reading may
stop. -/
structure Test (q : Token → Bool) : Prop where
  placed : ∀ keep t, q (t.placed keep) = q t
  stops : ∀ t, q t = true → ¬ Stops t ∧ t.kind ≠ .endOfInput

section Test

variable {q : Token → Bool} {f f₁ : Cursor → Bool}

theorem Test.of_kind (hplaced : ∀ keep t, q (t.placed keep) = q t)
    (h : ∀ t, q t = true → t.kind ≠ .delimiter ∧ t.kind ≠ .stream ∧ t.kind ≠ .endOfInput) :
    Test q := by
  refine ⟨hplaced, fun t ht => ⟨fun hstops => ?_, (h t ht).2.2⟩⟩
  simp only [Stops, Token.isDelimiter, Token.is, Bool.and_eq_true, beq_iff_eq] at hstops
  exact hstops.elim (fun hkind => (h t ht).1 hkind.1) fun hkind => (h t ht).2.1 hkind.1

theorem test_kind (kind : TokenKind) (h : kind ∉ [.delimiter, .stream, .endOfInput]) :
    Test fun t => t.kind == kind :=
  .of_kind (fun _ _ => rfl) fun t ht => by simpa [eq_of_beq ht] using h

theorem test_isKeyword (words : List String) : Test (·.isKeyword words) :=
  .of_kind (fun _ _ => rfl) fun t ht => by
    simp only [Token.isKeyword, Bool.and_eq_true, beq_iff_eq] at ht
    simp [ht.1]

theorem test_isOperator (texts : List String) : Test (·.isOperator texts) :=
  .of_kind (fun _ _ => rfl) fun t ht => by
    simp only [Token.isOperator, Bool.and_eq_true, beq_iff_eq] at ht
    simp [ht.1]

theorem test_is {kind : TokenKind} {text : String} (h : text ∉ [";", "<<"])
    (hend : kind ≠ .endOfInput) :
    Test (·.is kind text) := by
  refine ⟨fun _ _ => rfl, fun t ht => ?_⟩
  simp only [Token.is, Bool.and_eq_true, beq_iff_eq] at ht
  have htext : t.text ≠ ";" ∧ t.text ≠ "<<" := by simpa [ht.2] using h
  simp [Stops, Token.isDelimiter, Token.is, htext, ht.1, hend]

theorem test_isDelimiter {text : String} (h : text ∉ [";", "<<"]) : Test (·.isDelimiter text) :=
  test_is h (by decide)

theorem Test.sees (hq : Test q) : w.Sees fun c => q (c.ahead 0) := by
  intro c c' hpair hc hneed
  dsimp only
  rcases w.stops hpair hc hneed with hinner | ⟨hstops, hend⟩
  · rw [w.head hpair hc hinner, hq.placed]
  · rw [Bool.eq_false_iff.mpr fun h => (hq.stops _ h).1 hstops, Bool.eq_false_iff.mpr fun h =>
      (hq.stops _ h).2 hend]

theorem sees_lists (k : Nat × Bool → Bool) : w.Sees fun c => k c.lists :=
  fun _ _ hpair _ _ => congrArg k (w.lists hpair)

theorem Twins.Sees.and (h : w.Sees f) (h₁ : w.Sees f₁) : w.Sees fun c => f c && f₁ c :=
  fun c c' hpair hc hneed => congrArg₂ _ (h c c' hpair hc hneed) (h₁ c c' hpair hc hneed)

/-- A look at what is behind a token that ends no statement. -/
theorem Twins.Sees.behind (h : w.Sees f) (hq : Test q)
    (hends : ∀ t, q t = true → endsStmt t = false)
    (hnext : ∀ c : Cursor, c.Ended → (c.ahead 0).kind ≠ .endOfInput → f₁ c = f c.next) :
    w.Sees fun c => q (c.ahead 0) && f₁ c := by
  intro c c' hpair hc hneed
  have hhead := hq.sees c c' hpair hc hneed
  cases hqc : q (c.ahead 0) with
  | false => simp only [hhead, hqc, Bool.false_and]
  | true =>
    obtain ⟨hstops, hend⟩ := hq.stops _ hqc
    have hinner := (w.stops hpair hc hneed).resolve_right fun h => hstops h.1
    have hend' : (c'.ahead 0).kind ≠ .endOfInput := by rwa [w.head hpair hc hinner]
    simp only [hhead, hqc, Bool.true_and]
    rw [hnext c hc hend, hnext c' (w.ended hpair hc) hend',
      h _ _ (w.next hpair hc hinner) (hc.next hend).ended (w.further hc hinner (hends _ hqc))]

end Test

section Primitives

variable {g : α → α} {x' item' : Parser α}

/-- A look at the tokens that sees the same from the twin. -/
theorem inside_look {x : Parser Bool} {f : Cursor → Bool} (hx : ∀ c, x c = .ok (f c) c)
    (hf : w.Sees f) :
    Stable strict w id x := by
  intro c hc
  rw [hx]
  refine ⟨.refl hc, fun c' hpair hneed => ⟨c', ?_, hpair⟩⟩
  rw [hx, hf c c' hpair hc hneed]
  rfl

/-- The token that is looked at is the same if it is consumed, and does not matter if it is left. -/
theorem inside_peek {k k' : Token → Parser α}
    (hlast : ∀ c, c.Ended → Consumes c.rest False c Part ((peek >>= k) c) ∨
      ∃ a, (peek >>= k) c = .ok a c ∧ ∀ t : Token, t.kind = .endOfInput → k' t = pure (g a))
    (h : ∀ t, Inside strict w g (k t) (k' (t.placed w.keep))) :
    Inside strict w g (peek >>= k) (peek >>= k') := by
  intro c hc
  have hlast := hlast c hc
  rw [run_peek] at hlast ⊢
  cases hrun : k (c.ahead 0) c with
  | error e d =>
    intro hexact c' hpair
    rw [run_peek, w.head hpair hc (w.always hexact c).2]
    exact (h _).error hc hrun hexact hpair
  | ok a d =>
    obtain ⟨honward, hmirror⟩ := (h _).ok hc hrun
    refine ⟨honward, fun c' hpair hneed => ?_⟩
    have hinner : w.Inner c → ∃ d', (peek >>= k') c' = .ok (g a) d' ∧ w.Pair d d' :=
        fun hinner => by
      rw [run_peek, w.head hpair hc hinner]
      exact hmirror c' hpair hneed
    rw [hrun] at hlast
    rcases hlast with ⟨used, hused, hpart⟩ | ⟨a, hdone, hend⟩
    · have hlen := hused.length
      have hpos := hpart.length_pos
      exact hinner (w.inner honward.suffix (by omega) hneed)
    · cases hdone
      rcases w.stops hpair hc hneed with h | ⟨-, hkind⟩
      · exact hinner h
      · rw [run_peek, hend _ hkind]
        exact ⟨c', rfl, hpair⟩

/-- A rule that looks at a token and consumes one. -/
theorem inside_first {P : List Token → Prop} [Counts P] {k k' : Token → Parser α}
    (hgains : ∀ ts n, Eats ts False n P (peek >>= k))
    (h : ∀ t, Inside strict w g (k t) (k' (t.placed w.keep))) :
    Inside strict w g (peek >>= k) (peek >>= k') :=
  inside_peek (fun c hc => .inl ((hgains _ _).part c hc.stands)) h

theorem inside_advance : Stable strict w (Token.placed w.keep) advance := by
  intro c hc
  refine ⟨.next hc, fun c' hpair hneed => ?_⟩
  have hinner : w.Inner c := by
    by_cases hend : (c.ahead 0).kind = .endOfInput
    · rw [Cursor.next_eq_self hc hend] at hneed
      refine (w.stops hpair hc hneed).resolve_right fun h => ?_
      rcases h.1 with h | h
      · simp [Token.isDelimiter, Token.is, hend] at h
      · simp [Token.is, hend] at h
    · have hlen := (hc.next hend).length
      exact w.inner ⟨_, (hc.next hend).rest.symm⟩ (by rw [hlen]; simp) hneed
  refine ⟨c'.next, ?_, w.next hpair hc hinner⟩
  rw [← w.head hpair hc hinner]
  rfl

theorem inside_peekDelimiter (text : String) (h : text ∉ [";", "<<"] := by decide) :
    Stable strict w id (peekDelimiter text) :=
  inside_look (fun _ => rfl) (test_isDelimiter h).sees

theorem inside_peekOperator (texts : List String) : Stable strict w id (peekOperator texts) :=
  inside_look (fun _ => rfl) (test_isOperator texts).sees

theorem inside_peekKeyword (words : List String) : Stable strict w id (peekKeyword words) :=
  inside_look (fun _ => rfl) (test_isKeyword words).sees

theorem endsStmt_of_kind (h : t.kind ∉ [.delimiter, .directive]) : endsStmt t = false := by
  simp only [List.mem_cons, List.not_mem_nil, or_false, not_or] at h
  simp [endsStmt, Token.isDelimiter, Token.is, h]

/-- The name of the standard namespace ends no statement. -/
theorem endsStmt_of_isStd (h : t.is .identifier "std" = true) : endsStmt t = false := by
  rw [Token.is, Bool.and_eq_true, beq_iff_eq] at h
  exact endsStmt_of_kind (by simp [h.1])

theorem inside_peekStd : Stable strict w id peekStd :=
  inside_look (fun _ => rfl)
    ((test_kind .scope (by decide)).sees.behind (test_is (by decide) (by decide))
    (fun _ => endsStmt_of_isStd)
    fun _ hc hend => by rw [hc.ahead_succ hend])

theorem inside_test {x : Parser Bool} (h : Stable strict w id x) :
    Stable strict w id (x >>= fun b => if b then discard advance >>= fun _ => pure true else pure
    false) :=
  h.bind fun _ => Keeps.ite (fun _ => inside_advance.discard.bind fun _ => Keeps.pure rfl) fun _ =>
    Keeps.pure rfl

theorem inside_matchDelimiter (text : String) (h : text ∉ [";", "<<"] := by decide) :
    Stable strict w id (matchDelimiter text) :=
  inside_test (inside_peekDelimiter text h)

theorem inside_matchKeyword (words : List String) : Stable strict w id (matchKeyword words) :=
  inside_test (inside_peekKeyword words)

theorem inside_expected {x : Parser Bool} (h : Stable strict w id x) (expected : String) :
    Stable strict w (Token.placed w.keep)
    (x >>= fun b => if b then advance else failHere expected) :=
  h.bind fun _ => Keeps.ite (fun _ => inside_advance) fun _ => Keeps.failHere _

theorem inside_expectDelimiter (text : String) (h : text ∉ [";", "<<"] := by decide) :
    Stable strict w (Token.placed w.keep) (expectDelimiter text) :=
  inside_expected (inside_peekDelimiter text h) _

/-! ### Loops -/

/-- The bound of a loop does not end it, neither here nor in the twin. -/
theorem inside_bounded {X X' : Nat → Parser α} (h : ∀ n, Inside strict w g (X n) (X' n))
    (hX : ∀ c n, c.Ended → c.rest.length < n → X n c = X (c.size + 1) c)
    (hX' : ∀ c n, c.Ended → c.rest.length < n → X' n c = X' (c.size + 1) c) :
    Inside strict w g (do X ((← get).size + 1)) (do X' ((← get).size + 1)) := by
  intro c hc
  have htwin : ∀ c', w.Pair c c' → ∃ n, X n c = X (c.size + 1) c ∧
      X' n c' = X' (c'.size + 1) c' := by
    intro c' hpair
    have hc' := w.ended hpair hc
    have hwithin := hc.within
    have hwithin' := hc'.within
    exact ⟨c.size + c'.size + 1, hX c _ hc (by omega), hX' c' _ hc' (by omega)⟩
  rw [run_get]
  cases hrun : X (c.size + 1) c with
  | error e d =>
    intro hexact c' hpair
    obtain ⟨n, hn, hn'⟩ := htwin c' hpair
    rw [run_get, ← hn']
    exact (h n).error hc (hn.trans hrun) hexact hpair
  | ok a d =>
    refine ⟨((h _).ok hc hrun).1, fun c' hpair hneed => ?_⟩
    obtain ⟨n, hn, hn'⟩ := htwin c' hpair
    rw [run_get, ← hn']
    exact ((h n).ok hc (hn.trans hrun)).2 c' hpair hneed

/-- The states of a loop, in a step of it. -/
def onStep (g : σ → σ) : ForInStep σ → ForInStep σ
  | .done s => .done (g s)
  | .yield s => .yield (g s)

theorem inside_steps {step step' : σ → Parser (ForInStep σ)} {g : σ → σ}
    (hrounds : ∀ ts n, Rounds ts False n step) (hrounds' : ∀ ts n, Rounds ts False n step')
    (hstep : ∀ s, Inside strict w (onStep g) (step s) (step' (g s))) (s : σ) :
    Inside strict w g (do stepUpTo step ((← get).size + 1) s)
    (do stepUpTo step' ((← get).size + 1) (g s)) := by
  have hupTo : ∀ bound s, Inside strict w g (stepUpTo step bound s)
      (stepUpTo step' bound (g s)) := by
    intro bound
    induction bound with
    | zero => exact fun s => Keeps.pure rfl
    | succ bound ih =>
      refine fun s => (hstep s).bind fun r => ?_
      cases r with
      | done s' => exact Keeps.pure rfl
      | yield s' => exact ih s'
  refine inside_bounded (fun n => hupTo n s) (fun c n hc hn => ?_) fun c n hc hn => ?_
  · exact (hrounds _ _).stepUpTo_eq _ _ s c hc.stands hn (Nat.lt_succ_of_le hc.within)
  · exact (hrounds' _ _).stepUpTo_eq _ _ _ c hc.stands hn (Nat.lt_succ_of_le hc.within)

theorem inside_loop (hround : ∀ ts n, Round ts False n more item)
    (hround' : ∀ ts n, Round ts False n more item')
    (hmore : Stable strict w id more) (hitem : Inside strict w g item item') :
    Inside strict w (List.map g) (repeatWhile more item) (repeatWhile more item') := by
  have hupTo : ∀ bound, Inside strict w (List.map g) (repeatUpTo more item bound)
      (repeatUpTo more item' bound) := by
    intro bound
    induction bound with
    | zero => exact Keeps.pure rfl
    | succ bound ih =>
      refine hmore.bind fun _ => Keeps.ite (fun _ => ?_) fun _ => Keeps.pure rfl
      exact hitem.bind fun a => ih.bind fun as => Keeps.pure rfl
  refine inside_bounded hupTo (fun c n hc hn => ?_) fun c n hc hn => ?_
  · exact (hround _ _).repeatUpTo_eq hc.stands hn (Nat.lt_succ_of_le hc.within)
  · exact (hround' _ _).repeatUpTo_eq hc.stands hn (Nat.lt_succ_of_le hc.within)

theorem inside_repeatWhile (hround : ∀ ts n, Round ts False n more item)
    (hmore : Stable strict w id more)
    (hitem : Stable strict w g item) : Stable strict w (List.map g) (repeatWhile more item) :=
  inside_loop hround hround hmore hitem

theorem inside_commaSeparated (hgains : ∀ ts n, Eats ts False n Part item)
    (hgains' : ∀ ts n, Eats ts False n Part item')
    (hitem : Inside strict w g item item') :
    Inside strict w (List.map g) (commaSeparated item) (commaSeparated item') :=
  hitem.bind fun _ =>
    (inside_loop (fun ts n => round_comma (hgains ts n)) (fun ts n => round_comma (hgains' ts n))
    (inside_matchDelimiter ",") hitem).bind fun _ => Keeps.pure rfl

theorem inside_commaTerminated {close : String} (hclose : Stable strict w id (peekDelimiter close))
    (hgains : ∀ ts n, Eats ts False n Part item) (hgains' : ∀ ts n, Eats ts False n Part item')
    (hitem : Inside strict w g item item') :
    Inside strict w (List.map g) (commaTerminated close item) (commaTerminated close item') := by
  have hmore : Stable strict w id (moreBefore close) := (inside_matchDelimiter ",").bind fun _ =>
    Keeps.ite (fun _ => hclose.bind fun _ => Keeps.pure rfl) fun _ => Keeps.pure rfl
  refine hclose.bind fun _ => Keeps.ite (fun _ => Keeps.pure rfl) fun _ => ?_
  exact hitem.bind fun _ => (inside_loop (fun ts n => round_moreBefore close (hgains ts n))
    (fun ts n => round_moreBefore close (hgains' ts n)) hmore hitem).bind fun _ => Keeps.pure rfl

end Primitives

/-! ### Types -/

/-- The books on generic argument lists are changed. -/
theorem inside_lists (k : Nat × Bool → Nat × Bool) :
    Stable False w id (modify fun c => c.withLists (k c.lists)) := by
  intro c hc
  refine ⟨⟨⟨[], .of_eq hc rfl rfl rfl⟩, False.elim⟩, fun c' hpair _ => ⟨_, rfl, ?_⟩⟩
  dsimp only
  rw [w.lists hpair]
  exact w.withLists _ hpair

theorem inside_modifierList : Stable strict w id modifierList :=
  Keeps.view (inside_repeatWhile (g := id) (fun _ _ => round_modifiers) (inside_peekKeyword _)
    (inside_advance.bind fun _ => Keeps.pure rfl)) List.map_id

theorem signs_placed (keep : Bool) (signs : List Token) :
    ((signs.map (Token.placed keep)).filter fun t => t.text == "*").length =
        (signs.filter fun t => t.text == "*").length ∧
      ((signs.map (Token.placed keep)).any fun t => t.text != "*") = signs.any fun t =>
      t.text != "*" := by
  rw [List.filter_map, List.length_map, List.any_map]
  exact ⟨rfl, rfl⟩

theorem inside_typeSigns : Stable strict w id typeSigns := by
  have hmore : Stable strict w id (do return !(← get).splitCloser && (← peekOperator ["*", "&"])) :=
    inside_look (fun _ => rfl) ((sees_lists fun k => !k.2).and (test_isOperator ["*", "&"]).sees)
  refine (inside_repeatWhile (fun _ _ => round_typeSigns) hmore inside_advance).bind fun signs =>
    Keeps.pure ?_
  obtain ⟨hptrs, href⟩ := signs_placed w.keep signs
  rw [hptrs, href]
  rfl

theorem test_isIntegerAlias : Test isIntegerAlias :=
  .of_kind (fun _ _ => rfl) fun t ht => by
    simp only [isIntegerAlias, Bool.and_eq_true, beq_iff_eq] at ht
    simp [ht.1]

theorem inside_skipIntegerAlias : Stable strict w id skipIntegerAlias :=
  (inside_repeatWhile (fun _ _ => round_integerAlias)
    (inside_look (fun _ => rfl) test_isIntegerAlias.sees)
    inside_advance).bind fun _ => (inside_matchKeyword _).discard

theorem inside_splitCloser : Stable strict w id (do return (← get).splitCloser) :=
  inside_look (fun _ => rfl) (sees_lists Prod.snd)

/-- The rule that closes a generic argument list as a choice between three changes. -/
theorem closeGeneric_eq : closeGeneric = (do
    if ← (do return (← get).splitCloser) then
      modify fun c => { c with splitCloser := false, openGenerics := c.openGenerics - 1 }
    else if ← peekOperator [">"] then
      discard advance
      modify fun c => { c with openGenerics := c.openGenerics - 1 }
    else if ← (do return (← peek).is .stream ">>" && 2 ≤ (← get).openGenerics) then
      discard advance
      modify fun c => { c with splitCloser := true, openGenerics := c.openGenerics - 1 }
    else
      let t ← peek
      throw (.error (.unbalancedGenerics t.described (some t.offset)) t.position)) := by
  funext c
  rw [closeGeneric, run_get]
  change _ = (if c.splitCloser = true then _ else _ : Parser Unit) c
  split
  · rfl
  · change _ = (if (c.ahead 0).isOperator [">"] = true then _ else _ : Parser Unit) c
    dsimp only
    split
    · rfl
    · change _ = (if ((c.ahead 0).is .stream ">>" && 2 ≤ c.openGenerics) =
        true then _ else _ : Parser Unit) c
      split
      · rfl
      · rfl

theorem inside_closeGeneric : Stable False w id closeGeneric := by
  have hdouble : Stable False w id
      (do return (← peek).is .stream ">>" && 2 ≤ (← get).openGenerics) :=
    inside_look (fun _ => rfl)
    ((test_is (by decide) (by decide)).sees.and (sees_lists fun k => 2 ≤ k.1))
  rw [closeGeneric_eq]
  refine inside_splitCloser.bind fun _ =>
    Keeps.ite (fun _ => inside_lists fun k => (k.1 - 1, false)) fun _ => ?_
  refine (inside_peekOperator _).bind fun _ => Keeps.ite
    (fun _ => inside_advance.discard.bind fun _ => inside_lists fun k => (k.1 - 1, k.2)) fun _ => ?_
  refine hdouble.bind fun _ => Keeps.ite
    (fun _ => inside_advance.discard.bind fun _ => inside_lists fun k => (k.1 - 1, true))
    fun _ => ?_
  exact Keeps.fail (fun _ => ⟨_, _, rfl⟩) fun _ => ⟨_, _, rfl⟩

theorem inside_typeBase {depth : Nat}
    (hargs : Inside False w id (genericArgs depth) (genericArgs (w.more + depth))) :
    Inside False w id (typeBase (genericArgs depth)) (typeBase (genericArgs (w.more + depth))) := by
  have hopt : ∀ allowed, Inside False w id (optionalArgs (genericArgs depth) allowed)
      (optionalArgs (genericArgs (w.more + depth)) allowed) :=
    fun _ => (inside_peekOperator _).bind fun _ => Keeps.ite (fun _ => hargs) fun _ =>
    Keeps.pure rfl
  have hword : ∀ a : BaseType × Bool × List TypeExpr,
      Stable False w id (discard advance >>= fun _ => pure a) :=
    fun a => inside_advance.discard.bind fun _ => Keeps.pure rfl
  refine inside_first (fun _ _ => eats_typeBase fun m _ c hc hord =>
    ((eats_typeExpr depth).2 m c hc hord).weaken False.elim) fun t =>
    inside_peekStd.bind fun std => ?_
  refine Keeps.ite (fun _ => ?_) fun _ => Keeps.ite (fun _ => ?_) fun _ =>
    Keeps.ite (fun _ => hword _) fun _ =>
    Keeps.ite (fun _ => ?_) fun _ => Keeps.ite (fun _ => hword _) fun _ => Keeps.failHere _
  · exact inside_advance.discard.bind fun _ => (hopt _).bind fun _ => Keeps.pure rfl
  · refine inside_advance.discard.bind fun _ => inside_advance.discard.bind fun _ =>
      inside_advance.bind fun _ =>
      Keeps.ite (fun _ => Keeps.throw) fun _ => ?_
    exact (hopt _).bind fun _ => Keeps.pure rfl
  · exact inside_skipIntegerAlias.bind fun _ => Keeps.pure rfl

theorem inside_moreArgs : Stable False w id moreArgs := by
  have hmore : moreArgs =
    (do if ← (do return (← get).splitCloser) then return false else matchDelimiter ",") := rfl
  rw [hmore]
  exact inside_splitCloser.bind fun _ => Keeps.ite (fun _ => Keeps.pure rfl) fun _ =>
    inside_matchDelimiter ","

/-- The rules for types keep their results, whatever becomes of the lists around them. -/
theorem inside_types (depth : Nat) :
    Inside False w id (typeExpr depth) (typeExpr (w.more + depth)) ∧
    Inside False w id (genericArgs depth) (genericArgs (w.more + depth)) := by
  induction depth with
  | zero => exact ⟨.tooDeep typeExpr rfl rfl, .tooDeep genericArgs rfl rfl⟩
  | succ depth ih =>
    refine ⟨?_, ?_⟩
    · rw [typeExpr_succ, ← Nat.add_assoc, typeExpr_succ]
      exact inside_modifierList.bind fun _ => (inside_typeBase ih.2).bind fun _ =>
        inside_typeSigns.bind fun _ =>
        Keeps.pure rfl
    · have hround : ∀ k ts n, Round ts False n moreArgs (typeExpr k) := fun k _ n =>
        round_moreArgs (((eats_typeExpr k).1 n).weaken False.elim)
      rw [genericArgs, ← Nat.add_assoc, genericArgs]
      refine inside_advance.discard.bind fun _ =>
        Inside.bind (inside_lists fun k => (k.1 + 1, k.2)) fun _ =>
        ih.1.bind fun _ =>
        (inside_loop (hround depth) (hround _) inside_moreArgs ih.1).bind fun _ =>
        inside_closeGeneric.bind fun _ => Keeps.pure ?_
      rw [List.map_id]
      rfl

/-- **Types are read alike** from twins. -/
theorem inside_typeExpr (depth : Nat) :
    Inside True w id (typeExpr depth) (typeExpr (w.more + depth)) := by
  intro c hc
  cases hrun : typeExpr depth c with
  | error e d => exact fun hexact _ => (inside_types depth).1.error hc hrun hexact
  | ok t d =>
    obtain ⟨honward, hmirror⟩ := (inside_types (w := w) depth).1.ok hc hrun
    obtain ⟨used, -, -, hlevel⟩ := (level_typeExpr depth).1 c t d hrun
    refine ⟨⟨honward.behind, fun _ hbal => ?_⟩, hmirror⟩
    obtain ⟨hopen, -, hsplit⟩ := (hlevel hbal.whole).2
    rw [hbal.closed] at hopen hsplit
    exact ⟨hopen, Bool.eq_false_iff.mpr fun h => absurd (hsplit h) (by decide)⟩

/-! ### Operators and suffixes -/

section ExprParts

variable {e : Expr}

theorem inside_orFault (x : Except Fault α) : Stable strict w id (orFault x) := by
  cases x with
  | ok a => exact Keeps.pure rfl
  | error fault => exact Keeps.throw

theorem placed_build (keep : Bool) (joint : Joint) (l r : Expr) :
    joint.build (l.placed keep) (r.placed keep) = (joint.build l r).placed keep := by
  cases keep
  · cases joint <;> simp [Joint.build, Expr.placed]
  · rfl

theorem inside_operatorStep {operand operand' : Nat → Parser Expr} (least : Nat)
    (hgains : ∀ ts n k, Eats ts False n Opening (operand k))
    (h : ∀ k, Inside True w (Expr.placed w.keep) (operand k) (operand' k)) (e : Expr) :
    Inside True w (onStep (Expr.placed w.keep)) (operatorStep operand least e)
      (operatorStep operand' least (e.placed w.keep)) := by
  refine inside_peek (fun c hc => (operatorStep_cases least (hgains _ _) hc.stands e).symm.imp_right
    fun hdone =>
    ⟨_, hdone, fun t hend => by simp [Joint.ofToken?, hend, orFault, onStep]⟩) fun t => ?_
  refine (inside_orFault _).bind fun joint => ?_
  cases joint with
  | none => exact Keeps.pure rfl
  | some joint =>
    refine Keeps.ite (fun _ => Keeps.pure rfl) fun _ => inside_advance.discard.bind fun _ => ?_
    exact (h _).bind fun right =>
      Keeps.pure (congrArg ForInStep.yield (placed_build _ joint e right))

theorem inside_memberName (access : Access) : Stable True w id (memberName access) :=
  inside_first (fun _ _ => eats_memberName access) fun _ => Keeps.ite
    (fun _ => inside_advance.discard.bind fun _ => Keeps.pure rfl) fun _ => Keeps.failHere _

theorem inside_suffixStep {arguments arguments' : Parser (List Expr)}
    {subscript subscript' : Parser Expr}
    (hargsGain : ∀ ts n, Eats ts False n Part arguments)
    (hsubscriptGain : ∀ ts n, Eats ts False n Opening subscript)
    (hargs : Inside True w (List.map (Expr.placed w.keep)) arguments arguments')
    (hsubscript : Inside True w (Expr.placed w.keep) subscript subscript') (e : Expr) :
    Inside True w (onStep (Expr.placed w.keep)) (suffixStep arguments subscript e)
      (suffixStep arguments' subscript' (e.placed w.keep)) := by
  refine inside_peek (fun c hc =>
    (suffixStep_cases (hargsGain _ _) (fun m _ => hsubscriptGain _ m) hc.stands
    e).symm.imp_right fun hdone => ⟨_, hdone, fun t hend => by
      simp [Token.isDelimiter, Token.is, access?, stepOp?, Token.isOperator, hend, onStep]⟩)
        fun t => ?_
  refine Keeps.ite (fun _ => ?_) fun _ => Keeps.ite (fun _ => ?_) fun _ => ?_
  · exact hargs.bind fun _ => Keeps.pure (by cases w.keep <;> simp [onStep])
  · exact inside_advance.discard.bind fun _ => hsubscript.bind fun _ =>
      (inside_expectDelimiter _).discard.bind fun _ =>
      Keeps.pure (by cases w.keep <;> simp [onStep])
  rw [show access? (t.placed w.keep) = access? t from rfl,
    show stepOp? (t.placed w.keep) = stepOp? t from rfl]
  cases access? t with
  | some access =>
    exact inside_advance.discard.bind fun _ => (inside_memberName access).bind fun _ =>
      Keeps.pure (by cases w.keep <;> simp [onStep])
  | none =>
    cases stepOp? t with
    | some op =>
      exact inside_advance.discard.bind fun _ => Keeps.pure (by cases w.keep <;> simp [onStep])
    | none => exact Keeps.pure rfl

/-- Parentheses with nothing between them. -/
def Cursor.emptyParens (c : Cursor) : Bool :=
  (c.ahead 0).isDelimiter "(" && (c.ahead 1).isDelimiter ")"

theorem run_emptyParens (x y : Parser α) :
    (do if (← peekDelimiter "(") && (← peekAhead 1).isDelimiter ")" then x else y) =
      (do if ← (do return (← get).emptyParens) then x else y) :=
  rfl

theorem inside_emptyParens : Stable strict w id (do return (← get).emptyParens) := by
  have hclose : Test (·.isDelimiter ")") := test_isDelimiter (by decide)
  refine inside_look (fun _ => rfl) (hclose.sees.behind (test_isDelimiter (by decide)) ?_
    fun _ hc hend => by rw [hc.ahead_succ hend])
  intro t ht
  simp only [Token.isDelimiter, Token.is, Bool.and_eq_true, beq_iff_eq] at ht
  simp [endsStmt, Token.isDelimiter, Token.is, ht.1, ht.2]

end ExprParts

/-! ### Expressions -/

/-- The rules for expressions keep their results. -/
structure InsideExpr (w : Twins) (depth : Nat) : Prop where
  expression : ∀ least, Inside True w (Expr.placed w.keep) (expression depth least)
    (expression (w.more + depth) least)
  unary : Inside True w (Expr.placed w.keep) (unary depth) (unary (w.more + depth))
  suffixes : ∀ e, Inside True w (Expr.placed w.keep) (suffixes depth e)
    (suffixes (w.more + depth) (e.placed w.keep))
  arguments : Inside True w (List.map (Expr.placed w.keep)) (arguments depth)
    (arguments (w.more + depth))
  primary : Inside True w (Expr.placed w.keep) (primary depth) (primary (w.more + depth))
  allocation : Inside True w (Expr.placed w.keep) (allocation depth) (allocation (w.more + depth))
  listBetween : ∀ close, close ∉ [";", "<<"] →
    Inside True w (Expr.placed w.keep) (listBetween depth close)
    (listBetween (w.more + depth) close)

namespace InsideExpr

variable {depth : Nat}

theorem zero : InsideExpr w 0 := by
  constructor
  case expression =>
    exact fun least => .tooDeep (Parse.expression · least) (by rw [Parse.expression])
      (by rw [Parse.expression])
  case unary => exact .tooDeep Parse.unary (by rw [Parse.unary]) (by rw [Parse.unary])
  case suffixes =>
    exact fun e => .tooDeep (Parse.suffixes · (e.placed w.keep)) (by rw [Parse.suffixes])
      (by rw [Parse.suffixes])
  case arguments =>
    exact .tooDeep Parse.arguments (by rw [Parse.arguments]) (by rw [Parse.arguments])
  case primary => exact .tooDeep Parse.primary (by rw [Parse.primary]) (by rw [Parse.primary])
  case allocation =>
    exact .tooDeep Parse.allocation (by rw [Parse.allocation]) (by rw [Parse.allocation])
  case listBetween =>
    exact fun close _ => .tooDeep (Parse.listBetween · close) (by rw [Parse.listBetween])
      (by rw [Parse.listBetween])

theorem gains (depth : Nat) (ts : List Token) (n least : Nat) :
    Eats ts False n Opening (Parse.expression depth least) :=
  ((eatsExpr ts depth).expression n least).weaken False.elim

theorem gains_arguments (depth : Nat) (ts : List Token) (n : Nat) :
    Eats ts False n Part (Parse.arguments depth) :=
  ((eatsExpr ts depth).arguments n).weaken False.elim

variable (h : InsideExpr w depth)

include h

theorem expression_succ (least : Nat) :
    Inside True w (Expr.placed w.keep) (Parse.expression (depth + 1) least)
    (Parse.expression (w.more + depth + 1) least) := by
  rw [Parse.expression, Parse.expression]
  refine h.unary.bind fun left => ?_
  simp only [climb]
  exact inside_steps (fun ts n => rounds_operator least (gains depth ts n))
    (fun ts n => rounds_operator least (gains _ ts n))
    (inside_operatorStep least (gains depth) h.expression) left

theorem unary_succ :
    Inside True w (Expr.placed w.keep) (Parse.unary (depth + 1))
    (Parse.unary (w.more + depth + 1)) := by
  have hgains : ∀ ts n, Eats ts False n Opening (Parse.unary (depth + 1)) := fun ts n =>
    ((eatsExpr ts _).unary n).weaken False.elim
  rw [Parse.unary] at hgains ⊢
  rw [Parse.unary]
  refine inside_first hgains fun t => ?_
  rw [show unaryOp? (t.placed w.keep) = unaryOp? t from rfl]
  cases unaryOp? t with
  | some op =>
    exact inside_advance.discard.bind fun _ => h.unary.bind fun _ =>
      Keeps.pure (by cases w.keep <;> rfl)
  | none => exact h.primary.bind h.suffixes

theorem suffixes_succ (e : Expr) : Inside True w (Expr.placed w.keep) (Parse.suffixes (depth + 1) e)
    (Parse.suffixes (w.more + depth + 1) (e.placed w.keep)) := by
  simp only [Parse.suffixes]
  refine inside_steps (fun ts n => ?_) (fun ts n => ?_) (inside_suffixStep (gains_arguments depth)
    (fun ts n => gains depth ts n _) h.arguments (h.expression _)) e
  · exact rounds_suffix (gains_arguments depth ts n) fun m _ => gains depth ts m _
  · exact rounds_suffix (gains_arguments _ ts n) fun m _ => gains _ ts m _

theorem arguments_succ : Inside True w (List.map (Expr.placed w.keep)) (Parse.arguments (depth + 1))
    (Parse.arguments (w.more + depth + 1)) := by
  have hclose : ∀ args : List Expr, Inside True w (List.map (Expr.placed w.keep))
      (discard (expectDelimiter ")") >>= fun _ => pure args)
      (discard (expectDelimiter ")") >>= fun _ => pure (args.map (Expr.placed w.keep))) := fun _ =>
    (inside_expectDelimiter _).discard.bind fun _ => Keeps.pure rfl
  rw [Parse.arguments, Parse.arguments]
  refine (inside_expectDelimiter _).discard.bind fun _ => ?_
  refine (inside_peekDelimiter _).bind fun _ => Keeps.ite (fun _ => hclose []) fun _ => ?_
  exact (inside_commaSeparated (fun ts n => (gains depth ts n _).part)
    (fun ts n => (gains _ ts n _).part)
    (h.expression _)).bind hclose

theorem primary_succ : Inside True w (Expr.placed w.keep) (Parse.primary (depth + 1))
    (Parse.primary (w.more + depth + 1)) := by
  have hone : ∀ {e e' : Expr}, e' = e.placed w.keep → Inside True w (Expr.placed w.keep)
      (discard advance >>= fun _ => pure e) (discard advance >>= fun _ => pure e') := fun he =>
    inside_advance.discard.bind fun _ => Keeps.pure he
  have hgains : ∀ ts n, Eats ts False n Opening (Parse.primary (depth + 1)) := fun ts n =>
    ((eatsExpr ts _).primary n).weaken False.elim
  rw [Parse.primary] at hgains ⊢
  rw [Parse.primary]
  refine inside_first hgains fun t => (inside_orFault _).bind fun value => ?_
  cases value with
  | some value => exact hone (by cases w.keep <;> rfl)
  | none =>
    refine Keeps.ite (fun _ => hone (by cases w.keep <;> rfl)) fun _ => ?_
    refine Keeps.ite (fun _ => hone (by cases w.keep <;> rfl)) fun _ =>
      Keeps.ite (fun _ => h.allocation) fun _ => ?_
    refine Keeps.ite (fun _ => ?_) fun _ =>
      Keeps.ite (fun _ => h.listBetween _ (by decide)) fun _ => ?_
    · exact inside_advance.discard.bind fun _ => (h.expression _).bind fun _ =>
        (inside_expectDelimiter _).discard.bind fun _ => Keeps.pure rfl
    · exact Keeps.ite (fun _ => h.listBetween _ (by decide)) fun _ => Keeps.failHere _

theorem allocation_succ : Inside True w (Expr.placed w.keep) (Parse.allocation (depth + 1))
    (Parse.allocation (w.more + depth + 1)) := by
  rw [Parse.allocation, Parse.allocation]
  refine inside_advance.bind fun t => (inside_typeExpr depth).bind fun type => ?_
  refine (inside_matchDelimiter _).bind fun _ => Keeps.ite (fun _ => ?_) fun _ => ?_
  · exact (h.expression _).bind fun _ => (inside_expectDelimiter _).discard.bind fun _ =>
      Keeps.pure (by cases w.keep <;> rfl)
  · rw [run_emptyParens, run_emptyParens]
    refine inside_emptyParens.bind fun _ => Keeps.ite (fun _ => ?_) fun _ =>
      Keeps.pure (by cases w.keep <;> rfl)
    exact inside_advance.discard.bind fun _ => inside_advance.discard.bind fun _ =>
      Keeps.pure (by cases w.keep <;> rfl)

theorem listBetween_succ {close : String} (hclose : close ∉ [";", "<<"]) :
    Inside True w (Expr.placed w.keep) (Parse.listBetween (depth + 1) close)
      (Parse.listBetween (w.more + depth + 1) close) := by
  rw [Parse.listBetween, Parse.listBetween]
  refine inside_advance.bind fun t => (inside_commaTerminated (inside_peekDelimiter close hclose)
    (fun ts n => (gains depth ts n _).part) (fun ts n => (gains _ ts n _).part)
    (h.expression _)).bind fun es => ?_
  exact (inside_expectDelimiter _ hclose).discard.bind fun _ =>
    Keeps.pure (by cases w.keep <;> simp [Token.placed])

end InsideExpr

/-- **Expressions are read alike** from twins. -/
theorem insideExpr (w : Twins) (depth : Nat) : InsideExpr w depth := by
  induction depth with
  | zero => exact .zero
  | succ depth ih =>
    exact ⟨ih.expression_succ, ih.unary_succ, ih.suffixes_succ, ih.arguments_succ, ih.primary_succ,
      ih.allocation_succ, fun _ => ih.listBetween_succ⟩

end Parse

end SmallCpp
