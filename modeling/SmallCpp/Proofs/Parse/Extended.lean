import SmallCpp.Proofs.Parse.Twin

/-!
# Reading with more tokens behind

What a rule returns does not change when more tokens stand before the end, as long as it does not
look at them.  Rules look ahead by up to two tokens, so this cannot hold of every rule at every
place; but a statement holds the token that ends it, and while such a token is ahead the tokens that
a rule looks at are ahead as well.  So the rules inside a statement keep their results *if a
statement still ends ahead* when they are done, and the rules that hold the end of a statement keep
them in any case.

Two readings of the same classes and texts at different places return the same up to places.  Both
are compared with the reading of tokens that have no places, from which what is returned has none
either.

## Main results

* `inside_expression` — **expressions keep their results** inside a statement.
-/

namespace SmallCpp

variable {strict : Prop} {q : Sequel} {c d : Cursor}

/-- The token of a class and a text, without a place. -/
def Lexeme.token (l : Lexeme) : Token :=
  ⟨l.kind, l.text, 0, {}⟩

namespace Parse

variable {α β : Type} {t : Token} {a : α} {e' : Failure} {p : Prop} {x item : Parser α}

/-! ### States with more tokens -/

/-- The tokens that stand behind a source, before the end. -/
structure Sequel where
  tail : List Lexeme
  extra : Nat
  /-- The token before the source, if there is one. -/
  prior : Option Token
  bounded : tail.length ≤ extra
  plain : ∀ l ∈ tail, l.kind ≠ .endOfInput

/-- Nothing stands behind the source. -/
def Sequel.nothing (extra : Nat) (prior : Option Token) : Sequel :=
  ⟨[], extra, prior, Nat.zero_le _, nofun⟩

/-- The state without places, with the tokens of the sequel before the end. -/
def Cursor.before (q : Sequel) (c : Cursor) : Cursor :=
  { c with
    rest := c.rest.dropLast.map Token.unplaced ++
      (q.tail.map Lexeme.token ++ (c.rest.getLast?.map Token.unplaced).toList)
    previous := (c.previous.or q.prior).map Token.unplaced
    size := c.size + q.extra }

/-- No token ahead ends a statement. -/
def Cursor.Endless (c : Cursor) : Prop :=
  ∀ t ∈ c.rest, endsStmt t = false

/-- The tokens of the sequel are not looked at. -/
def Sequel.Hidden (q : Sequel) (c : Cursor) : Prop :=
  q.tail = [] ∨ ¬ c.Endless

namespace Cursor

variable {e : Cursor} {used : List Token}

theorem Endless.suffix (h : c.Endless) (hd : d.rest <:+ c.rest) : d.Endless :=
  fun t ht => h t (hd.subset ht)

theorem not_endless_of_head (hc : c.Ended) (h : endsStmt (c.ahead 0) = true) : ¬ c.Endless := by
  obtain ⟨ts, hts⟩ := hc.rest_eq
  intro hendless
  have hhead := hendless (c.ahead 0) (by rw [hts]; exact List.mem_cons_self)
  rw [h] at hhead
  cases hhead

theorem Ended.kind_ne (hc : c.Ended) (h : ¬ c.Endless) : (c.ahead 0).kind ≠ .endOfInput := by
  intro hend
  refine h fun t ht => ?_
  rw [hc.eq_end hend, List.mem_singleton] at ht
  subst ht
  simp [endsStmt, Token.isDelimiter, Token.is, hend]

/-- A statement that does not end with the first token ends behind it. -/
theorem Ended.not_endless_next (hc : c.Ended) (h : ¬ c.Endless)
    (hhead : endsStmt (c.ahead 0) = false) : ¬ c.next.Endless := by
  intro hnext
  refine h fun t ht => ?_
  rw [(hc.next (hc.kind_ne h)).rest] at ht
  rcases List.mem_cons.mp ht with rfl | hmem
  · exact hhead
  · exact hnext t hmem

/-! ### States without places -/

theorem rest_before {ts : List Token} (h : c.rest = ts ++ [t]) :
    (c.before q).rest = ts.map Token.unplaced ++ (q.tail.map Lexeme.token ++ [t.unplaced]) := by
  simp [before, h]

theorem Ended.before (hc : c.Ended) (q : Sequel) : (c.before q).Ended := by
  obtain ⟨ts, t, hrest, hkind, hts⟩ := hc.split
  have hwithin := hc.within
  have hbounded := q.bounded
  refine ⟨⟨ts.map Token.unplaced ++ q.tail.map Lexeme.token, t.unplaced, ?_, hkind, ?_⟩, ?_⟩
  · rw [rest_before hrest, List.append_assoc]
  · simp only [List.forall_mem_append, List.forall_mem_map]
    exact ⟨hts, q.plain⟩
  · rw [rest_before hrest]
    simp only [hrest, List.length_append, List.length_map, List.length_singleton] at hwithin ⊢
    show _ ≤ c.size + q.extra
    omega

theorem rest_before_nothing (hc : c.Ended) (hq : q.tail = []) :
    (c.before q).rest = c.rest.map Token.unplaced := by
  obtain ⟨ts, t, hrest, -⟩ := hc.split
  simp [rest_before hrest, hrest, hq]

theorem Ended.head_before (hc : c.Ended) (h : q.tail = [] ∨ (c.ahead 0).kind ≠ .endOfInput) :
    (c.before q).ahead 0 = (c.ahead 0).unplaced := by
  obtain ⟨ts, hts⟩ := hc.rest_eq
  rcases h with hq | hne
  · rw [Cursor.ahead, rest_before_nothing hc hq, hts]
    rfl
  · obtain ⟨us, t, hrest, hkind, -⟩ := hc.split
    cases us with
    | nil =>
      rw [hrest] at hts
      exact absurd ((List.cons.inj hts).1 ▸ hkind) hne
    | cons u us =>
      rw [hrest] at hts
      rw [Cursor.ahead, rest_before hrest, ← (List.cons.inj hts).1]
      rfl

theorem Ended.next_before (hc : c.Ended) (h : q.tail = [] ∨ (c.ahead 0).kind ≠ .endOfInput) :
    (c.before q).next = c.next.before q := by
  have hhead := hc.head_before h
  by_cases hend : (c.ahead 0).kind = .endOfInput
  · rw [next_eq_self hc hend, next_eq_self (hc.before q) (by rw [hhead]; exact hend)]
  · have hend' : ((c.before q).ahead 0).kind ≠ .endOfInput := by rwa [hhead]
    have hnext := hc.next hend
    obtain ⟨us, t, hrest, -⟩ := hnext.ended.split
    have hbefore : (c.before q).rest = (c.ahead 0).unplaced :: (c.next.before q).rest := by
      rw [rest_before hrest,
        rest_before (show c.rest = (c.ahead 0 :: us) ++ [t] by rw [hnext.rest, hrest]; rfl)]
      rfl
    have hc' : c.rest = c.ahead 0 :: c.next.rest := hnext.rest
    rw [Cursor.next, hbefore]
    simp only [Token.unplaced, hend, beq_iff_eq, if_false]
    rw [Cursor.before, Cursor.next, hc']
    simp [hend, Cursor.before, Token.unplaced]

end Cursor

/-- A state and the one without places before the sequel are twins while a statement still ends
ahead. -/
def Sequel.twins (q : Sequel) : Twins where
  Pair c c' := c' = c.before q
  Need := q.Hidden
  Inner := q.Hidden
  keep := false
  more := 0
  exact := q.tail = []
  ended h hc := h ▸ hc.before q
  head h hc hhidden := h ▸ hc.head_before (hhidden.imp_right hc.kind_ne)
  next h hc hhidden := h ▸ hc.next_before (hhidden.imp_right hc.kind_ne)
  lists h := h ▸ rfl
  withLists _ h := h ▸ rfl
  back hsuf := Or.imp_right fun hends hendless => hends (hendless.suffix hsuf)
  inner hsuf _ := Or.imp_right fun hends hendless => hends (hendless.suffix hsuf)
  stops _ _ := .inl
  further hc hhidden hhead := hhidden.imp_right fun hends => hc.not_endless_next hends hhead
  always h _ := ⟨.inl h, .inl h⟩
  more_eq _ := rfl

instance : Coe Sequel Twins := ⟨Sequel.twins⟩

/-! ### Ends of statements -/

/-- A rule keeps its result. -/
def Firm (q : Sequel) (g : α → α) (x x' : Parser α) : Prop :=
  Keeps True (fun _ => True) q g x x'

/-- A rule keeps its result, and the tokens that it consumed hold the end of a statement. -/
structure Concludes (q : Sequel) (g : α → α) (x x' : Parser α) : Prop where
  ends : ∀ c a d, c.Ended → x c = .ok a d → ¬ c.Endless
  firm : Firm q g x x'

/-- The same rule does so before the sequel. -/
abbrev Conclusive (q : Sequel) (g : α → α) (x : Parser α) : Prop :=
  Concludes q g x x

section Concludes

variable {need : Cursor → Prop} {g : α → α} {g' : β → β} {x' y y' : Parser α} {f f' : α → Parser β}

theorem Keeps.before (h : Keeps strict need q g x x') (hc : c.Ended) (hrun : x c = .ok a d)
    (hneed : need d) :
    x' (c.before q) = .ok (g a) (d.before q) := by
  obtain ⟨d', hrun', rfl⟩ := (h.ok hc hrun).2 _ rfl hneed
  exact hrun'

theorem Firm.inside (h : Firm q g x x') : Inside True q g x x' := by
  intro c hc
  cases hx : x c with
  | ok a d =>
    obtain ⟨honward, hmirror⟩ := Keeps.ok h hc hx
    exact ⟨honward, fun c' hpair _ => hmirror c' hpair trivial⟩
  | error e d => exact fun hexact _ => Keeps.error h hc hx hexact

theorem Firm.bind (h : Firm q g x x') (hf : ∀ a, Firm q g' (f a) (f' (g a))) :
    Firm q g' (x >>= f) (x' >>= f') :=
  Keeps.bind h hf (fun _ _ => trivial) fun _ _ _ _ _ _ _ _ => trivial

/-- What stands before the end of a statement is inside it. -/
theorem Inside.concludes (h : Inside True q g x x') (hf : ∀ a, Concludes q g' (f a) (f' (g a))) :
    Concludes q g' (x >>= f) (x' >>= f') where
  ends c b e hc hrun := by
    obtain ⟨a, d, hx, hfa⟩ := run_bind_eq_ok hrun
    obtain ⟨honward, -⟩ := Keeps.ok h hc hx
    exact fun hendless => (hf a).ends d b e honward.ended hfa (hendless.suffix honward.suffix)
  firm := Keeps.bind h (fun a => (hf a).firm) (fun hq _ => .inl hq) fun a d b e hd hfa _ _ =>
    .inr ((hf a).ends d b e hd hfa)

theorem Concludes.bind (h : Concludes q g x x') (hf : ∀ a, Firm q g' (f a) (f' (g a))) :
    Concludes q g' (x >>= f) (x' >>= f') where
  ends c b e hc hrun := by
    obtain ⟨a, d, hx, -⟩ := run_bind_eq_ok hrun
    exact h.ends c a d hc hx
  firm := h.firm.bind hf

theorem Concludes.inside (h : Concludes q g x x') : Inside True q g x x' :=
  h.firm.inside

theorem Concludes.throw {e : Failure} : Concludes q g (throw e : Parser α) (throw e') :=
  ⟨fun _ _ _ _ hrun => (nomatch hrun), Keeps.throw⟩

theorem Concludes.discard (h : Concludes q g x x') : Concludes q id (discard x) (discard x') :=
  h.bind fun _ => Keeps.pure rfl

theorem Concludes.ite [Decidable p] (hx : p → Concludes q g x x') (hy : ¬ p → Concludes q g y y') :
    Concludes q g (if p then x else y) (if p then x' else y') := by
  split
  · next h => exact hx h
  · next h => exact hy h

end Concludes

/-! ### Looking at all tokens -/

theorem Sequel.sees {r : Token → Bool} (hr : ∀ t, r t.unplaced = r t) :
    q.twins.Sees fun c => r (c.ahead 0) := by
  rintro c _ rfl hc hhidden
  dsimp only
  rw [hc.head_before (hhidden.imp_right hc.kind_ne), hr]

theorem inside_token : Stable strict q Token.unplaced peek := by
  refine fun c hc => ⟨.refl hc, ?_⟩
  rintro _ rfl hhidden
  refine ⟨_, ?_, rfl⟩
  rw [← hc.head_before (hhidden.imp_right hc.kind_ne)]
  rfl

theorem inside_delimiter (text : String) : Stable strict q id (peekDelimiter text) :=
  inside_look (fun _ => rfl) (q.sees (r := (·.isDelimiter text)) fun _ => rfl)

theorem inside_atEnd : Stable strict q id atEnd :=
  inside_look (fun _ => rfl) (q.sees (r := fun t => t.kind == .endOfInput) fun _ => rfl)

theorem inside_matchOperator (texts : List String) : Stable strict q id (matchOperator texts) :=
  inside_test (inside_peekOperator texts)

theorem inside_expectKeyword (word : String) :
    Stable strict q Token.unplaced (expectKeyword word) :=
  inside_expected (inside_peekKeyword [word]) _

theorem inside_expectIdentifier (description : String) :
    Stable strict q Token.unplaced (expectIdentifier description) :=
  inside_token.bind fun _ => Keeps.ite (fun _ => inside_advance) fun _ => Keeps.failHere _

theorem inside_modify {f : Cursor → Cursor} (hf : ∀ c, (f c).rest = c.rest ∧ (f c).size = c.size ∧
      (f c).previous = c.previous) (hbefore : ∀ c : Cursor, f (c.before q) = (f c).before q) :
    Stable False q id (modify f) := by
  intro c hc
  refine ⟨⟨⟨[], .of_eq hc (hf c).1 (hf c).2.1 (hf c).2.2⟩, False.elim⟩, ?_⟩
  rintro _ rfl _
  exact ⟨_, rfl, hbefore c⟩

theorem inside_type (depth : Nat) : Stable True q id (typeExpr depth) := by
  have htype := inside_typeExpr (w := q) depth
  rwa [show q.twins.more + depth = depth from Nat.zero_add depth] at htype

/-- **Expressions keep their results** inside a statement. -/
theorem inside_expression (depth least : Nat) :
    Stable True q Expr.unplaced (expression depth least) := by
  have hexpr := (insideExpr q depth).expression least
  rwa [show q.twins.more + depth = depth from Nat.zero_add depth] at hexpr

end Parse

end SmallCpp
