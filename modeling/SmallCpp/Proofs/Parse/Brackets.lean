import SmallCpp.Proofs.Parse.Consumed

/-!
# Generic brackets

A rule takes tokens from the front.  `Spans rule c R` says of every result that the rule has from
`c`: the tokens ahead of `c` are some tokens `used`, followed by those that are ahead afterwards,
and `R` holds of `used`, of the result and of the state afterwards.  Nothing is said of failures, so
nothing is asked of the tokens: they need not have an end, and need not come from a text.

The first use of it are the brackets of types.  A double sign closes two generic argument lists, and
which list it was read for is recorded in the state; so the lists that are still to be closed by
tokens are counted, and every token moves the count by its weight.

## Main results

* `bracketSum_of_typeExpr` — **the generic brackets of a type balance exactly.**
-/

namespace SmallCpp.Parse

variable {α β : Type} {c c' : Cursor} {t : Token} {a : α} {p : Prop} {y x : Parser α}
  {q : Token → Bool} {f : α → Parser β}

/-! ### Spans -/

/-- Every result of the rule from `c` is as `R` says, with the tokens consumed on the way. -/
def Spans (x : Parser α) (c : Cursor) (R : List Token → α → Cursor → Prop) : Prop :=
  ∀ a c', x c = .ok a c' → ∃ used, c.rest = used ++ c'.rest ∧ R used a c'

/-- A token that is not the end is the first of the tokens ahead. -/
theorem Cursor.rest_eq (h : (c.ahead 0).kind ≠ .endOfInput) :
    c.rest = c.ahead 0 :: c.next.rest := by
  unfold Cursor.ahead at h ⊢
  unfold Cursor.next
  cases hrest : c.rest with
  | nil => simp [hrest, endToken] at h
  | cons t ts =>
    simp only [hrest, List.getElem?_cons_zero] at h ⊢
    simp [h]

/-- The token behind the current one, if it is another one. -/
theorem Cursor.ahead_one (h : (c.ahead 0).kind ≠ .endOfInput) (hne : c.ahead 1 ≠ c.ahead 0) :
    c.next.ahead 0 = c.ahead 1 := by
  have hrest := c.rest_eq h
  cases hnext : c.next.rest with
  | nil =>
    rw [hnext] at hrest
    have hone : c.ahead 1 = c.ahead 0 := by
      conv_lhs => rw [Cursor.ahead, hrest]
      rfl
    exact absurd hone hne
  | cons u us =>
    rw [hnext] at hrest
    rw [Cursor.ahead, Cursor.ahead, hrest, hnext]
    rfl

namespace Spans

variable {R S : List Token → α → Cursor → Prop} {Q : List Token → β → Cursor → Prop}

theorem pure (h : R [] a c) : Spans (Pure.pure a) c R := by
  intro b c' hrun
  cases hrun
  exact ⟨[], rfl, h⟩

theorem throw {e : Failure} : Spans (throw e) c R :=
  fun _ _ hrun => nomatch hrun

theorem mono (h : Spans x c R) (hRS : ∀ used a c', x c = .ok a c' → R used a c' → S used a c') :
    Spans x c S := by
  intro a c' hrun
  obtain ⟨used, hrest, hR⟩ := h a c' hrun
  exact ⟨used, hrest, hRS used a c' hrun hR⟩

theorem bind (h : Spans x c R)
    (hf : ∀ a c' used, x c = .ok a c' → R used a c' → Spans (f a) c' fun more => Q (used ++ more)) :
    Spans (x >>= f) c Q := by
  intro b d hrun
  obtain ⟨a, c', hx, hfa⟩ := run_bind_eq_ok hrun
  obtain ⟨used, hrest, hR⟩ := h a c' hx
  obtain ⟨more, hmore, hQ⟩ := hf a c' used hx hR b d hfa
  exact ⟨used ++ more, by rw [hrest, hmore, List.append_assoc], hQ⟩

/-- The last part of a rule, and what `g` makes of its result. -/
theorem last {g : α → β} (h : Spans x c R) (hQ : ∀ a c' used, R used a c' → Q used (g a) c') :
    Spans (x >>= fun a => Pure.pure (g a)) c Q :=
  h.bind fun a c' used _ hR => .pure (by rw [List.append_nil]; exact hQ a c' used hR)

theorem look (h : x c = .ok a c) (hf : Spans (f a) c Q) : Spans (x >>= f) c Q := by
  intro b d hrun
  rw [run_bind_ok h] at hrun
  exact hf b d hrun

theorem advance {R : List Token → Token → Cursor → Prop} (h : (c.ahead 0).kind ≠ .endOfInput)
    (hR : R [c.ahead 0] (c.ahead 0) c.next) : Spans advance c R := by
  intro a c' hrun
  cases hrun
  exact ⟨[c.ahead 0], c.rest_eq h, hR⟩

theorem ite [Decidable p] (hx : p → Spans x c R) (hy : ¬ p → Spans y c R) :
    Spans (if p then x else y) c R := by
  split
  · next h => exact hx h
  · next h => exact hy h

end Spans

/-! ### Bookkeeping

The rules for types open and close generic argument lists; no other rule touches the lists, and none
but template headers introduces type names. -/

/-- The bookkeeping of generic argument lists. -/
def Cursor.lists (c : Cursor) : Nat × Bool :=
  (c.openGenerics, c.splitCloser)

/-- The bookkeeping of generic argument lists and type names. -/
def Cursor.books (c : Cursor) : (Nat × Bool) × List String :=
  (c.lists, c.typeNames)

theorem Cursor.books_next (c : Cursor) : c.next.books = c.books := by
  unfold Cursor.next
  split
  · rfl
  · split <;> rfl

theorem Cursor.books_inj (h : c'.books = c.books) :
    c'.openGenerics = c.openGenerics ∧ c'.splitCloser = c.splitCloser ∧
    c'.typeNames = c.typeNames :=
  ⟨congrArg (fun b => b.1.1) h, congrArg (fun b => b.1.2) h, congrArg Prod.snd h⟩

/-- Behind a type all lists that it opened are closed again, and half of a double sign may be used
up only if a list is still open. -/
structure Cursor.Closes (c c' : Cursor) : Prop where
  openGenerics : c'.openGenerics = c.openGenerics
  typeNames : c'.typeNames = c.typeNames
  split : c'.splitCloser = true → 1 ≤ c.openGenerics

theorem Cursor.closes_of_books (hwhole : c.splitCloser = false) (h : c'.books = c.books) :
    c.Closes c' := by
  obtain ⟨hopen, hsplit, hnames⟩ := Cursor.books_inj h
  refine ⟨hopen, hnames, fun h => ?_⟩
  rw [hsplit, hwhole] at h
  cases h

/-! ### Brackets -/

/-- How many generic argument lists a token opens, less those that it closes. -/
def bracketWeight (t : Token) : Int :=
  if t.isOperator ["<"] then 1
  else if t.isOperator [">"] then -1
  else if t.is .stream ">>" then -2
  else 0

/-- How many generic argument lists tokens open, less those that they close. -/
def bracketSum (ts : List Token) : Int :=
  ts.foldr (bracketWeight · + ·) 0

/-- The generic argument lists that tokens have still to close: not the one for which half of a
double sign is left. -/
def Cursor.debt (c : Cursor) : Int :=
  c.openGenerics - if c.splitCloser then 1 else 0

/-- Along the tokens from `c` to `c'` no list is closed that is not open, and the lists that are
open afterwards are those that they leave open. -/
structure Balances (c : Cursor) (used : List Token) (c' : Cursor) : Prop where
  above : ∀ front, front <+: used → 0 ≤ c.debt + bracketSum front
  debt_eq : c'.debt = c.debt + bracketSum used

@[simp] theorem bracketSum_nil : bracketSum [] = 0 := rfl

@[simp] theorem bracketSum_cons (t : Token) (ts : List Token) :
    bracketSum (t :: ts) = bracketWeight t + bracketSum ts := rfl

@[simp] theorem bracketSum_append (ts us : List Token) :
    bracketSum (ts ++ us) = bracketSum ts + bracketSum us := by
  induction ts with
  | nil => simp
  | cons t ts ih => rw [List.cons_append, bracketSum_cons, bracketSum_cons, ih, Int.add_assoc]

theorem bracketSum_eq_zero {ts : List Token} (h : ∀ t ∈ ts, bracketWeight t = 0) :
    bracketSum ts = 0 := by
  induction ts with
  | nil => rfl
  | cons t ts ih =>
    rw [bracketSum_cons, h t List.mem_cons_self, ih fun u hu => h u (List.mem_cons_of_mem t hu),
      Int.add_zero]

theorem bracketWeight_opening (h : t.isOperator ["<"] = true) : bracketWeight t = 1 :=
  if_pos h

theorem bracketWeight_closing (h : t.isOperator [">"] = true) : bracketWeight t = -1 := by
  have hopening : t.isOperator ["<"] = false := by
    simp only [Token.isOperator, Bool.and_eq_true, List.contains_iff_mem, List.mem_singleton] at h
    simp [Token.isOperator, h.2]
  simp [bracketWeight, hopening, h]

theorem bracketWeight_double (h : t.is .stream ">>" = true) : bracketWeight t = -2 := by
  have hkind : t.kind = .stream := by
    simp only [Token.is, Bool.and_eq_true, beq_iff_eq] at h
    exact h.1
  simp [bracketWeight, Token.isOperator, hkind, h]

theorem Cursor.debt_of_books (h : c'.books = c.books) : c'.debt = c.debt := by
  obtain ⟨hopen, hsplit, -⟩ := Cursor.books_inj h
  rw [Cursor.debt, Cursor.debt, hopen, hsplit]

theorem Cursor.debt_of_whole (h : c.splitCloser = false) : c.debt = c.openGenerics := by
  simp [Cursor.debt, h]

/-- A bracket around arguments, a subscript or a list. -/
def isOpening (t : Token) : Bool :=
  t.kind == .delimiter && ["(", "[", "\x7b"].contains t.text

def isClosing (t : Token) : Bool :=
  t.kind == .delimiter && [")", "]", "\x7d"].contains t.text

/-- A token of a type: neither a bracket around expressions nor the sign between parts of a print
statement. -/
def Flat (t : Token) : Prop :=
  isOpening t = false ∧ isClosing t = false ∧ t.is .stream "<<" = false

/-- A token of a type that is neither a bracket nor the end. -/
structure Quiet (t : Token) : Prop where
  kind_ne : t.kind ≠ .endOfInput
  weight : bracketWeight t = 0
  flat : Flat t

namespace Balances

variable {used more : List Token} {c'' : Cursor}

theorem nonneg (h : Balances c used c') : 0 ≤ c'.debt :=
  h.debt_eq ▸ h.above used (List.prefix_refl used)

theorem of_quiet (hc : 0 ≤ c.debt) (hused : ∀ t ∈ used, Quiet t) (hdebt : c'.debt = c.debt) :
    Balances c used c' := by
  refine ⟨fun front hfront => ?_, ?_⟩
  · rwa [bracketSum_eq_zero fun t ht => (hused t (hfront.subset ht)).weight, Int.add_zero]
  · rw [bracketSum_eq_zero fun t ht => (hused t ht).weight, hdebt, Int.add_zero]

theorem of_books (hwhole : c.splitCloser = false) (hused : ∀ t ∈ used, Quiet t)
    (h : c'.books = c.books) : Balances c used c' :=
  of_quiet (c.debt_of_whole hwhole ▸ Int.natCast_nonneg _) hused (Cursor.debt_of_books h)

theorem single (hc : 0 ≤ c.debt) (hdebt : c'.debt = c.debt + bracketWeight t) (hc' : 0 ≤ c'.debt) :
    Balances c [t] c' := by
  have hsum : bracketSum [t] = bracketWeight t := by simp
  refine ⟨fun front hfront => ?_, by rw [hsum, hdebt]⟩
  rcases List.prefix_cons_iff.mp hfront with rfl | ⟨rest, rfl, hrest⟩
  · rwa [bracketSum_nil, Int.add_zero]
  · rwa [List.prefix_nil.mp hrest, hsum, ← hdebt]

theorem trans (h : Balances c used c') (h' : Balances c' more c'') :
    Balances c (used ++ more) c'' := by
  refine ⟨fun front hfront => ?_, ?_⟩
  · rcases List.prefix_or_prefix_of_prefix hfront (List.prefix_append used more) with hin
      | ⟨rest, rfl⟩
    · exact h.above front hin
    · have habove := h'.above rest ((List.prefix_append_right_inj used).mp hfront)
      rw [h.debt_eq] at habove
      rw [bracketSum_append]
      omega
  · rw [h'.debt_eq, h.debt_eq, bracketSum_append, Int.add_assoc]

end Balances

/-! ### Rules without brackets -/

/-- From `c` the rule consumes no bracket, and leaves the bookkeeping as it is. -/
def Calm (x : Parser α) (c : Cursor) : Prop :=
  Spans x c fun used _ c' => (∀ t ∈ used, Quiet t) ∧ c'.books = c.books

/-- From `c` the rule balances the brackets that it consumes, and closes the lists that it opens, if
no half of a double sign is left. -/
def Level (x : Parser α) (c : Cursor) : Prop :=
  Spans x c fun used _ c' => (∀ t ∈ used, Flat t) ∧
    (c.splitCloser = false → Balances c used c' ∧ c.Closes c')

theorem flat_of_kind (hdel : t.kind ≠ .delimiter) (hstr : t.is .stream "<<" = false) : Flat t := by
  simp [Flat, isOpening, isClosing, hdel, hstr]

theorem quiet_of_kind (hkind : t.kind = .keyword ∨ t.kind = .identifier ∨ t.kind = .scope) :
    Quiet t := by
  rcases hkind with h | h | h <;>
    exact ⟨by simp [h], by simp [bracketWeight, Token.isOperator, Token.is, h],
    flat_of_kind (by simp [h]) (by simp [Token.is, h])⟩

theorem quiet_of_isKeyword {words : List String} (h : t.isKeyword words = true) : Quiet t := by
  simp only [Token.isKeyword, Bool.and_eq_true, beq_iff_eq] at h
  exact quiet_of_kind (.inl h.1)

theorem quiet_of_isIntegerAlias (h : isIntegerAlias t = true) : Quiet t := by
  simp only [isIntegerAlias, Bool.and_eq_true, beq_iff_eq] at h
  exact quiet_of_kind (.inr (.inl h.1))

theorem quiet_of_comma (h : t.isDelimiter "," = true) : Quiet t := by
  simp only [Token.isDelimiter, Token.is, Bool.and_eq_true, beq_iff_eq] at h
  exact ⟨by simp [h.1], by simp [bracketWeight, Token.isOperator, Token.is, h.1],
    by simp [Flat, isOpening, isClosing, Token.is, h]⟩

theorem flat_of_isOperator {texts : List String} (h : t.isOperator texts = true) : Flat t := by
  simp only [Token.isOperator, Bool.and_eq_true, beq_iff_eq] at h
  exact flat_of_kind (by simp [h.1]) (by simp [Token.is, h.1])

theorem quiet_of_sign (h : t.isOperator ["*", "&"] = true) : Quiet t := by
  have hflat := flat_of_isOperator h
  simp only [Token.isOperator, Bool.and_eq_true, beq_iff_eq, List.contains_iff_mem, List.mem_cons,
    List.not_mem_nil, or_false] at h
  refine ⟨by simp [h.1], ?_, hflat⟩
  rcases h.2 with htext | htext <;> simp [bracketWeight, Token.isOperator, Token.is, h.1, htext]

section Rules

variable {depth : Nat}

namespace Calm

theorem pure (a : α) : Calm (Pure.pure a) c :=
  Spans.pure ⟨nofun, rfl⟩

theorem bind (h : Calm x c) (hf : ∀ a c', x c = .ok a c' → Calm (f a) c') : Calm (x >>= f) c := by
  refine Spans.bind h fun a c' used hx hused => (hf a c' hx).mono fun more b d _ hmore => ?_
  exact ⟨fun t ht => (List.mem_append.mp ht).elim (hused.1 t) (hmore.1 t), hmore.2.trans hused.2⟩

theorem advance (h : Quiet (c.ahead 0)) : Calm advance c := by
  refine Spans.advance h.kind_ne ⟨fun t ht => ?_, c.books_next⟩
  rwa [List.mem_singleton.mp ht]

theorem discard (h : Quiet (c.ahead 0)) : Calm (discard Parse.advance) c :=
  (advance h).bind fun _ _ _ => pure _

theorem repeatWhile {more : Parser Bool}
    (hmore : ∀ c, ∃ b, more c = .ok b c ∧ (b = true → q (c.ahead 0) = true))
    (hitem : ∀ c : Cursor, q (c.ahead 0) = true → Calm x c) (c : Cursor) :
    Calm (repeatWhile more x) c := by
  have hupTo : ∀ bound c, Calm (repeatUpTo more x bound) c := by
    intro bound
    induction bound with
    | zero => exact fun c => pure _
    | succ bound ih =>
      intro c
      obtain ⟨b, hlook, hquiet⟩ := hmore c
      refine Spans.look hlook (Spans.ite (fun hb => ?_) fun _ => pure _)
      exact (hitem c (hquiet hb)).bind fun a d _ => (ih d).bind fun as e _ => pure _
  exact Spans.look (a := c) rfl (hupTo _ c)

theorem matchToken {y : Parser Bool} (hquiet : ∀ t, q t = true → Quiet t)
    (hy : y c = .ok (q (c.ahead 0)) c) :
    Calm (y >>= fun b => if b then Functor.discard Parse.advance >>= fun _ => Pure.pure true
      else Pure.pure false) c :=
  Spans.look hy (Spans.ite (fun h => (discard (hquiet _ h)).bind fun _ _ _ => pure _)
    fun _ => pure _)

theorem modifierList (c : Cursor) : Calm modifierList c :=
  repeatWhile (q := (·.isKeyword ["const", "static"])) (fun _ => ⟨_, rfl, id⟩)
    (fun _ h => (advance (quiet_of_isKeyword h)).bind fun _ _ _ => pure _) c

theorem typeSigns (c : Cursor) : Calm typeSigns c := by
  refine bind (repeatWhile (q := (·.isOperator ["*", "&"])) ?_ ?_ c) fun _ _ _ => pure _
  · exact fun _ => ⟨_, rfl, fun h => (Bool.and_eq_true_iff.mp h).2⟩
  · exact fun _ h => advance (quiet_of_sign h)

theorem skipIntegerAlias (c : Cursor) : Calm skipIntegerAlias c := by
  refine bind (repeatWhile (q := isIntegerAlias) (fun _ => ⟨_, rfl, id⟩) ?_ c) fun _ d _ => ?_
  · exact fun _ h => advance (quiet_of_isIntegerAlias h)
  · exact (matchToken (fun _ => quiet_of_isKeyword) rfl).bind fun _ _ _ => pure _

end Calm

namespace Level

theorem of_calm (h : Calm x c) : Level x c :=
  h.mono fun _ _ _ _ hused => ⟨fun t ht => (hused.1 t ht).flat, fun hwhole =>
    ⟨.of_books hwhole hused.1 hused.2, Cursor.closes_of_books hwhole hused.2⟩⟩

theorem look (h : x c = .ok a c) (hf : Level (f a) c) : Level (x >>= f) c :=
  Spans.look h hf

theorem ite [Decidable p] (hx : p → Level x c) (hy : ¬ p → Level y c) :
    Level (if p then x else y) c :=
  Spans.ite hx hy

theorem after (h : Calm x c) (hf : ∀ a c', x c = .ok a c' → Level (f a) c') :
    Level (x >>= f) c := by
  refine Spans.bind h fun a c' used hx hused => (hf a c' hx).mono fun more b d _ hmore =>
    ⟨List.forall_mem_append.mpr ⟨fun t ht => (hused.1 t ht).flat, hmore.1⟩, fun hwhole => ?_⟩
  obtain ⟨hopen, hsplit, hnames⟩ := Cursor.books_inj hused.2
  obtain ⟨hbalances, hcloses⟩ := hmore.2 (hsplit.trans hwhole)
  exact ⟨(Balances.of_books hwhole hused.1 hused.2).trans hbalances,
    hcloses.openGenerics.trans hopen,
    hcloses.typeNames.trans hnames, hopen ▸ hcloses.split⟩

theorem followed (h : Level x c) (hf : ∀ a c', Calm (f a) c') : Level (x >>= f) c := by
  refine Spans.bind h fun a c' used _ hused => (hf a c').mono fun more b d _ hmore =>
    ⟨List.forall_mem_append.mpr ⟨hused.1, fun t ht => (hmore.1 t ht).flat⟩, fun hwhole => ?_⟩
  obtain ⟨hbalances, hcloses⟩ := hused.2 hwhole
  obtain ⟨hopen, hsplit, hnames⟩ := Cursor.books_inj hmore.2
  exact ⟨hbalances.trans (.of_quiet hbalances.nonneg hmore.1 (Cursor.debt_of_books hmore.2)),
    hopen.trans hcloses.openGenerics, hnames.trans hcloses.typeNames, fun h =>
    hcloses.split (hsplit ▸ h)⟩

end Level

/-! ### Types -/

theorem level_optionalArgs (hargs : ∀ c : Cursor, (c.ahead 0).isOperator ["<"] = true →
    Level (genericArgs depth) c)
    (allowed : Bool) (c : Cursor) : Level (optionalArgs (genericArgs depth) allowed) c :=
  .look (a := (c.ahead 0).isOperator ["<"]) rfl
    (.ite (fun h => hargs c (Bool.and_eq_true_iff.mp h).2) fun _ => .of_calm (.pure _))

theorem level_typeBase (hargs : ∀ c : Cursor, (c.ahead 0).isOperator ["<"] = true →
    Level (genericArgs depth) c)
    (c : Cursor) : Level (typeBase (genericArgs depth)) c := by
  have hopt := level_optionalArgs hargs
  refine .look (a := c.ahead 0) rfl (.look rfl ?_)
  refine .ite (fun h => ?_) fun _ => .ite (fun h => ?_) fun _ => .ite (fun h => ?_) fun _ =>
    .ite (fun _ => ?_) fun _ => .ite (fun h => ?_) fun _ => ?_
  · exact .after (.discard (quiet_of_isKeyword h)) fun _ d _ =>
      (hopt _ d).followed fun _ _ => .pure _
  · -- The name behind `std::` is looked at only when it is consumed.
    simp only [Token.is, Bool.and_eq_true, beq_iff_eq] at h
    obtain ⟨⟨hkind, -⟩, hscope⟩ := h
    have hsecond : c.next.ahead 0 = c.ahead 1 := c.ahead_one (by simp [hkind]) fun h => by
      rw [h, hkind] at hscope
      cases hscope
    refine .after (.discard (quiet_of_kind (.inr (.inl hkind)))) fun _ d hd => ?_
    cases hd
    refine .after (.discard (quiet_of_kind (by simp [hsecond, hscope]))) fun _ d hd => ?_
    cases hd
    by_cases hword :
      ((c.next.next.ahead 0).kind != .identifier && (c.next.next.ahead 0).kind != .keyword) = true
    · intro a c' hrun
      rw [run_advance, if_pos hword] at hrun
      cases hrun
    · have hquiet : Quiet (c.next.next.ahead 0) := by
        simp only [Bool.and_eq_true, bne_iff_ne, not_and_or, not_not] at hword
        exact quiet_of_kind (hword.elim (.inr ∘ .inl) .inl)
      refine .after (.advance hquiet) fun q d hd => ?_
      cases hd
      rw [if_neg hword]
      exact (hopt _ _).followed fun _ _ => .pure _
  · exact .of_calm ((Calm.discard (quiet_of_isKeyword h)).bind fun _ _ _ => .pure _)
  · exact .of_calm ((Calm.skipIntegerAlias c).bind fun _ _ _ => .pure _)
  · exact .of_calm ((Calm.discard (quiet_of_kind (.inr (.inl (by simpa using h))))).bind
      fun _ _ _ => .pure _)
  · exact Spans.look (a := c.ahead 0) rfl .throw

/-- Further arguments are read only while the list is not closed. -/
theorem level_moreArgs {item : Parser α} (hitem : ∀ c, Level item c) (bound : Nat) :
    ∀ c, Spans (repeatUpTo moreArgs item bound) c fun used _ c' => (∀ t ∈ used, Flat t) ∧
    (0 ≤ c.debt →
      Balances c used c' ∧ c'.openGenerics = c.openGenerics ∧ c'.typeNames = c.typeNames) := by
  induction bound with
  | zero => exact fun c => .pure ⟨nofun, fun hc => ⟨.of_quiet hc nofun rfl, rfl, rfl⟩⟩
  | succ bound ih =>
    intro c
    cases hsplit : c.splitCloser with
    | true =>
      have hmore : moreArgs c = .ok false c := by rw [moreArgs, run_get, hsplit]; rfl
      exact .look hmore (.pure ⟨nofun, fun hc => ⟨.of_quiet hc nofun rfl, rfl, rfl⟩⟩)
    | false =>
      have hmore : moreArgs c = matchDelimiter "," c := by rw [moreArgs, run_get, hsplit]; rfl
      have hcalm : Calm moreArgs c := fun a c' hrun =>
        Calm.matchToken (y := peekDelimiter ",") (fun _ => quiet_of_comma) rfl a c'
        (hmore.symm.trans hrun)
      refine Spans.bind hcalm fun b d used hrun hused => ?_
      obtain ⟨hopen, hsplit', hnames⟩ := Cursor.books_inj hused.2
      have hfirst : Balances c used d := .of_books hsplit hused.1 hused.2
      have hflat : ∀ t ∈ used, Flat t := fun t ht => (hused.1 t ht).flat
      refine .ite (fun _ => ?_) fun _ =>
        .pure (by rw [List.append_nil]; exact ⟨hflat, fun _ => ⟨hfirst, hopen, hnames⟩⟩)
      refine Spans.bind (hitem d) fun a d' used' _ hused' =>
        Spans.bind (ih d') fun as e used'' _ hothers => ?_
      refine .pure ?_
      rw [List.append_nil]
      refine ⟨List.forall_mem_append.mpr ⟨hflat, List.forall_mem_append.mpr ⟨hused'.1, hothers.1⟩⟩,
        fun _ => ?_⟩
      obtain ⟨hsecond, hcloses⟩ := hused'.2 (hsplit'.trans hsplit)
      obtain ⟨hthird, hopen', hnames'⟩ := hothers.2 hsecond.nonneg
      exact ⟨hfirst.trans (hsecond.trans hthird), hopen'.trans (hcloses.openGenerics.trans hopen),
        hnames'.trans (hcloses.typeNames.trans hnames)⟩

/-- A list is closed by a sign of its own, or by the half of a double sign that is left. -/
theorem level_closeGeneric (c : Cursor) :
    Spans closeGeneric c fun used _ c' => (∀ t ∈ used, Flat t) ∧ (1 ≤ c.openGenerics →
      Balances c used c' ∧ c'.openGenerics = c.openGenerics - 1 ∧ c'.typeNames = c.typeNames ∧
        (c'.splitCloser = true → 2 ≤ c.openGenerics)) := by
  obtain ⟨hopenNext, hsplitNext, hnames⟩ := Cursor.books_inj c.books_next
  intro a c' hrun
  rw [closeGeneric, run_get] at hrun
  split at hrun
  · next hsplit =>
    -- the first half of a double sign was consumed before
    cases hrun
    refine ⟨[], rfl, List.forall_mem_nil _,
      fun hopen => ⟨.of_quiet ?_ (List.forall_mem_nil _) ?_, rfl, rfl, fun h => by cases h⟩⟩
    · simp [Cursor.debt, hsplit]
      omega
    · simp [Cursor.debt, hsplit]
      omega
  · next hwhole =>
    have hdebt := c.debt_of_whole (Bool.eq_false_iff.mpr hwhole)
    dsimp only at hrun
    split at hrun
    · next hsign =>
      have hkind : (c.ahead 0).kind ≠ .endOfInput := by
        intro hkind
        simp [Token.isOperator, hkind] at hsign
      cases hrun
      refine ⟨[c.ahead 0], c.rest_eq hkind,
        List.forall_mem_singleton.mpr (flat_of_isOperator hsign), fun hopen => ?_⟩
      -- one sign closes one list
      let closed : Cursor := { c.next with openGenerics := c.next.openGenerics - 1 }
      have hclosed : closed.debt = c.debt - 1 := by
        simp [closed, Cursor.debt, hopenNext, hsplitNext, hwhole]
        omega
      have hbalances : Balances c [c.ahead 0] closed :=
        .single (by omega) (by rw [hclosed, bracketWeight_closing hsign]; rfl) (by omega)
      exact ⟨hbalances, congrArg (· - 1) hopenNext, hnames, fun h => absurd (hsplitNext ▸ h) hwhole⟩
    split at hrun
    · next htwo =>
      obtain ⟨hsign, htwo⟩ := Bool.and_eq_true_iff.mp htwo
      have htwo := of_decide_eq_true htwo
      have hkind : (c.ahead 0).kind ≠ .endOfInput := by
        intro hkind
        simp [Token.is, hkind] at hsign
      have hflat : Flat (c.ahead 0) := by
        simp only [Token.is, Bool.and_eq_true, beq_iff_eq] at hsign
        exact flat_of_kind (by simp [hsign.1]) (by simp [Token.is, hsign.2])
      cases hrun
      refine ⟨[c.ahead 0], c.rest_eq hkind, List.forall_mem_singleton.mpr hflat, fun _ => ?_⟩
      -- a double sign closes this list, and the next one without consuming a token
      let halved : Cursor :=
        { c.next with splitCloser := true, openGenerics := c.next.openGenerics - 1 }
      have hhalved : halved.debt = c.debt - 2 := by
        simp [halved, Cursor.debt, hopenNext, hwhole]
        omega
      have hbalances : Balances c [c.ahead 0] halved :=
        .single (by omega) (by rw [hhalved, bracketWeight_double hsign]; rfl) (by omega)
      exact ⟨hbalances, congrArg (· - 1) hopenNext, hnames, fun _ => htwo⟩
    · cases hrun

/-- A list opens one more list, and its closing sign stands where the lists inside it are closed. -/
theorem level_genericArgs (htype : ∀ c, Level (typeExpr depth) c)
    (hopening : (c.ahead 0).isOperator ["<"] = true) :
    Level (genericArgs (depth + 1)) c := by
  have hkind : (c.ahead 0).kind ≠ .endOfInput := by
    intro hkind
    simp [Token.isOperator, hkind] at hopening
  obtain ⟨hopen₁, hsplit₁, hnames₁⟩ := Cursor.books_inj c.books_next
  rw [Level, genericArgs]
  refine Spans.bind (R := fun used _ d => used = [c.ahead 0] ∧ d = c.next) ?_ ?_
  · exact Spans.last (.advance hkind ⟨rfl, rfl⟩) fun _ _ _ hd => hd
  rintro _ _ _ - ⟨rfl, rfl⟩
  -- the opening bracket is a debt that the closing one pays
  let opened : Cursor := { c.next with openGenerics := c.next.openGenerics + 1 }
  refine Spans.bind (R := fun used _ d => used = [] ∧ d = opened) ?_ ?_
  · intro a d hrun
    cases hrun
    exact ⟨[], rfl, rfl, rfl⟩
  rintro _ _ _ - ⟨rfl, rfl⟩
  refine Spans.bind (htype opened) fun a d used _ hused => ?_
  refine Spans.bind (x := repeatWhile moreArgs (typeExpr depth))
    (level_moreArgs htype (d.size + 1) d)
    fun as e others _ hlevel => ?_
  refine Spans.bind (level_closeGeneric e) fun _ e' closing _ hclosing =>
    .pure ⟨?_, fun hwhole => ?_⟩
  · simp only [List.forall_mem_append, List.forall_mem_singleton, List.append_nil]
    exact ⟨flat_of_isOperator hopening, List.forall_mem_nil _, hused.1, hlevel.1, hclosing.1⟩
  have hdebt := c.debt_of_whole hwhole
  have hdebt' : opened.debt = c.debt + 1 := by
    simp [opened, Cursor.debt, hopen₁, hsplit₁]
    omega
  have hbracket : Balances c [c.ahead 0] opened :=
    .single (by omega) (by rw [hdebt', bracketWeight_opening hopening]) (by omega)
  obtain ⟨hfirst, hcloses⟩ := hused.2 (hsplit₁.trans hwhole)
  have hargs := hbracket.trans hfirst
  obtain ⟨hrest, hopen₃, hnames₃⟩ := hlevel.2 hargs.nonneg
  have hopen : e.openGenerics = c.openGenerics + 1 := by
    rw [hopen₃, hcloses.openGenerics, ← hopen₁]
  obtain ⟨hlast, hopen₄, hnames₄, hsplit⟩ := hclosing.2 (by omega)
  refine ⟨by simpa using (hargs.trans hrest).trans hlast, by omega, ?_, fun h => ?_⟩
  · rw [hnames₄, hnames₃, hcloses.typeNames, ← hnames₁]
  · have := hsplit h
    omega

/-- The rules for types balance their brackets. -/
theorem level_typeExpr (depth : Nat) : (∀ c, Level (typeExpr depth) c) ∧
    ∀ c : Cursor, (c.ahead 0).isOperator ["<"] = true → Level (genericArgs depth) c := by
  induction depth with
  | zero => exact ⟨fun _ => Spans.throw, fun _ _ => Spans.throw⟩
  | succ depth ih =>
    refine ⟨fun c => ?_, fun c hopening => level_genericArgs ih.1 hopening⟩
    rw [typeExpr_succ]
    refine .after (.modifierList c) fun modifiers d _ =>
      .followed (level_typeBase ih.2 d) fun x e => ?_
    exact (Calm.typeSigns e).bind fun _ _ _ => .pure _

end Rules

/-- **The generic brackets of a type balance exactly.**  Where no list is open and no half of a
double sign is left, the tokens of a type close no list that they have not opened, leave none open,
and use a double sign only where two lists are open; afterwards no list is open and no half of a
sign is left. -/
theorem bracketSum_of_typeExpr {depth : Nat} {c c' : Cursor} {t : TypeExpr}
    (hopen : c.openGenerics = 0)
    (hwhole : c.splitCloser = false) (hread : typeExpr depth c = .ok t c') :
    ∃ used, c.rest = used ++ c'.rest ∧ (∀ front, front <+: used → 0 ≤ bracketSum front) ∧
    bracketSum used = 0 ∧
      (∀ front double back, used = front ++ double :: back → double.is .stream ">>" = true →
        2 ≤ bracketSum front) ∧
      c'.openGenerics = 0 ∧ c'.splitCloser = false := by
  obtain ⟨used, hrest, -, hlevel⟩ := (level_typeExpr depth).1 c t c' hread
  obtain ⟨⟨habove, hdebt⟩, hopen', -, hsplit⟩ := hlevel hwhole
  have hwhole' : c'.splitCloser = false := by
    refine Bool.eq_false_iff.mpr fun h => ?_
    have := hsplit h
    omega
  have hzero : c.debt = 0 := by rw [c.debt_of_whole hwhole, hopen]; rfl
  have hzero' : c'.debt = 0 := by rw [c'.debt_of_whole hwhole', hopen', hopen]; rfl
  simp only [hzero, Int.zero_add] at habove hdebt
  refine ⟨used, hrest, habove, hdebt.symm.trans hzero', ?_, hopen'.trans hopen, hwhole'⟩
  rintro front double back rfl hdouble
  have hafter := habove (front ++ [double]) ⟨back, by simp⟩
  rw [bracketSum_append, bracketSum_cons, bracketWeight_double hdouble, bracketSum_nil] at hafter
  omega

/-- The double sign closes the inner and the outer list. -/
theorem bracketSum_of_typeExpr_double :
    ∃ tokens t c', (Source.ofText "map<int, vector<int>> m;" "<input>").tokenize = .ok tokens ∧
      typeExpr 5 (Cursor.start tokens) = .ok t c' ∧ c'.rest.map Token.text = ["m", ";", ""] ∧
      ∃ used, (Cursor.start tokens).rest = used ++ c'.rest ∧
        (∀ front, front <+: used → 0 ≤ bracketSum front) ∧ bracketSum used = 0 := by
  obtain ⟨tokens, t, c', htoks, hread, hrest⟩ : ∃ tokens t c',
      (Source.ofText "map<int, vector<int>> m;" "<input>").tokenize = .ok tokens ∧
        typeExpr 5 (Cursor.start tokens) = .ok t c' ∧ c'.rest.map Token.text = ["m", ";", ""] :=
    ⟨_, _, _, rfl, rfl, rfl⟩
  obtain ⟨used, hused, habove, hzero, -⟩ := bracketSum_of_typeExpr rfl rfl hread
  exact ⟨tokens, t, c', htoks, hread, hrest, used, hused, habove, hzero⟩

end SmallCpp.Parse
