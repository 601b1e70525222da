import Mathlib.Data.List.Chain
import SmallCpp.Proofs.Parse.TypeText

/-!
# What the rules consume

Every rule reads forward.  `Consumes ts room c P r` says this of the result `r` that a rule has from
`c`: the tokens ahead afterwards are a tail of those before, the end among them, whether the rule
returned or failed; `P` holds of the tokens in between if it returned; where there is `room` it was
not the nesting limit that stopped it; and what stopped it has to do with one of the tokens `ts`.
`Eats ts room n P rule` says it of all states with at most `n` of these tokens ahead.  The judgment
is put together along the rules, and the recursion is followed with the number of tokens ahead: a
rule is entered again only behind a token, or from a rule of higher rank.

Three things are kept of the tokens that a rule consumes: whether there are any, how they begin, and
that no division sign stands right before a star, which would open a comment.

## Main results

* `Rounds.stepUpTo_eq` — **the bound of a loop does not end it.**
-/

namespace SmallCpp

variable {t : Token} {c c' c'' : Cursor} {room : Prop} {n m depth : Nat} {ts : List Token}
  {P : List Token → Prop}

/-- The offset and the text that an error of reading a source records. -/
def Cause.finding? : Cause → Option (Int × String)
  | strayCharacter offset found | nestingTooDeep found offset => some (offset, found)
  | unexpected _ found offset _ | unbalancedGenerics found offset | unsupported found offset =>
    offset.map (·, found)
  | badInitializer .. | runtime _ | internal _ => none

namespace Parse

variable {α β σ : Type} {g : Cursor → α} {texts : List String} {test : Token → Bool}
  {item : Parser α} {operand : Nat → Parser Expr}

/-! ### Tokens that are blamed -/

/-- The token is a literal or an operator with the given fault. -/
def TokenFault (t : Token) (f : Fault) : Prop :=
  literal? t = .error f ∨ Joint.ofToken? t = .error f

/-- An error of the grammar at the token. -/
structure ErrorAt (t : Token) (cause : Cause) (position : Position) : Prop where
  phase : cause.phase = .grammar
  finding : cause.finding? = some ((t.offset : Int), t.described)
  position : position = t.position

/-- A fault is the fault of one of the tokens, and an error is at one of them. -/
def Failure.Blamed (ts : List Token) : Failure → Prop
  | .fault f => ∃ t ∈ ts, TokenFault t f
  | .error cause position => ∃ t ∈ ts, ErrorAt t cause position
  | .tooDeep => True

/-! ### States before the end -/

/-- The tokens ahead end with the only token of class `endOfInput`, and the size bounds their
number. -/
structure Cursor.Ended (c : Cursor) : Prop where
  /-- The end is the last token and no other one. -/
  split : ∃ ts t, c.rest = ts ++ [t] ∧ t.kind = .endOfInput ∧ ∀ x ∈ ts, x.kind ≠ .endOfInput
  within : c.rest.length ≤ c.size

/-- The state `c'` stands behind the tokens `used` of `c`, and before the end. -/
structure Cursor.Behind (c : Cursor) (used : List Token) (c' : Cursor) : Prop where
  rest : c.rest = used ++ c'.rest
  ended : c'.Ended
  previous : c'.previous = used.getLast?.or c.previous

/-- The state stands before at most `n` tokens, which are among `ts`, and before the end. -/
structure Cursor.Stands (ts : List Token) (n : Nat) (c : Cursor) : Prop where
  ended : c.Ended
  among : c.rest ⊆ ts
  length_le : c.rest.length ≤ n

namespace Cursor

variable {used more : List Token}

theorem Ended.ne_nil (h : c.Ended) : c.rest ≠ [] := by
  obtain ⟨ts, t, hrest, -⟩ := h.split
  simp [hrest]

theorem Ended.rest_eq (h : c.Ended) : ∃ ts, c.rest = c.ahead 0 :: ts := by
  obtain ⟨t, ts, hrest⟩ := List.exists_cons_of_ne_nil h.ne_nil
  exact ⟨ts, by simp [Cursor.ahead, hrest]⟩

theorem Ended.eq_end (h : c.Ended) (hend : (c.ahead 0).kind = .endOfInput) :
    c.rest = [c.ahead 0] := by
  obtain ⟨us, hus⟩ := h.rest_eq
  obtain ⟨ts, t, hrest, -, hts⟩ := h.split
  cases ts with
  | nil =>
    rw [hrest] at hus
    rw [hrest, (List.cons.inj hus).1]
    rfl
  | cons x ts =>
    rw [hrest] at hus
    have hx : x = c.ahead 0 := (List.cons.inj hus).1
    exact absurd (hx ▸ hend) (hts x List.mem_cons_self)

theorem Behind.refl (h : c.Ended) : c.Behind [] c :=
  ⟨rfl, h, rfl⟩

theorem Behind.trans (h : c.Behind used c') (h' : c'.Behind more c'') :
    c.Behind (used ++ more) c'' := by
  refine ⟨by rw [h.rest, h'.rest, List.append_assoc], h'.ended, ?_⟩
  rw [h'.previous, h.previous, List.getLast?_append, Option.or_assoc]

theorem Behind.length (h : c.Behind used c') : c.rest.length = used.length + c'.rest.length := by
  rw [h.rest, List.length_append]

theorem Behind.of_eq (h : c.Ended) (hrest : c'.rest = c.rest) (hsize : c'.size = c.size)
    (hprevious : c'.previous = c.previous) : c.Behind [] c' := by
  refine ⟨hrest.symm, ⟨?_, ?_⟩, hprevious⟩
  · rw [hrest]
    exact h.split
  · rw [hrest, hsize]
    exact h.within

theorem Ended.next (h : c.Ended) (hne : (c.ahead 0).kind ≠ .endOfInput) :
    c.Behind [c.ahead 0] c.next := by
  obtain ⟨us, hus⟩ := h.rest_eq
  have hnext : c.next = { c with rest := us, previous := some (c.ahead 0) } := by
    simp [Cursor.next, hus, hne]
  obtain ⟨ts, t, hrest, hkind, hts⟩ := h.split
  have hlen := h.within
  rw [hnext]
  refine ⟨hus, ⟨?_, ?_⟩, rfl⟩
  · cases ts with
    | nil =>
      rw [hrest] at hus
      exact absurd ((List.cons.inj hus).1 ▸ hkind) hne
    | cons x ts =>
      rw [hrest] at hus
      exact ⟨ts, t, (List.cons.inj hus).2.symm, hkind,
        fun y hy => hts y (List.mem_cons_of_mem x hy)⟩
  · rw [hus, List.length_cons] at hlen
    exact Nat.le_of_succ_le hlen

theorem Ended.ahead_one (h : c.Ended) (hne : (c.ahead 0).kind ≠ .endOfInput) :
    c.ahead 1 = c.next.ahead 0 := by
  have hnext := h.next hne
  obtain ⟨t, ts, hts⟩ := List.exists_cons_of_ne_nil hnext.ended.ne_nil
  have hrest := hnext.rest
  rw [hts] at hrest
  rw [Cursor.ahead, Cursor.ahead, hrest, hts]
  rfl

theorem Ended.stands (h : c.Ended) : c.Stands c.rest c.rest.length :=
  ⟨h, List.Subset.refl _, Nat.le_refl _⟩

theorem Stands.mem (h : c.Stands ts n) : c.ahead 0 ∈ ts := by
  obtain ⟨us, hus⟩ := h.ended.rest_eq
  exact h.among (hus ▸ List.mem_cons_self)

theorem Stands.consumed (h : c.Stands ts n) (hused : c.Behind used c') (ht : t ∈ used) : t ∈ ts :=
  h.among (hused.rest ▸ List.mem_append_left _ ht)

theorem Stands.behind (h : c.Stands ts n) (hused : c.Behind used c') : c'.Stands ts n := by
  refine ⟨hused.ended, fun t ht => h.among (hused.rest ▸ List.mem_append_right _ ht), ?_⟩
  have hlen := hused.length
  have hle := h.length_le
  omega

theorem Stands.shorter (h : c.Stands ts n) (hused : c.Behind used c') (hne : used ≠ []) :
    ∃ m, m < n ∧ c'.Stands ts m := by
  refine ⟨c'.rest.length, ?_, hused.ended, (h.behind hused).among, Nat.le_refl _⟩
  have hlen := hused.length
  have hle := h.length_le
  have hpos := List.length_pos_iff.mpr hne
  omega

end Cursor

/-! ### What is kept of consumed tokens -/

def IsSlash (t : Token) : Prop :=
  t.kind = .operator ∧ t.text = "/"

def IsStar (t : Token) : Prop :=
  t.kind = .operator ∧ (t.text = "*" ∨ t.text = "*=")

/-- No division sign stands right before a star or at the end. -/
structure Uncommented (ts : List Token) : Prop where
  /-- A division sign is not followed by a star. -/
  chain : ts.IsChain fun a b => IsSlash a → ¬ IsStar b
  last : ∀ t ∈ ts.getLast?, ¬ IsSlash t

/-- The tokens begin with something other than a star. -/
structure Opening (ts : List Token) : Prop extends Uncommented ts where
  head : ∃ t us, ts = t :: us ∧ ¬ IsStar t

/-- There are tokens. -/
structure Part (ts : List Token) : Prop extends Uncommented ts where
  ne_nil : ts ≠ []

section Kept

variable {us : List Token}

theorem uncommented_nil : Uncommented [] :=
  ⟨.nil, nofun⟩

theorem uncommented_single (h : ¬ IsSlash t) : Uncommented [t] :=
  ⟨.singleton t, by simpa using h⟩

theorem Uncommented.append (h : Uncommented ts) (h' : Uncommented us) : Uncommented (ts ++ us) := by
  refine ⟨List.isChain_append.mpr ⟨h.chain, h'.chain, fun x hx _ _ hslash => ?_⟩, ?_⟩
  · exact absurd hslash (h.last x hx)
  · intro x hx
    rw [List.getLast?_append] at hx
    cases hlast : us.getLast? with
    | none =>
      rw [hlast] at hx
      exact h.last x hx
    | some y =>
      rw [hlast] at hx
      cases hx
      exact h'.last x (by simp [hlast])

/-- Any sign may stand before tokens that do not begin with a star. -/
theorem Opening.cons (h : Opening us) (t : Token) : Uncommented (t :: us) := by
  obtain ⟨u, vs, rfl, hu⟩ := h.head
  refine ⟨List.isChain_cons_cons.mpr ⟨fun _ => hu, h.chain⟩, ?_⟩
  have hlast := h.last
  rwa [List.getLast?_cons_cons]

theorem Opening.ne_nil (h : Opening ts) : ts ≠ [] := by
  obtain ⟨t, us, rfl, -⟩ := h.head
  exact List.cons_ne_nil t us

theorem Opening.part (h : Opening ts) : Part ts :=
  ⟨h.toUncommented, h.ne_nil⟩

theorem Opening.append (h : Opening ts) (h' : Uncommented us) : Opening (ts ++ us) := by
  refine ⟨h.toUncommented.append h', ?_⟩
  obtain ⟨t, vs, rfl, ht⟩ := h.head
  exact ⟨t, vs ++ us, rfl, ht⟩

theorem Part.append (h : Part ts) (h' : Uncommented us) : Part (ts ++ us) :=
  ⟨h.toUncommented.append h', by simp [h.ne_nil]⟩

theorem Part.length_pos (h : Part ts) : 0 < ts.length :=
  List.length_pos_iff.mpr h.ne_nil

end Kept

/-- What is kept of some tokens is kept when more tokens follow, and holds no comment. -/
class Kept (P : List Token → Prop) : Prop where
  uncommented : ∀ {ts}, P ts → Uncommented ts
  append : ∀ {ts us}, P ts → Uncommented us → P (ts ++ us)

/-- What is kept of some tokens is kept when tokens stand before them. -/
class Final (P : List Token → Prop) : Prop where
  prepend : ∀ {ts us}, Uncommented ts → P us → P (ts ++ us)

/-- There are such tokens. -/
class Counts (P : List Token → Prop) : Prop where
  part : ∀ {ts}, P ts → Part ts

instance : Kept Uncommented := ⟨id, .append⟩

instance : Kept Part := ⟨Part.toUncommented, .append⟩

instance : Kept Opening := ⟨Opening.toUncommented, .append⟩

instance : Final Uncommented := ⟨.append⟩

instance : Final Part := ⟨fun h h' => ⟨h.append h'.toUncommented, by simp [h'.ne_nil]⟩⟩

instance : Counts Part := ⟨id⟩

instance : Counts Opening := ⟨Opening.part⟩

/-! ### Reading forward -/

/-- The result of a rule that read forward from `c`: `P` holds of the tokens it consumed if it
returned, it did not run into the nesting limit if there was `room`, and its failures are blamed on
`ts`. -/
def Consumes (ts : List Token) (room : Prop) (c : Cursor) (P : List Token → Prop) :
    EStateM.Result Failure Cursor α → Prop
  | .ok _ c' => ∃ used, c.Behind used c' ∧ P used
  | .error e c' => (∃ used, c.Behind used c') ∧ (room → e ≠ .tooDeep) ∧ e.Blamed ts

/-- The rule reads forward wherever it stands before at most `n` of the tokens `ts`. -/
def Eats (ts : List Token) (room : Prop) (n : Nat) (P : List Token → Prop) (x : Parser α) : Prop :=
  ∀ c, c.Stands ts n → Consumes ts room c P (x c)

section Forward

variable {room' : Prop} {Q R : List Token → Prop} {x : Parser α} {f : α → Parser β}

namespace Consumes

variable {r : EStateM.Result Failure Cursor α}

theorem mono (h : Consumes ts room c P r) (hPQ : ∀ used, P used → Q used) :
    Consumes ts room c Q r := by
  cases r with
  | ok a c' => exact h.imp fun used hused => ⟨hused.1, hPQ used hused.2⟩
  | error e c' => exact h

theorem weaken (h : Consumes ts room c P r) (hroom : room' → room) : Consumes ts room' c P r := by
  cases r with
  | ok a c' => exact h
  | error e c' => exact ⟨h.1, fun hr => h.2.1 (hroom hr), h.2.2⟩

theorem throw (hc : c.Ended) {e : Failure} (he : room → e ≠ .tooDeep) (hblamed : e.Blamed ts) :
    Consumes ts room c P ((throw e : Parser α) c) :=
  ⟨⟨[], .refl hc⟩, he, hblamed⟩

theorem failAt (hc : c.Ended) (expected : String) (ht : t ∈ ts) :
    Consumes ts room c P ((failAt expected t : Parser α) c) :=
  throw hc (fun _ => nofun) ⟨t, ht, rfl, rfl, rfl⟩

theorem failUnsupported (hc : c.Ended) (ht : t ∈ ts) (hkind : t.kind = .keyword) :
    Consumes ts room c P ((failUnsupported t.text t : Parser α) c) :=
  throw hc (fun _ => nofun) ⟨t, ht, rfl, by simp [Cause.finding?, Token.described, hkind], rfl⟩

theorem after {used : List Token} (hused : c.Behind used c')
    (hPQ : ∀ more, Q more → P (used ++ more))
    (h : Consumes ts room c' Q r) : Consumes ts room c P r := by
  cases r with
  | ok a c'' =>
    obtain ⟨more, hmore, hQ⟩ := h
    exact ⟨used ++ more, hused.trans hmore, hPQ more hQ⟩
  | error e c'' =>
    obtain ⟨⟨more, hmore⟩, he⟩ := h
    exact ⟨⟨used ++ more, hused.trans hmore⟩, he⟩

theorem andThen (hPQ : ∀ used more, P used → Q more → R (used ++ more))
    (h : Consumes ts room c P (x c))
    (hf : ∀ a c' used, x c = .ok a c' → c.Behind used c' → P used →
      Consumes ts room c' Q (f a c')) :
    Consumes ts room c R ((x >>= f) c) := by
  cases hx : x c with
  | error e c' =>
    rw [hx] at h
    rw [run_bind_error hx]
    exact h
  | ok a c' =>
    rw [hx] at h
    obtain ⟨used, hused, hP⟩ := h
    rw [run_bind_ok hx]
    exact (hf a c' used hx hused hP).after hused fun more => hPQ used more hP

theorem bind [Kept P] (hc : c.Stands ts n) (h : Consumes ts room c P (x c))
    (hf : ∀ a, Eats ts room n Uncommented (f a)) : Consumes ts room c P ((x >>= f) c) :=
  h.andThen (fun _ _ => Kept.append) fun a _ _ _ hused _ => hf a _ (hc.behind hused)

theorem lead [Kept P] [Final Q] (hc : c.Stands ts n) (h : Consumes ts room c P (x c))
    (hf : ∀ a, Eats ts room n Q (f a)) : Consumes ts room c Q ((x >>= f) c) :=
  h.andThen (fun _ _ hP => Final.prepend (Kept.uncommented hP)) fun a _ _ _ hused _ =>
    hf a _ (hc.behind hused)

/-- The rest has fewer tokens ahead if the first rule consumes one. -/
theorem bindToken [Kept P] [Counts P] (hc : c.Stands ts n) (h : Consumes ts room c P (x c))
    (hf : ∀ m < n, ∀ a, Eats ts room m Uncommented (f a)) : Consumes ts room c P ((x >>= f) c) := by
  refine h.andThen (fun _ _ => Kept.append) fun a c' used _ hused hP => ?_
  obtain ⟨m, hm, hc'⟩ := hc.shorter hused (Counts.part hP).ne_nil
  exact hf m hm a c' hc'

theorem leadToken [Kept P] [Counts P] [Final Q] (hc : c.Stands ts n)
    (h : Consumes ts room c P (x c))
    (hf : ∀ m < n, ∀ a, Eats ts room m Q (f a)) : Consumes ts room c Q ((x >>= f) c) := by
  refine h.andThen (fun _ _ hP => Final.prepend (Kept.uncommented hP))
    fun a c' used _ hused hP => ?_
  obtain ⟨m, hm, hc'⟩ := hc.shorter hused (Counts.part hP).ne_nil
  exact hf m hm a c' hc'

theorem discard (h : Consumes ts room c P (x c)) :
    Consumes ts room c P ((discard x : Parser Unit) c) := by
  cases hx : x c with
  | ok a c' =>
    rw [hx] at h
    rw [run_discard hx]
    exact h
  | error e c' =>
    rw [hx] at h
    exact (congrArg (Consumes ts room c P) (run_bind_error hx)).mpr h

end Consumes

namespace Eats

theorem mono (h : Eats ts room n P x) (hPQ : ∀ used, P used → Q used) : Eats ts room n Q x :=
  fun c hc => (h c hc).mono hPQ

theorem part [Counts P] (h : Eats ts room n P x) : Eats ts room n Part x :=
  h.mono fun _ => Counts.part

theorem any [Kept P] (h : Eats ts room n P x) : Eats ts room n Uncommented x :=
  h.mono fun _ => Kept.uncommented

theorem weaken (h : Eats ts room n P x) (hroom : room' → room) : Eats ts room' n P x :=
  fun c hc => (h c hc).weaken hroom

theorem pure (a : α) : Eats ts room n Uncommented (Pure.pure a : Parser α) :=
  fun _ hc => ⟨[], .refl hc.ended, uncommented_nil⟩

theorem failHere (expected : String) : Eats ts room n P (failHere expected : Parser α) :=
  fun _ hc => .failAt hc.ended expected hc.mem

theorem bind [Kept P] (h : Eats ts room n P x) (hf : ∀ a, Eats ts room n Uncommented (f a)) :
    Eats ts room n P (x >>= f) :=
  fun c hc => (h c hc).bind hc hf

theorem lead [Kept P] [Final Q] (h : Eats ts room n P x) (hf : ∀ a, Eats ts room n Q (f a)) :
    Eats ts room n Q (x >>= f) :=
  fun c hc => (h c hc).lead hc hf

theorem bindToken [Kept P] [Counts P] (h : Eats ts room n P x)
    (hf : ∀ m < n, ∀ a, Eats ts room m Uncommented (f a)) : Eats ts room n P (x >>= f) :=
  fun c hc => (h c hc).bindToken hc hf

theorem leadToken [Kept P] [Counts P] [Final Q] (h : Eats ts room n P x)
    (hf : ∀ m < n, ∀ a, Eats ts room m Q (f a)) : Eats ts room n Q (x >>= f) :=
  fun c hc => (h c hc).leadToken hc hf

theorem returning [Kept P] (h : Eats ts room n P x) (g : α → β) :
    Eats ts room n P (x >>= fun a => Pure.pure (g a)) :=
  h.bind fun a => pure (g a)

theorem discard (h : Eats ts room n P x) : Eats ts room n P (discard x : Parser Unit) :=
  fun c hc => (h c hc).discard

theorem look (hx : ∀ c, x c = .ok (g c) c)
    (hf : ∀ c, c.Stands ts n → Consumes ts room c P (f (g c) c)) : Eats ts room n P (x >>= f) := by
  intro c hc
  rw [run_bind_ok (hx c)]
  exact hf c hc

theorem looking (hx : ∀ c, x c = .ok (g c) c) (hf : ∀ a, Eats ts room n P (f a)) :
    Eats ts room n P (x >>= f) :=
  look hx fun c hc => hf _ c hc

theorem ite {p : Prop} [Decidable p] {y : Parser α} (hx : Eats ts room n P x)
    (hy : Eats ts room n P y) :
    Eats ts room n P (if p then x else y) := by
  split
  · exact hx
  · exact hy

theorem modify {g : Cursor → Cursor}
    (hg : ∀ c, (g c).rest = c.rest ∧ (g c).size = c.size ∧ (g c).previous = c.previous) :
    Eats ts room n Uncommented (modify g : Parser Unit) :=
  fun c hc => ⟨[], .of_eq hc.ended (hg c).1 (hg c).2.1 (hg c).2.2, uncommented_nil⟩

end Eats

end Forward

/-! ### Single tokens -/

/-- The token is neither the end nor a sign that could take part in a comment. -/
structure Ordinary (t : Token) : Prop where
  not_end : t.kind ≠ .endOfInput
  not_slash : ¬ IsSlash t
  not_star : ¬ IsStar t

theorem ordinary_of_kind (h : t.kind ≠ .endOfInput) (h' : t.kind ≠ .operator) : Ordinary t :=
  ⟨h, fun hslash => h' hslash.1, fun hstar => h' hstar.1⟩

theorem ordinary_of_isDelimiter {text : String} (h : t.isDelimiter text = true) : Ordinary t := by
  simp only [Token.isDelimiter, Token.is, Bool.and_eq_true, beq_iff_eq] at h
  exact ordinary_of_kind (by simp [h.1]) (by simp [h.1])

theorem ordinary_of_isKeyword {words : List String} (h : t.isKeyword words = true) :
    Ordinary t := by
  simp only [Token.isKeyword, Bool.and_eq_true, beq_iff_eq] at h
  exact ordinary_of_kind (by simp [h.1]) (by simp [h.1])

theorem ordinary_of_isOperator (h : t.isOperator texts = true)
    (htexts : ∀ text ∈ texts, text ∉ ["/", "*", "*="]) : Ordinary t := by
  simp only [Token.isOperator, Bool.and_eq_true, beq_iff_eq, List.contains_iff_mem] at h
  have hnot := htexts t.text h.2
  refine ⟨by simp [h.1], fun hslash => hnot (by simp [hslash.2]), fun hstar => hnot ?_⟩
  rcases hstar.2 with hstar | hstar <;> simp [hstar]

theorem Ordinary.opening (h : Ordinary t) : Opening [t] :=
  ⟨uncommented_single h.not_slash, t, [], rfl, h.not_star⟩

theorem consumes_advance (hc : c.Ended) (h : (c.ahead 0).kind ≠ .endOfInput) (hP : P [c.ahead 0]) :
    Consumes ts room c P (advance c) :=
  ⟨[c.ahead 0], hc.next h, hP⟩

theorem consumes_ordinary (hc : c.Ended) (h : Ordinary (c.ahead 0)) :
    Consumes ts room c Opening (advance c) :=
  consumes_advance hc h.not_end h.opening

theorem consumes_part (hc : c.Ended) (h : Ordinary (c.ahead 0)) :
    Consumes ts room c Part (advance c) :=
  consumes_advance hc h.not_end h.opening.part

/-- Any other token may be consumed too, and the end stays. -/
theorem consumes_any (hc : c.Ended) (h : ¬ IsSlash (c.ahead 0)) :
    Consumes ts room c Uncommented (advance c) := by
  by_cases hend : (c.ahead 0).kind = .endOfInput
  · obtain ⟨us, hus⟩ := hc.rest_eq
    have hnext : c.next = c := by simp [Cursor.next, hus, hend]
    refine ⟨[], ?_, uncommented_nil⟩
    rw [hnext]
    exact .refl hc
  · exact consumes_advance hc hend (uncommented_single h)

/-! ### Loops -/

/-- The loop that repeats `step` until it is done ends with the result `r` when it is started in `s`
at `c`, and each of its rounds that goes on consumes a token. -/
inductive Ends (step : σ → Parser (ForInStep σ)) :
    σ → Cursor → EStateM.Result Failure Cursor σ → Prop
  | done {s s' : σ} {c c' : Cursor} : step s c = .ok (.done s') c' → Ends step s c (.ok s' c')
  | fail {s : σ} {c c' : Cursor} {e : Failure} : step s c = .error e c' →
    Ends step s c (.error e c')
  | next {s s' : σ} {c c' : Cursor} {r : EStateM.Result Failure Cursor σ} :
    step s c = .ok (.yield s') c' → c'.rest.length < c.rest.length → Ends step s' c' r →
    Ends step s c r

/-- From the states with at most `n` tokens ahead, every round of a loop reads forward, and one that
goes on consumes a token. -/
structure Rounds (ts : List Token) (room : Prop) (n : Nat) (step : σ → Parser (ForInStep σ)) :
    Prop where
  eats : ∀ s, Eats ts room n Uncommented (step s)
  gains : ∀ {s s' c c'}, c.Stands ts n → step s c = .ok (.yield s') c' →
    c'.rest.length < c.rest.length

namespace Rounds

variable {step : σ → Parser (ForInStep σ)} {s s' : σ}

/-- A round that consumes nothing is the last one. -/
theorem of_part (h : ∀ s c, c.Stands ts n → step s c = .ok (.done s) c ∨
    Consumes ts room c Part (step s c)) :
    Rounds ts room n step where
  eats s c hc := by
    rcases h s c hc with hdone | hpart
    · rw [hdone]
      exact Eats.pure _ c hc
    · exact hpart.mono fun _ => Part.toUncommented
  gains {s s' c c'} hc hstep := by
    rcases h s c hc with hdone | hpart
    · cases hdone.symm.trans hstep
    · rw [hstep] at hpart
      obtain ⟨used, hused, hpart⟩ := hpart
      have hlen := hused.length
      have hpos := hpart.length_pos
      omega

theorem next (h : Rounds ts room n step) (hc : c.Stands ts n)
    (hstep : step s c = .ok (.yield s') c') :
    c'.Stands ts n ∧ c'.rest.length < c.rest.length := by
  have heats := h.eats s c hc
  rw [hstep] at heats
  obtain ⟨used, hused, -⟩ := heats
  exact ⟨hc.behind hused, h.gains hc hstep⟩

/-- **The bound of a loop does not end it**: with more rounds than tokens ahead, their number does
not matter. -/
theorem stepUpTo_eq (h : Rounds ts room n step) (bound : Nat) :
    ∀ bound' s c, c.Stands ts n → c.rest.length < bound → c.rest.length < bound' →
      stepUpTo step bound s c = stepUpTo step bound' s c := by
  induction bound with
  | zero => exact fun _ _ _ _ hlt => absurd hlt (Nat.not_lt_zero _)
  | succ bound ih =>
    intro bound' s c hc hbd hbd'
    obtain ⟨k, rfl⟩ : ∃ k, bound' = k + 1 := ⟨bound' - 1, by omega⟩
    rw [stepUpTo, stepUpTo]
    cases hstep : step s c with
    | error e c' => rw [run_bind_error hstep, run_bind_error hstep]
    | ok r c' =>
      rw [run_bind_ok hstep, run_bind_ok hstep]
      cases r with
      | done s' => rfl
      | yield s' =>
        obtain ⟨hstands, hlt⟩ := h.next hc hstep
        exact ih k s' c' hstands (by omega) (by omega)

theorem eats_stepUpTo (h : Rounds ts room n step) (bound : Nat) :
    ∀ s, Eats ts room n Uncommented (stepUpTo step bound s) := by
  induction bound with
  | zero => exact fun _ => .pure _
  | succ bound ih =>
    refine fun s => (h.eats s).bind fun r => ?_
    cases r with
    | done s' => exact .pure _
    | yield s' => exact ih s'

theorem ends (h : Rounds ts room n step) (bound : Nat) :
    ∀ s c, c.Stands ts n → c.rest.length < bound → Ends step s c (stepUpTo step bound s c) := by
  induction bound with
  | zero => exact fun _ _ _ hlt => absurd hlt (Nat.not_lt_zero _)
  | succ bound ih =>
    intro s c hc hbd
    rw [stepUpTo]
    cases hstep : step s c with
    | error e c' =>
      rw [run_bind_error hstep]
      exact .fail hstep
    | ok r c' =>
      rw [run_bind_ok hstep]
      cases r with
      | done s' => exact .done hstep
      | yield s' =>
        obtain ⟨hstands, hlt⟩ := h.next hc hstep
        exact .next hstep hlt (ih s' c' hstands (by omega))

/-- A loop that returned has had a last round. -/
theorem last (h : Rounds ts room n step) {r : EStateM.Result Failure Cursor σ}
    (hends : Ends step s c r)
    (hc : c.Stands ts n) (hr : r = .ok s' c') : ∃ s d, d.Ended ∧ step s d = .ok (.done s') c' := by
  induction hends with
  | done hstep =>
    cases hr
    exact ⟨_, _, hc.ended, hstep⟩
  | fail _ => cases hr
  | next hstep _ _ ih => exact ih (h.next hc hstep).1 hr

end Rounds

/-- A round of a list: `more` finds out whether an item follows those that were read before. -/
def itemStep (more : Parser Bool) (item : Parser α) (as : List α) :
    Parser (ForInStep (List α)) := do
  if ← more then
    let a ← item
    return .yield (as ++ [a])
  else return .done as

theorem repeatUpTo_eq_steps (more : Parser Bool) (item : Parser α) (bound : Nat) :
    repeatUpTo more item bound = stepUpTo (itemStep more item) bound [] := by
  have hbehind : ∀ as : List α, (as ++ ·) <$> repeatUpTo more item bound =
      stepUpTo (itemStep more item) bound as := by
    induction bound with
    | zero => simp [repeatUpTo, stepUpTo]
    | succ bound ih =>
      intro as
      rw [repeatUpTo, stepUpTo, itemStep, map_bind, bind_assoc]
      refine bind_congr fun b => ?_
      cases b with
      | false => simp
      | true => simp [← ih]
  simpa using hbehind []

/-- From the states with at most `n` tokens ahead, a round of a list reads forward, and its item
consumes a token. -/
structure Round (ts : List Token) (room : Prop) (n : Nat) (more : Parser Bool) (item : Parser α) :
    Prop where
  asks : Eats ts room n Uncommented more
  gains : ∀ c c', c.Stands ts n → more c = .ok true c' → Consumes ts room c' Part (item c')

namespace Round

variable {more : Parser Bool}

/-- The items of most lists consume a token wherever they are read. -/
theorem of_item (hmore : Eats ts room n Uncommented more) (hitem : Eats ts room n Part item) :
    Round ts room n more item := by
  refine ⟨hmore, fun c c' hc hrun => ?_⟩
  have hasks := hmore c hc
  rw [hrun] at hasks
  obtain ⟨used, hused, -⟩ := hasks
  exact hitem c' (hc.behind hused)

theorem rounds (h : Round ts room n more item) : Rounds ts room n (itemStep more item) where
  eats as c hc := by
    refine .andThen (fun _ _ => .append) (h.asks c hc) fun b c' used hmore hused _ => ?_
    cases b with
    | false => exact Eats.pure _ c' (hc.behind hused)
    | true =>
      exact ((h.gains c c' hc hmore).mono fun _ => Part.toUncommented).bind (hc.behind hused)
        fun _ => .pure _
  gains {as as' c c''} hc hstep := by
    obtain ⟨b, c', hmore, hstep⟩ := run_bind_eq_ok hstep
    cases b with
    | false => cases hstep
    | true =>
      obtain ⟨a, d, hitem, hstep⟩ := run_bind_eq_ok hstep
      cases hstep
      have hfirst := h.asks c hc
      have hsecond := h.gains c c' hc hmore
      rw [hmore] at hfirst
      rw [hitem] at hsecond
      obtain ⟨used, hused, -⟩ := hfirst
      obtain ⟨others, hothers, hpart⟩ := hsecond
      have hlen := hused.length
      have hlen' := hothers.length
      have hpos := hpart.length_pos
      omega

theorem repeatUpTo_eq (h : Round ts room n more item) {bound bound' : Nat} (hc : c.Stands ts n)
    (hbd : c.rest.length < bound) (hbd' : c.rest.length < bound') :
    repeatUpTo more item bound c = repeatUpTo more item bound' c := by
  rw [repeatUpTo_eq_steps, repeatUpTo_eq_steps]
  exact h.rounds.stepUpTo_eq _ _ _ c hc hbd hbd'

/-- A list with an item is the item followed by the list of the others. -/
theorem repeatWhile_eq (h : Round ts room n more item) (hc : c.Stands ts n)
    (hmore : more c = .ok true c') :
    repeatWhile more item c = (do
      let a ← item
      let as ← repeatWhile more item
      return a :: as) c' := by
  have hfirst : repeatWhile more item c = (do
      let a ← item
      let as ← repeatUpTo more item c.size
      return a :: as) c' := run_bind_ok hmore
  rw [hfirst]
  cases hitem : item c' with
  | error e c'' => rw [run_bind_error hitem, run_bind_error hitem]
  | ok a c'' =>
    have hstep : itemStep more item [] c = .ok (.yield [a]) c'' :=
      (run_bind_ok hmore).trans (run_bind_ok hitem)
    obtain ⟨hstands, hlt⟩ := h.rounds.next hc hstep
    have hwithin := hc.ended.within
    have hwithin' := hstands.ended.within
    have hrest : repeatUpTo more item c.size c'' = repeatWhile more item c'' :=
      h.repeatUpTo_eq hstands (by omega) (by omega)
    rw [run_bind_ok hitem, run_bind_ok hitem]
    simp only [bind, EStateM.bind, hrest]

theorem eats_repeatWhile (h : Round ts room n more item) :
    Eats ts room n Uncommented (repeatWhile more item) := by
  intro c hc
  have hrun : repeatWhile more item c = repeatUpTo more item (c.size + 1) c := rfl
  rw [hrun, repeatUpTo_eq_steps]
  exact h.rounds.eats_stepUpTo _ _ c hc

theorem ends (h : Round ts room n more item) (hc : c.Stands ts n) :
    Ends (itemStep more item) [] c (repeatWhile more item c) := by
  have hrun : repeatWhile more item c = repeatUpTo more item (c.size + 1) c := rfl
  rw [hrun, repeatUpTo_eq_steps]
  exact h.rounds.ends _ [] c hc (Nat.lt_succ_of_le hc.ended.within)

/-- A list is read up to where no item follows. -/
theorem refused (h : Round ts room n more item) (hc : c.Stands ts n) {as : List α}
    (hrun : repeatWhile more item c = .ok as c') : ∃ d, d.Ended ∧ more d = .ok false c' := by
  obtain ⟨as', d, hd, hstep⟩ := h.rounds.last (h.ends hc) hc hrun
  obtain ⟨b, d', hmore, hstep⟩ := run_bind_eq_ok hstep
  cases b with
  | false =>
    cases hstep
    exact ⟨d, hd, hmore⟩
  | true =>
    obtain ⟨a, d'', -, hstep⟩ := run_bind_eq_ok hstep
    cases hstep

end Round

/-! ### Primitives -/

theorem eats_test {x : Parser Bool}
    (hx : ∀ c, x c = .ok (test (c.ahead 0)) c) (h : ∀ t, test t = true → Ordinary t) :
    Eats ts room n Uncommented (x >>= fun b => if b then discard advance >>= fun _ => pure true
      else pure false : Parser Bool) := by
  refine .look hx fun c hc => ?_
  split
  · next htest =>
    exact ((consumes_ordinary hc.ended (h _ htest)).discard.mono fun _ =>
      Opening.toUncommented).bind hc
      fun _ => .pure _
  · exact Eats.pure _ c hc

theorem eats_matchDelimiter (text : String) : Eats ts room n Uncommented (matchDelimiter text) :=
  eats_test (fun _ => rfl) fun _ => ordinary_of_isDelimiter

theorem eats_matchKeyword (words : List String) : Eats ts room n Uncommented (matchKeyword words) :=
  eats_test (fun _ => rfl) fun _ => ordinary_of_isKeyword

theorem eats_matchOperator (htexts : ∀ text ∈ texts, text ∉ ["/", "*", "*="]) :
    Eats ts room n Uncommented (matchOperator texts) :=
  eats_test (fun _ => rfl) fun _ h => ordinary_of_isOperator h htexts

theorem eats_expected {x : Parser Bool} (hx : ∀ c, x c = .ok (test (c.ahead 0)) c)
    (h : ∀ t, test t = true → Ordinary t) (expected : String) :
    Eats ts room n Opening (x >>= fun b => if b then advance else failHere expected) := by
  refine .look hx fun c hc => ?_
  split
  · next htest => exact consumes_ordinary hc.ended (h _ htest)
  · exact Eats.failHere _ c hc

theorem eats_expectDelimiter (text : String) : Eats ts room n Opening (expectDelimiter text) :=
  eats_expected (fun _ => rfl) (fun _ => ordinary_of_isDelimiter) _

theorem eats_expectKeyword (word : String) : Eats ts room n Opening (expectKeyword word) :=
  eats_expected (fun _ => rfl) (fun _ => ordinary_of_isKeyword) _

theorem ordinary_of_beq {kind : TokenKind} (h : (t.kind == kind) = true)
    (hkind : kind ≠ .endOfInput ∧ kind ≠ .operator) : Ordinary t := by
  rw [beq_iff_eq] at h
  exact ordinary_of_kind (h ▸ hkind.1) (h ▸ hkind.2)

theorem eats_expectIdentifier (description : String) :
    Eats ts room n Opening (expectIdentifier description) := by
  refine .look (fun _ => rfl) fun c hc => ?_
  split
  · next h => exact consumes_ordinary hc.ended (ordinary_of_beq h (by decide))
  · exact Eats.failHere _ c hc

theorem round_comma (h : Eats ts room n Part item) : Round ts room n (matchDelimiter ",") item :=
  .of_item (eats_matchDelimiter ",") h

theorem eats_commaSeparated (h : Eats ts room n Part item) :
    Eats ts room n Part (commaSeparated item) :=
  h.bind fun _ => (round_comma h).eats_repeatWhile.returning _

/-- Items between commas, where a comma may follow the last. -/
theorem round_moreBefore (close : String) (h : Eats ts room n Part item) :
    Round ts room n (moreBefore close) item := by
  refine .of_item ((eats_matchDelimiter ",").bind fun b => .ite ?_ (.pure _)) h
  exact .looking (fun _ => rfl) fun _ => .pure _

theorem eats_commaTerminated (close : String) (h : Eats ts room n Part item) :
    Eats ts room n Uncommented (commaTerminated close item) := by
  refine .looking (fun _ => rfl) fun _ => .ite (.pure _) ?_
  exact h.any.bind fun _ => (round_moreBefore close h).eats_repeatWhile.returning _

/-! ### Types -/

/-- A loop that goes on at tokens of a kind, with items that begin with such a token. -/
theorem round_tokens {more : Parser Bool} (test : Token → Bool)
    (hmore : ∀ c, ∃ b, more c = .ok b c ∧ (b = true → test (c.ahead 0) = true))
    (hitem : ∀ c, c.Stands ts n → test (c.ahead 0) = true → Consumes ts room c Part (item c)) :
    Round ts room n more item where
  asks c hc := by
    obtain ⟨b, hrun, -⟩ := hmore c
    rw [hrun]
    exact ⟨[], .refl hc.ended, uncommented_nil⟩
  gains c c' hc hrun := by
    obtain ⟨b, hrun', htrue⟩ := hmore c
    rw [hrun] at hrun'
    cases hrun'
    exact hitem c hc (htrue rfl)

theorem round_modifiers : Round ts room n (peekKeyword ["const", "static"]) (do
    let t ← advance
    return if t.text == "const" then Modifier.const else .static) := by
  refine round_tokens (·.isKeyword ["const", "static"]) (fun _ => ⟨_, rfl, id⟩) fun c hc hkw => ?_
  exact (consumes_part hc.ended (ordinary_of_isKeyword hkw)).bind hc
    fun _ => .pure _

theorem consumes_sign (hc : c.Ended) (h : (c.ahead 0).isOperator ["*", "&"] = true) :
    Consumes ts room c Part (advance c) := by
  simp only [Token.isOperator, Bool.and_eq_true, beq_iff_eq, List.contains_iff_mem] at h
  refine consumes_advance hc (by simp [h.1]) ⟨uncommented_single fun hslash => ?_, nofun⟩
  rw [hslash.2] at h
  exact absurd h.2 (by decide)

theorem round_signs : Round ts room n (peekOperator ["*", "&"]) advance :=
  round_tokens (·.isOperator ["*", "&"]) (fun _ => ⟨_, rfl, id⟩) fun _ hc => consumes_sign hc.ended

theorem round_typeSigns : Round ts room n (do
    return !(← get).splitCloser && (← peekOperator ["*", "&"])) advance :=
  round_tokens (·.isOperator ["*", "&"])
    (fun _ => ⟨_, rfl, fun h => (Bool.and_eq_true_iff.mp h).2⟩) fun _ hc => consumes_sign hc.ended

theorem ordinary_of_isIntegerAlias (h : isIntegerAlias t = true) : Ordinary t := by
  rw [isIntegerAlias, Bool.and_eq_true] at h
  exact ordinary_of_beq h.1 (by decide)

theorem round_integerAlias : Round ts room n (do return isIntegerAlias (← peek)) advance :=
  round_tokens isIntegerAlias (fun _ => ⟨_, rfl, id⟩) fun _ hc halias =>
    consumes_part hc.ended (ordinary_of_isIntegerAlias halias)

/-- The first of the names that stand for the integers is consumed. -/
theorem consumes_skipIntegerAlias (hc : c.Stands ts n) (h : isIntegerAlias (c.ahead 0) = true) :
    Consumes ts room c Part (skipIntegerAlias c) := by
  have hround : Round ts room n (do return isIntegerAlias (← peek)) advance := round_integerAlias
  refine Consumes.bind (P := Part) hc ?_ fun _ => (eats_matchKeyword _).discard
  have hmore : (do return isIntegerAlias (← peek) : Parser Bool) c = .ok true c :=
    congrArg (EStateM.Result.ok · c) h
  rw [hround.repeatWhile_eq hc hmore]
  exact (consumes_part hc.ended (ordinary_of_isIntegerAlias h)).bind hc
    fun _ => hround.eats_repeatWhile.returning _

theorem eats_closeGeneric : Eats ts room n Uncommented closeGeneric := by
  have hadvance : ∀ {g : Cursor → Cursor} {c : Cursor}, c.Stands ts n → Ordinary (c.ahead 0) →
      (∀ c, (g c).rest = c.rest ∧ (g c).size = c.size ∧ (g c).previous = c.previous) →
      Consumes ts room c Uncommented ((discard advance >>= fun _ => (modify g : Parser Unit)) c) :=
    fun hc hord hg => (consumes_ordinary hc.ended hord).discard.lead hc fun _ => .modify hg
  refine .look (fun _ => rfl) fun c hc => ?_
  split
  · exact ⟨[], .of_eq hc.ended rfl rfl rfl, uncommented_nil⟩
  dsimp only
  split
  · next h => exact hadvance hc (ordinary_of_isOperator h (by decide)) fun _ => ⟨rfl, rfl, rfl⟩
  split
  · next h =>
    rw [Bool.and_eq_true, Token.is, Bool.and_eq_true] at h
    exact hadvance hc (ordinary_of_beq h.1.1 (by decide)) fun _ => ⟨rfl, rfl, rfl⟩
  · exact .throw hc.ended (fun _ => nofun) ⟨_, hc.mem, rfl, rfl, rfl⟩

/-! ### Room for the rules in progress

A rule enters another one behind a token, or at the same place if the other one's rank is lower; so
eight rules for each token ahead are enough, and one for each rank. -/

/-- A rule of rank `k` may have `depth` rules in progress, and that is enough for `n` tokens. -/
def Fits (k depth n : Nat) : Prop :=
  8 * n + k ≤ depth

/-- The same for the tokens ahead of a state. -/
def Room (k depth : Nat) (c : Cursor) : Prop :=
  8 * c.rest.length + k ≤ depth

section Fits

variable {k k' : Nat} {x : Parser α}

theorem eats_tooDeep : Eats ts (Fits k 0 n) n P (throw .tooDeep : Parser α) := by
  intro c hc
  refine .throw hc.ended (fun hfits => ?_) trivial
  have hpos := List.length_pos_iff.mpr hc.ended.ne_nil
  have hle := hc.length_le
  unfold Fits at hfits
  omega

theorem Eats.behind (h : Eats ts (Fits k' depth m) m P x) (hm : m < n) (hk : k' ≤ 7) :
    Eats ts (Fits k (depth + 1) n) m P x := by
  refine h.weaken fun hfits => ?_
  unfold Fits at *
  omega

theorem Eats.inside (h : Eats ts (Fits k' depth n) n P x) (hk : k' < k) :
    Eats ts (Fits k (depth + 1) n) n P x := by
  refine h.weaken fun hfits => ?_
  unfold Fits at *
  omega

/-- A rule behind a token, with the same number of rules in progress. -/
theorem Eats.further (h : Eats ts (Fits k' depth m) m P x) (hm : m < n) (hk : k' ≤ 8) :
    Eats ts (Fits k depth n) m P x := by
  refine h.weaken fun hfits => ?_
  unfold Fits at *
  omega

end Fits

/-! ### Types, continued -/

theorem eats_optionalArgs
    (hargs : ∀ c, c.Stands ts n → Ordinary (c.ahead 0) →
      Consumes ts room c Part (genericArgs depth c))
    (allowed : Bool) : Eats ts room n Uncommented (optionalArgs (genericArgs depth) allowed) := by
  refine .look (fun _ => rfl) fun c hc => ?_
  split
  · next h =>
    have hless := (Bool.and_eq_true_iff.mp h).2
    exact (hargs c hc (ordinary_of_isOperator hless (by decide))).mono fun _ => Part.toUncommented
  · exact Eats.pure _ c hc

theorem ordinary_of_isStd
    (h : ((c.ahead 0).is .identifier "std" && (c.ahead 1).kind == .scope) = true) :
    Ordinary (c.ahead 0) := by
  rw [Bool.and_eq_true, Token.is, Bool.and_eq_true] at h
  exact ordinary_of_beq h.1.1 (by decide)

/-- Behind the name of the standard namespace stands the scope sign. -/
theorem ordinary_of_scope (hc : c.Ended)
    (h : ((c.ahead 0).is .identifier "std" && (c.ahead 1).kind == .scope) = true) :
    Ordinary (c.next.ahead 0) := by
  have hord := ordinary_of_isStd h
  rw [Bool.and_eq_true, hc.ahead_one hord.not_end] at h
  exact ordinary_of_beq h.2 (by decide)

/-- The base of a type; its arguments are read with one rule more in progress. -/
theorem eats_typeBase (hargs : ∀ m < n, ∀ c, c.Stands ts m → Ordinary (c.ahead 0) →
      Consumes ts room c Part (genericArgs depth c)) : Eats ts room n Part
      (typeBase (genericArgs depth)) := by
  have hword : ∀ {c : Cursor} (x : BaseType × Bool × List TypeExpr), c.Stands ts n →
    Ordinary (c.ahead 0) →
      Consumes ts room c Part ((discard advance >>= fun _ => pure x) c) := fun x hc hord =>
    (consumes_part hc.ended hord).discard.bind hc fun _ => .pure _
  refine .look (fun _ => rfl) fun c hc => ?_
  rw [run_bind_ok (x := peekStd) rfl]
  split
  · next h =>
    exact (consumes_part hc.ended (ordinary_of_isKeyword h)).discard.bindToken
      hc fun m hm _ => (eats_optionalArgs (hargs m hm) true).returning _
  split
  · next h =>
    have hfirst := hc.ended.next (ordinary_of_isStd h).not_end
    have hscope := ordinary_of_scope hc.ended h
    have hsecond := hfirst.ended.next hscope.not_end
    rw [run_discard_advance, run_discard_advance]
    refine .after hfirst (fun more => (ordinary_of_isStd h).opening.part.append)
      (.after hsecond (fun _ => (uncommented_single hscope.not_slash).append) ?_)
    obtain ⟨m, hm, hstands⟩ := hc.shorter hfirst (List.cons_ne_nil _ _)
    have hstands := hstands.behind hsecond
    -- The third token is consumed before it is looked at; the end stays.
    by_cases hslash : IsSlash (c.next.next.ahead 0)
    · have hend : (c.next.next.ahead 0).kind ≠ .endOfInput := by simp [hslash.1]
      have hkind : ((c.next.next.ahead 0).kind != .identifier && (c.next.next.ahead 0).kind !=
        .keyword) =
          true := by simp [hslash.1]
      rw [run_advance, if_pos hkind]
      exact ⟨⟨_, hsecond.ended.next hend⟩, fun _ => nofun, _, hstands.mem, rfl, rfl, rfl⟩
    · refine .andThen (fun _ _ => Uncommented.append) (consumes_any hsecond.ended hslash)
        fun q d used hrun hused _ => ?_
      obtain rfl : c.next.next.ahead 0 = q := by
        cases hrun
        rfl
      have hd := hstands.behind hused
      split
      · exact .failAt hd.ended _ hstands.mem
      · exact ((eats_optionalArgs (hargs m hm) _).returning _) d hd
  split
  · next h => exact hword _ hc (ordinary_of_isKeyword h)
  split
  · next h => exact (consumes_skipIntegerAlias hc h).bind hc fun _ => .pure _
  split
  · next h => exact hword _ hc (ordinary_of_beq h (by decide))
  · exact Eats.failHere _ c hc

theorem round_moreArgs (h : Eats ts room n Part (typeExpr depth)) :
    Round ts room n moreArgs (typeExpr depth) :=
  .of_item (.looking (fun _ => rfl) fun _ => .ite (.pure _) (eats_matchDelimiter ",")) h

/-- **What the rules for types consume.** -/
theorem eats_typeExpr (depth : Nat) :
    (∀ n, Eats ts (Fits 1 depth n) n Part (typeExpr depth)) ∧
      ∀ n c, c.Stands ts n → Ordinary (c.ahead 0) → Consumes ts (Fits 1 depth n) c Part
      (genericArgs depth c) := by
  induction depth with
  | zero => exact ⟨fun n => eats_tooDeep, fun n c hc _ => eats_tooDeep c hc⟩
  | succ depth ih =>
    obtain ⟨htype, hargs⟩ := ih
    refine ⟨fun n => ?_, fun n c hc hord => ?_⟩
    · rw [typeExpr_succ]
      refine .lead round_modifiers.eats_repeatWhile fun modifiers =>
        .bind (eats_typeBase ?_) fun x => ?_
      · intro m hm c hc hord
        refine (hargs m c hc hord).weaken fun hfits => ?_
        unfold Fits at *
        omega
      · exact (round_typeSigns.eats_repeatWhile.returning _).returning _
    · rw [genericArgs]
      refine (consumes_part hc.ended hord).discard.bindToken hc
        fun m hm _ => .bind (.modify fun _ => ⟨rfl, rfl, rfl⟩) fun _ => ?_
      have hitem : Eats ts (Fits 1 (depth + 1) n) m Part (typeExpr depth) :=
        (htype m).behind hm (by decide)
      exact hitem.any.bind fun a => (round_moreArgs hitem).eats_repeatWhile.bind fun as =>
        eats_closeGeneric.returning _

/-! ### Operators and suffixes -/

theorem kind_of_joint {joint : Joint} (h : Joint.ofToken? t = .ok (some joint)) :
    t.kind ≠ .endOfInput := by
  intro hkind
  simp [Joint.ofToken?, hkind] at h

theorem operatorStep_cases (least : Nat) (h : ∀ k, Eats ts room n Opening (operand k))
    (hc : c.Stands ts n)
    (left : Expr) : operatorStep operand least left c = .ok (.done left) c ∨
      Consumes ts room c Part (operatorStep operand least left c) := by
  rw [operatorStep, run_peek]
  cases htoken : Joint.ofToken? (c.ahead 0) with
  | error fault =>
    exact .inr (.throw hc.ended (fun _ h => by cases h) ⟨_, hc.mem, .inr htoken⟩)
  | ok joint =>
    rw [run_orFault_ok]
    cases joint with
    | none => exact .inl rfl
    | some joint =>
      have hnext := hc.ended.next (kind_of_joint htoken)
      dsimp only
      split
      · exact .inl rfl
      · refine .inr (.after hnext
          (fun more (hmore : Opening more) => ⟨hmore.cons _, List.cons_ne_nil _ _⟩) ?_)
        exact ((h _).returning _) _ (hc.behind hnext)

theorem rounds_operator (least : Nat) (h : ∀ k, Eats ts room n Opening (operand k)) :
    Rounds ts room n (operatorStep operand least) :=
  .of_part fun left _ hc => operatorStep_cases least h hc left

/-- Operators and their operands are consumed up to where no operator follows. -/
theorem eats_climb (least : Nat) (left : Expr)
    (h : ∀ k, Eats ts room n Opening (operand k)) :
    Eats ts room n Uncommented (climb operand least left) := by
  intro c hc
  have hrun : climb operand least left c = stepUpTo (operatorStep operand least) (c.size + 1) left c := rfl
  rw [hrun]
  exact (rounds_operator least h).eats_stepUpTo _ left c hc

theorem ordinary_of_access {access : Access} (h : access? t = some access) : Ordinary t := by
  unfold access? at h
  split at h
  · next hkind => exact ordinary_of_beq hkind (by decide)
  split at h
  · next hdot => exact ordinary_of_isOperator hdot (by decide)
  split at h
  · next harrow => exact ordinary_of_isOperator harrow (by decide)
  · cases h

theorem ordinary_of_step {op : StepOp} (h : stepOp? t = some op) : Ordinary t := by
  unfold stepOp? at h
  split at h
  · next hplus => exact ordinary_of_isOperator hplus (by decide)
  split at h
  · next hminus => exact ordinary_of_isOperator hminus (by decide)
  · cases h

theorem eats_memberName (access : Access) : Eats ts room n Opening (memberName access) := by
  refine .look (fun _ => rfl) fun c hc => ?_
  split
  · next h =>
    have hord : Ordinary (c.ahead 0) := by
      rw [Bool.or_eq_true, Bool.and_eq_true] at h
      rcases h with h | ⟨-, h⟩
      · exact ordinary_of_beq h (by decide)
      · exact ordinary_of_beq h (by decide)
    exact (consumes_ordinary hc.ended hord).discard.bind hc fun _ => .pure _
  · exact Eats.failHere _ c hc

theorem suffixStep_cases {arguments : Parser (List Expr)} {subscript : Parser Expr}
    (hargs : Eats ts room n Part arguments) (hsubscript : ∀ m < n, Eats ts room m Opening subscript)
    (hc : c.Stands ts n) (e : Expr) : suffixStep arguments subscript e c = .ok (.done e) c ∨
      Consumes ts room c Part (suffixStep arguments subscript e c) := by
  have hone : Ordinary (c.ahead 0) → Consumes ts room c Part (discard advance c) := fun hord =>
    (consumes_part hc.ended hord).discard
  rw [suffixStep, run_peek]
  split
  · exact .inr ((hargs.returning _) c hc)
  split
  · next hidx =>
    exact .inr ((hone (ordinary_of_isDelimiter hidx)).bindToken hc fun m hm _ =>
      (hsubscript m hm).any.bind fun _ =>
      (eats_expectDelimiter "]").discard.any.returning _)
  cases hacc : access? (c.ahead 0) with
  | some access =>
    exact .inr ((hone (ordinary_of_access hacc)).bind hc fun _ =>
      (eats_memberName access).any.returning _)
  | none =>
    cases hop : stepOp? (c.ahead 0) with
    | some op => exact .inr ((hone (ordinary_of_step hop)).bind hc fun _ => .pure _)
    | none => exact .inl rfl

theorem rounds_suffix {arguments : Parser (List Expr)} {subscript : Parser Expr}
    (hargs : Eats ts room n Part arguments)
    (hsubscript : ∀ m < n, Eats ts room m Opening subscript) :
    Rounds ts room n (suffixStep arguments subscript) :=
  .of_part fun e _ hc => suffixStep_cases hargs hsubscript hc e

theorem ordinary_of_unaryOp {op : UnaryOp} (h : unaryOp? t = some op) : Ordinary t := by
  unfold unaryOp? at h
  split at h
  · next hkind =>
    have htext : op.symbol = t.text := by simpa using List.find?_some h
    have hsymbol : op.symbol ∉ ["/", "*", "*="] := by cases op <;> decide
    have hop : t.isOperator [t.text] = true := by simpa [Token.isOperator] using hkind
    refine ordinary_of_isOperator hop fun text hmem => ?_
    rw [List.mem_singleton.mp hmem, ← htext]
    exact hsymbol
  · cases h

theorem ordinary_of_literal {value : Literal} (h : literal? t = .ok (some value)) : Ordinary t := by
  refine ordinary_of_kind (fun hkind => ?_) fun hkind => ?_
  · simp [literal?, hkind] at h
  · simp [literal?, hkind] at h

/-! ### Expressions -/

/-- What the rules for expressions consume. -/
structure EatsExpr (ts : List Token) (depth : Nat) : Prop where
  expression : ∀ n least, Eats ts (Fits 4 depth n) n Opening (expression depth least)
  unary : ∀ n, Eats ts (Fits 3 depth n) n Opening (unary depth)
  suffixes : ∀ n e, Eats ts (Fits 2 depth n) n Uncommented (suffixes depth e)
  arguments : ∀ n, Eats ts (Fits 1 depth n) n Part (arguments depth)
  primary : ∀ n, Eats ts (Fits 2 depth n) n Opening (primary depth)
  allocation : ∀ n c, c.Stands ts n → Ordinary (c.ahead 0) →
    Consumes ts (Fits 1 depth n) c Opening (allocation depth c)
  listBetween : ∀ close n c, c.Stands ts n → Ordinary (c.ahead 0) →
    Consumes ts (Fits 1 depth n) c Opening (listBetween depth close c)

namespace EatsExpr

theorem zero : EatsExpr ts 0 := by
  constructor
  case expression => intro n least; rw [Parse.expression]; exact eats_tooDeep
  case unary => intro n; rw [Parse.unary]; exact eats_tooDeep
  case suffixes => intro n e; rw [Parse.suffixes]; exact eats_tooDeep
  case arguments => intro n; rw [Parse.arguments]; exact eats_tooDeep
  case primary => intro n; rw [Parse.primary]; exact eats_tooDeep
  case allocation => intro n c hc _; rw [Parse.allocation]; exact eats_tooDeep c hc
  case listBetween => intro close n c hc _; rw [Parse.listBetween]; exact eats_tooDeep c hc

variable (h : EatsExpr ts depth)

include h

theorem behind {k : Nat} (least : Nat) (hm : m < n) :
    Eats ts (Fits k (depth + 1) n) m Opening (Parse.expression depth least) :=
  (h.expression m least).behind hm (by decide)

theorem expression_succ (least : Nat) :
    Eats ts (Fits 4 (depth + 1) n) n Opening (Parse.expression (depth + 1) least) := by
  rw [Parse.expression]
  exact ((h.unary n).inside (by decide)).bindToken fun m hm left =>
    eats_climb least left fun k => h.behind k hm

theorem unary_succ : Eats ts (Fits 3 (depth + 1) n) n Opening (Parse.unary (depth + 1)) := by
  rw [Parse.unary]
  refine .look (fun _ => rfl) fun c hc => ?_
  cases hop : unaryOp? (c.ahead 0) with
  | some op =>
    exact (consumes_ordinary hc.ended (ordinary_of_unaryOp hop)).discard.bindToken hc fun m hm _ =>
      ((h.unary m).behind hm (by decide)).any.returning _
  | none =>
    exact (((h.primary n).inside (by decide)) c hc).bindToken hc fun m hm e =>
      (h.suffixes m e).behind hm (by decide)

theorem suffixes_succ (e : Expr) :
    Eats ts (Fits 2 (depth + 1) n) n Uncommented (Parse.suffixes (depth + 1) e) := by
  rw [Parse.suffixes]
  refine .looking (fun _ => rfl) fun d => ?_
  exact (rounds_suffix ((h.arguments n).inside (by decide)) fun m hm =>
    h.behind _ hm).eats_stepUpTo _ e

theorem arguments_succ : Eats ts (Fits 1 (depth + 1) n) n Part (Parse.arguments (depth + 1)) := by
  rw [Parse.arguments]
  refine (eats_expectDelimiter "(").discard.part.bindToken fun m hm _ =>
    .looking (fun _ => rfl) fun b => ?_
  have hclose : ∀ args : List Expr, Eats ts (Fits 1 (depth + 1) n) m Uncommented
      (discard (expectDelimiter ")") >>= fun _ => pure args) := fun args =>
    (eats_expectDelimiter ")").discard.any.returning _
  exact .ite (hclose []) ((eats_commaSeparated (h.behind _ hm).part).any.bind hclose)

theorem primary_succ : Eats ts (Fits 2 (depth + 1) n) n Opening (Parse.primary (depth + 1)) := by
  rw [Parse.primary]
  refine .look (fun _ => rfl) fun c hc => ?_
  have hone : ∀ e : Expr, Ordinary (c.ahead 0) →
      Consumes ts (Fits 2 (depth + 1) n) c Opening ((discard advance >>= fun _ => pure e) c) :=
    fun e hord => (consumes_ordinary hc.ended hord).discard.bind hc fun _ => .pure _
  have hinside : ∀ {r : EStateM.Result Failure Cursor Expr},
    Consumes ts (Fits 1 depth n) c Opening r →
      Consumes ts (Fits 2 (depth + 1) n) c Opening r := fun hr => hr.weaken fun hfits => by
    unfold Fits at *
    omega
  cases hlit : literal? (c.ahead 0) with
  | error fault => exact .throw hc.ended (fun _ => nofun) ⟨_, hc.mem, Or.inl hlit⟩
  | ok value =>
    rw [run_orFault_ok]
    cases value with
    | some value => exact hone _ (ordinary_of_literal hlit)
    | none =>
      dsimp only
      split
      · next hname => exact hone _ (ordinary_of_beq hname (by decide))
      split
      · next hendl => exact hone _ (ordinary_of_isKeyword hendl)
      split
      · next hnew => exact hinside (h.allocation n c hc (ordinary_of_isKeyword hnew))
      split
      · next hparen =>
        exact (consumes_ordinary hc.ended (ordinary_of_isDelimiter hparen)).discard.bindToken hc
          fun m hm _ =>
          (h.behind _ hm).any.bind fun _ => (eats_expectDelimiter ")").discard.any.returning _
      split
      · next hbracket => exact hinside (h.listBetween _ n c hc (ordinary_of_isDelimiter hbracket))
      split
      · next hbrace => exact hinside (h.listBetween _ n c hc (ordinary_of_isDelimiter hbrace))
      · exact Eats.failHere _ c hc

omit h in
theorem eats_emptyParens (e : Expr) : Eats ts room n Uncommented (do
    if (← peekDelimiter "(") && (← peekAhead 1).isDelimiter ")" then
      discard advance
      discard advance
      return e
    else return e) := by
  refine .look (fun _ => rfl) fun c hc => ?_
  rw [run_bind_ok (x := peekAhead 1) rfl]
  split
  · next hparens =>
    rw [Bool.and_eq_true] at hparens
    have hopen := ordinary_of_isDelimiter hparens.1
    rw [hc.ended.ahead_one hopen.not_end] at hparens
    have hnext := hc.ended.next hopen.not_end
    refine .after hnext (fun _ => (uncommented_single hopen.not_slash).append) ?_
    exact (consumes_ordinary hnext.ended (ordinary_of_isDelimiter hparens.2)).discard.lead
      (hc.behind hnext)
      fun _ => .pure e
  · exact Eats.pure _ c hc

theorem allocation_succ (hc : c.Stands ts n) (hord : Ordinary (c.ahead 0)) :
    Consumes ts (Fits 1 (depth + 1) n) c Opening (Parse.allocation (depth + 1) c) := by
  rw [Parse.allocation]
  refine (consumes_ordinary hc.ended hord).bindToken hc fun m hm t => ?_
  refine (((eats_typeExpr depth).1 m).behind hm (by decide)).any.bind fun type => ?_
  refine (eats_matchDelimiter "[").bind fun _ => .ite ?_ (eats_emptyParens _)
  exact (h.behind _ hm).any.bind fun _ => (eats_expectDelimiter "]").discard.any.returning _

theorem listBetween_succ (close : String) (hc : c.Stands ts n) (hord : Ordinary (c.ahead 0)) :
    Consumes ts (Fits 1 (depth + 1) n) c Opening (Parse.listBetween (depth + 1) close c) := by
  rw [Parse.listBetween]
  exact (consumes_ordinary hc.ended hord).bindToken hc fun m hm t =>
    (eats_commaTerminated close (h.behind _ hm).part).bind fun _ =>
      (eats_expectDelimiter close).discard.any.returning _

end EatsExpr

/-- **What the rules for expressions consume.** -/
theorem eatsExpr (ts : List Token) (depth : Nat) : EatsExpr ts depth := by
  induction depth with
  | zero => exact .zero
  | succ depth ih =>
    exact ⟨fun _ least => ih.expression_succ least, fun _ => ih.unary_succ,
      fun _ e => ih.suffixes_succ e,
      fun _ => ih.arguments_succ, fun _ => ih.primary_succ, fun _ _ => ih.allocation_succ,
      fun close _ _ => ih.listBetween_succ close⟩

end Parse

end SmallCpp
