import SmallCpp.Token.Rule

/-!
# What the lexical rules find

The pieces that the rules find, seen from outside: the first rule that finds something decides, a
piece is no longer than the text, and a dropped piece is white space or a comment.

A rule may look at characters behind the piece that it finds: a reserved word must not go on, a
number takes an exponent only if it is complete, a comment needs its end.  Where no rule matches,
though, the text can be cut without any effect on what is found before: each rule finds the same
piece in front of the cut, as long as the piece ends there.

## Main results

* `Found.truncate` — **a cut where no rule matches** leaves the pieces before it as they are.
-/

namespace SmallCpp.Lexical

variable {cs rest x name : List Char} {kind : Option TokenKind} {n : Nat} {c close : Char}
  {p : Char → Bool} {rule : Rule}

/-! ### The first rule that matches -/

/-- The first rule that finds something at the front of `cs` finds `n` characters of the class
`kind`. -/
def Found (cs : List Char) (kind : Option TokenKind) (n : Nat) : Prop :=
  ∃ before rule after, rules = before ++ rule :: after ∧ (∀ r ∈ before, r.length cs = 0) ∧
    rule.kind = kind ∧ rule.length cs = n ∧ 0 < n

/-- No rule finds anything at the front of `cs`. -/
def Stray (cs : List Char) : Prop :=
  ∀ rule ∈ rules, rule.length cs = 0

theorem firstMatch?_eq_some_iff : firstMatch? cs = some (kind, n) ↔ Found cs kind n := by
  rw [firstMatch?, List.findSome?_eq_some_iff]
  constructor
  · rintro ⟨before, rule, after, hrules, hrule, hbefore⟩
    dsimp only at hrule
    split at hrule
    · cases hrule
    · next hn =>
      cases hrule
      refine ⟨before, rule, after, hrules, ?_, rfl, rfl, ?_⟩
      · intro r hr
        simpa using hbefore r hr
      · simpa [Nat.pos_iff_ne_zero] using hn
  · rintro ⟨before, rule, after, hrules, hbefore, rfl, rfl, hn⟩
    refine ⟨before, rule, after, hrules, ?_, ?_⟩
    · simp [Nat.pos_iff_ne_zero.mp hn]
    · intro r hr
      simp [hbefore r hr]

/-- The first matching rule by its number: the rules before it find nothing. -/
theorem Found.index (h : Found cs kind n) :
    ∃ (i : Nat) (rule : Rule), rules[i]? = some rule ∧ rule.kind = kind ∧ rule.length cs = n ∧
      0 < n ∧ ∀ j < i, ∀ r : Rule, rules[j]? = some r → r.length cs = 0 := by
  obtain ⟨before, rule, after, hrules, hbefore, hkind, hlen, hpos⟩ := h
  refine ⟨before.length, rule, ?_, hkind, hlen, hpos, ?_⟩
  · rw [hrules, List.getElem?_append_right (Nat.le_refl _)]
    simp
  · intro j hj r hr
    rw [hrules, List.getElem?_append_left hj] at hr
    exact hbefore r (List.mem_of_getElem? hr)

/-- Most classes belong to one rule, and its number is enough to know it. -/
theorem Found.of_kind {kind : TokenKind} {i : Nat} (h : Found cs (some kind) n)
    (hi : ∀ j < rules.length, (rules.map Rule.kind)[j]? = some (some kind) → j = i) :
    ∃ rule : Rule, rules[i]? = some rule ∧ rule.length cs = n ∧ 0 < n ∧
      ∀ j < i, ∀ r : Rule, rules[j]? = some r → r.length cs = 0 := by
  obtain ⟨j, rule, hrule, hkind, hlen, hpos, hbefore⟩ := h.index
  have hj : j < rules.length := (List.getElem?_eq_some_iff.mp hrule).1
  obtain rfl : j = i := hi j hj (by rw [List.getElem?_map, hrule, Option.map_some, hkind])
  exact ⟨rule, hrule, hlen, hpos, hbefore⟩

theorem firstMatch?_eq_none_iff : firstMatch? cs = none ↔ Stray cs := by
  simp [firstMatch?, List.findSome?_eq_none_iff, Stray]

theorem stray_nil : Stray [] := by
  intro rule hrule
  simp only [rules, List.mem_cons, List.not_mem_nil, or_false] at hrule
  rcases hrule with rfl | rfl | rfl | rfl | rfl | rfl | rfl | rfl | rfl | rfl | rfl | rfl | rfl
    <;> rfl

/-! ### Runs of characters -/

/-- A run that ends before the rest of a text is the same without that rest. -/
theorem takeWhile_append_of_head (h : ∀ c ∈ rest.head?, p c = false) :
    (x ++ rest).takeWhile p = x.takeWhile p := by
  induction x with
  | nil =>
    cases rest with
    | nil => rfl
    | cons c cs => simp [h c rfl]
  | cons a x ih => simp [List.takeWhile_cons, ih]

theorem spanLength_append (h : ∀ c ∈ rest.head?, p c = false) :
    spanLength p (x ++ rest) = spanLength p x := by
  simp [spanLength, takeWhile_append_of_head h]

theorem spanLength_le (p : Char → Bool) (cs : List Char) : spanLength p cs ≤ cs.length :=
  (List.takeWhile_prefix p).length_le

theorem drop_spanLength (p : Char → Bool) (cs : List Char) :
    cs.drop (spanLength p cs) = cs.dropWhile p := by
  induction cs with
  | nil => rfl
  | cons c cs ih =>
    unfold spanLength at *
    by_cases hc : p c = true
    · simp [hc, ih]
    · simp [hc]

theorem take_spanLength (p : Char → Bool) (cs : List Char) :
    cs.take (spanLength p cs) = cs.takeWhile p := by
  induction cs with
  | nil => rfl
  | cons c cs ih =>
    unfold spanLength at *
    by_cases hc : p c = true
    · simp [hc, ih]
    · simp [hc]

/-- A run either fills the part in front of a cut, or does not reach the cut. -/
theorem spanLength_append_cases (p : Char → Bool) (x rest : List Char) :
    (spanLength p x = x.length ∧ spanLength p (x ++ rest) = x.length + spanLength p rest) ∨
      (spanLength p x < x.length ∧ spanLength p (x ++ rest) = spanLength p x) := by
  have hle := spanLength_le p x
  unfold spanLength at *
  rw [List.takeWhile_append]
  split
  · next h => exact Or.inl ⟨h, by simp⟩
  · next h => exact Or.inr ⟨by omega, rfl⟩

/-! ### Numbers -/

/-- The length of a point and the digits behind it. -/
def fractionLength : List Char → Nat
  | '.' :: cs => 1 + spanLength Text.isDigit cs
  | _ => 0

theorem fractionLength_le (cs : List Char) : fractionLength cs ≤ cs.length := by
  unfold fractionLength
  split
  · next cs =>
    have := spanLength_le Text.isDigit cs
    rw [List.length_cons]
    omega
  · exact Nat.zero_le _

def signLength : List Char → Nat
  | c :: _ => if c = '+' ∨ c = '-' then 1 else 0
  | [] => 0

theorem signLength_le (cs : List Char) : signLength cs ≤ cs.length := by
  unfold signLength
  split
  · split <;> simp
  · exact Nat.zero_le _

theorem exponentLength_cons (e : Char) (cs : List Char) :
    exponentLength (e :: cs) =
      if e = 'e' ∨ e = 'E' then
        if spanLength Text.isDigit (cs.drop (signLength cs)) = 0 then 0
        else 1 + signLength cs + spanLength Text.isDigit (cs.drop (signLength cs))
      else 0 := by
  unfold exponentLength
  simp only [beq_iff_eq, Bool.or_eq_true]
  rfl

theorem exponentLength_le (cs : List Char) : exponentLength cs ≤ cs.length := by
  cases cs with
  | nil => exact Nat.zero_le _
  | cons e cs =>
    have hsign := signLength_le cs
    have hdigs := spanLength_le Text.isDigit (cs.drop (signLength cs))
    rw [List.length_drop] at hdigs
    rw [exponentLength_cons]
    split
    · split
      · exact Nat.zero_le _
      · rw [List.length_cons]
        omega
    · exact Nat.zero_le _

theorem numberLength_eq (cs : List Char) :
    numberLength cs = if spanLength Text.isDigit cs = 0 then 0
      else
        spanLength Text.isDigit cs + fractionLength (cs.drop (spanLength Text.isDigit cs)) +
          exponentLength (cs.drop (spanLength Text.isDigit cs +
            fractionLength (cs.drop (spanLength Text.isDigit cs)))) := by
  unfold numberLength
  simp only [beq_iff_eq]
  rfl

theorem isDigit_of_ascii (h : c.isDigit = true) : Text.isDigit c = true := by
  have hlt : c.toNat < 128 := by
    simp only [Char.isDigit, Bool.and_eq_true, decide_eq_true_eq] at h
    have hle := UInt32.le_iff_toNat_le.mp h.2
    change c.toNat ≤ 57 at hle
    omega
  simp [Text.isDigit, Text.digitValue?, hlt, h]

/-! ### What stands where no rule matches -/

theorem isWordChar_of_isWordStart (h : isWordStart c = true) : isWordChar c = true := by
  simp only [isWordStart, isWordChar, Bool.or_eq_true, Char.isAlphanum] at h ⊢
  exact h.imp_left Or.inl

namespace Stray

theorem not_isWordStart (h : Stray (c :: rest)) : isWordStart c = false := by
  have hword := h ⟨some .identifier, identifierLength⟩ (by simp [rules])
  rw [Bool.eq_false_iff]
  intro hc
  simp [identifierLength, wordAt, hc, isWordChar_of_isWordStart hc] at hword

theorem not_isDigit (h : Stray (c :: rest)) : Text.isDigit c = false := by
  have hnum := h ⟨some .number, numberLength⟩ (by simp [rules])
  rw [Bool.eq_false_iff]
  intro hc
  simp [numberLength, spanLength, hc] at hnum

theorem not_isBlank (h : Stray (c :: rest)) : Text.isBlank c = false := by
  have hblank := h ⟨none, spanLength Text.isBlank⟩ (by simp [rules])
  rw [Bool.eq_false_iff]
  intro hc
  simp [spanLength, hc] at hblank

theorem not_operator (h : Stray (c :: rest)) : c ∉ shortOperators := by
  have hone := h ⟨some .operator, oneLength shortOperators⟩ (by simp [rules])
  intro hc
  simp [oneLength, hc] at hone

/-- The digits of ASCII are digits, so a stray character is not even the inner part of a word. -/
theorem not_isWordChar (h : Stray (c :: rest)) : isWordChar c = false := by
  have hstart := h.not_isWordStart
  have hdigit : c.isDigit = false := by
    rw [Bool.eq_false_iff]
    intro hc
    exact absurd (isDigit_of_ascii hc) (by simp [h.not_isDigit])
  simp only [isWordStart, Bool.or_eq_false_iff] at hstart
  simp [isWordChar, Char.isAlphanum, hstart.1, hstart.2, hdigit]

end Stray

/-! ### Words and numbers in front of something else -/

/-- What follows belongs to no word, to no number and to no operator. -/
def Detached (rest : List Char) : Prop :=
  ∀ c ∈ rest.head?, isWordChar c = false ∧ Text.isDigit c = false ∧ c ∉ shortOperators

theorem Stray.detached (h : Stray rest) : Detached rest := by
  intro c hc
  obtain ⟨rest, rfl⟩ := List.head?_eq_some_iff.mp hc
  exact ⟨h.not_isWordChar, h.not_isDigit, h.not_operator⟩

theorem detached_lineFeed (cs : List Char) : Detached ('\n' :: cs) := by
  intro c hc
  cases hc
  decide

theorem Detached.ne_of_mem {d : Char} (h : Detached (c :: rest)) (hd : d ∈ shortOperators) :
    c ≠ d := by
  rintro rfl
  exact (h c rfl).2.2 hd

theorem wordAt_append (h : Detached rest) (a : Char) (x : List Char) :
    wordAt (a :: (x ++ rest)) = wordAt (a :: x) := by
  simp only [wordAt, ← List.cons_append, takeWhile_append_of_head fun c hc => (h c hc).1]

theorem keywordLength_append (h : Detached rest) (a : Char) (x : List Char) :
    keywordLength (a :: (x ++ rest)) = keywordLength (a :: x) := by
  simp only [keywordLength, wordAt_append h]

theorem identifierLength_append (h : Detached rest) (a : Char) (x : List Char) :
    identifierLength (a :: (x ++ rest)) = identifierLength (a :: x) := by
  simp only [identifierLength, wordAt_append h]

theorem spanLength_isDigit_append (h : Detached rest) (x : List Char) :
    spanLength Text.isDigit (x ++ rest) = spanLength Text.isDigit x :=
  spanLength_append fun c hc => (h c hc).2.1

theorem signLength_append (h : Detached rest) (x : List Char) :
    signLength (x ++ rest) = signLength x := by
  cases x with
  | nil =>
    cases rest with
    | nil => rfl
    | cons c rest =>
      simp [signLength, h.ne_of_mem (show '+' ∈ shortOperators by decide),
        h.ne_of_mem (show '-' ∈ shortOperators by decide)]
  | cons c x => rfl

/-- An exponent does not begin there, and once begun does not go on. -/
theorem exponentLength_append (h : Detached rest) (x : List Char) :
    exponentLength (x ++ rest) = exponentLength x := by
  cases x with
  | nil =>
    cases rest with
    | nil => rfl
    | cons c rest =>
      have hc : ¬ (c = 'e' ∨ c = 'E') := by
        rintro (rfl | rfl)
        · exact absurd (h _ rfl).1 (by decide)
        · exact absurd (h _ rfl).1 (by decide)
      rw [List.nil_append, exponentLength_cons, if_neg hc]
      rfl
  | cons e x =>
    rw [List.cons_append, exponentLength_cons, exponentLength_cons, signLength_append h,
      List.drop_append_of_le_length (signLength_le x), spanLength_isDigit_append h]

theorem fractionLength_append (h : Detached rest) (x : List Char) :
    fractionLength (x ++ rest) = fractionLength x := by
  cases x with
  | nil =>
    cases rest with
    | nil => rfl
    | cons c rest => simp [fractionLength, h.ne_of_mem (show '.' ∈ shortOperators by decide)]
  | cons c x =>
    by_cases hc : c = '.'
    · subst hc
      simp [fractionLength, spanLength_isDigit_append h]
    · simp [fractionLength, hc]

theorem numberLength_append (h : Detached rest) (x : List Char) :
    numberLength (x ++ rest) = numberLength x := by
  have hwhole := spanLength_le Text.isDigit x
  have hfrac := fractionLength_le (x.drop (spanLength Text.isDigit x))
  rw [List.length_drop] at hfrac
  rw [numberLength_eq, numberLength_eq, spanLength_isDigit_append h,
    List.drop_append_of_le_length hwhole, fractionLength_append h,
    List.drop_append_of_le_length (by omega), exponentLength_append h]

/-! ### Pieces that show their own end

Most pieces end with a sign of their own, or have a fixed length.  What follows such a piece has no
influence on it. -/

/-- What the rule finds depends on nothing behind it. -/
def Contained (length : List Char → Nat) : Prop :=
  ∀ cs, length cs ≠ 0 → ∃ text rest, cs = text ++ rest ∧ ∀ more, length (text ++ more) = text.length

namespace Contained

variable {length : List Char → Nat} {text : List Char}

theorem take (h : Contained length) (cs : List Char) (hcs : length cs ≠ 0) (rest : List Char) :
    length (cs.take (length cs) ++ rest) = length cs := by
  obtain ⟨text, behind, rfl, hlen⟩ := h cs hcs
  rw [hlen, List.take_left, hlen]

theorem le (h : Contained length) (cs : List Char) : length cs ≤ cs.length := by
  by_cases hcs : length cs = 0
  · omega
  · obtain ⟨text, behind, rfl, hlen⟩ := h cs hcs
    rw [hlen, List.length_append]
    omega

theorem length_append (h : Contained length) (htext : length text = text.length)
    (hpos : 0 < text.length) (rest : List Char) : length (text ++ rest) = text.length := by
  have hsame := h.take text (by omega) rest
  rwa [htext, List.take_length] at hsame

theorem length_eq (h : Contained length) (htext : length (text ++ rest) = text.length)
    (hpos : 0 < text.length) : length text = text.length := by
  have hsame := h.take (text ++ rest) (by omega) []
  rwa [htext, List.take_left, List.append_nil] at hsame

end Contained

theorem contained_pair (texts : List (Char × Char)) : Contained (pairLength texts) := by
  intro cs hcs
  match cs, hcs with
  | [], hcs => exact absurd rfl hcs
  | [_], hcs => exact absurd rfl hcs
  | a :: b :: cs, hcs =>
    by_cases hab : texts.contains (a, b) = true
    · exact ⟨[a, b], cs, rfl, fun _ => if_pos hab⟩
    · exact absurd (if_neg hab) hcs

theorem contained_one (chars : List Char) : Contained (oneLength chars) := by
  intro cs hcs
  match cs, hcs with
  | [], hcs => exact absurd rfl hcs
  | c :: cs, hcs =>
    by_cases hc : chars.contains c = true
    · exact ⟨[c], cs, rfl, fun _ => if_pos hc⟩
    · exact absurd (if_neg hc) hcs

theorem blockCommentLength?_append {body : List Char} (hbody : ¬['*', '/'] <:+: body)
    (rest : List Char) :
    blockCommentLength? (body ++ '*' :: '/' :: rest) = some (body.length + 2) := by
  induction body with
  | nil => rfl
  | cons c body ih =>
    have htail := ih fun hmem => hbody (List.infix_cons hmem)
    -- the two characters in front are no mark: the second of them is in the body, or a star
    have hfirst : ∀ ds, c = '*' → body ++ '*' :: '/' :: rest = '/' :: ds → False := by
      intro ds hc hds
      cases body with
      | nil => simp at hds
      | cons d body =>
        obtain ⟨rfl, -⟩ := List.cons.inj hds
        subst hc
        exact hbody ⟨[], body, rfl⟩
    rw [List.cons_append, blockCommentLength?, htail]
    · rfl
    · exact hfirst

/-- A block comment ends with the first mark behind it. -/
theorem blockCommentLength?_cases (h : blockCommentLength? cs = some n) :
    ∃ body rest, cs = body ++ '*' :: '/' :: rest ∧ n = body.length + 2 ∧ ¬['*', '/'] <:+: body := by
  fun_induction blockCommentLength? cs generalizing n with
  | case1 => cases h
  | case2 cs => cases h; exact ⟨[], cs, rfl, rfl, by simp⟩
  | case3 c cs hno ih =>
    obtain ⟨m, hm, rfl⟩ := Option.map_eq_some_iff.mp h
    obtain ⟨body, rest, rfl, rfl, hbody⟩ := ih hm
    refine ⟨c :: body, rest, rfl, by simp, fun hmem => ?_⟩
    rcases List.infix_cons_iff.mp hmem with ⟨tail, htail⟩ | hmem
    · cases htail
      exact hno _ rfl rfl
    · exact hbody hmem

theorem blockCommentLength?_take (h : blockCommentLength? cs = some n) (rest : List Char) :
    blockCommentLength? (cs.take n ++ rest) = some n := by
  obtain ⟨body, tail, rfl, rfl, hbody⟩ := blockCommentLength?_cases h
  rw [List.take_length_add_append, List.append_assoc]
  exact blockCommentLength?_append hbody rest

theorem stringRestLength?_cases (h : stringRestLength? cs = some n) :
    ∃ text rest, cs = text ++ rest ∧ n = text.length ∧ ∀ more,
    stringRestLength? (text ++ more) = some n := by
  fun_induction stringRestLength? cs generalizing n with
  | case1 | case3 | case4 | case5 => cases h
  | case2 c cs hquote =>
    cases h
    refine ⟨[c], cs, rfl, rfl, fun more => ?_⟩
    unfold stringRestLength?
    simp [hquote]
  | case6 c hquote hline hslash d cs hd ih =>
    obtain ⟨m, hm, rfl⟩ := Option.map_eq_some_iff.mp h
    obtain ⟨text, rest, rfl, rfl, hmore⟩ := ih hm
    refine ⟨c :: d :: text, rest, rfl, rfl, fun more => ?_⟩
    simp [stringRestLength?, hquote, hline, hslash, hd, hmore]
  | case7 c cs hquote hline hslash ih =>
    obtain ⟨m, hm, rfl⟩ := Option.map_eq_some_iff.mp h
    obtain ⟨text, rest, rfl, rfl, hmore⟩ := ih hm
    refine ⟨c :: text, rest, rfl, rfl, fun more => ?_⟩
    rw [List.cons_append, stringRestLength?.eq_def]
    simp [hquote, hline, hslash, hmore]

theorem contained_string : Contained stringLength := by
  intro cs hcs
  unfold stringLength at hcs
  split at hcs
  · next cs =>
    cases hrest : stringRestLength? cs with
    | none => simp [hrest] at hcs
    | some n =>
      obtain ⟨text, rest, rfl, rfl, hmore⟩ := stringRestLength?_cases hrest
      exact ⟨'"' :: text, rest, rfl, fun more => by simp [stringLength, hmore]⟩
  · exact absurd rfl hcs

/-- A character literal is an escape or a character between quotes. -/
theorem charLength_cases (h : charLength cs ≠ 0) :
    (∃ c rest, cs = '\'' :: '\\' :: c :: '\'' :: rest ∧ c ≠ '\n') ∨
      ∃ c rest, cs = '\'' :: c :: '\'' :: rest ∧ c ≠ '\'' ∧ c ≠ '\\' ∧ c ≠ '\n' := by
  unfold charLength at h
  split at h
  · next c rest => exact Or.inl ⟨c, rest, rfl, by rintro rfl; exact h rfl⟩
  · next c rest _ =>
    refine Or.inr ⟨c, rest, rfl, ?_, ?_, ?_⟩
    · rintro rfl; exact h rfl
    · rintro rfl; exact h rfl
    · rintro rfl; exact h rfl
  · exact absurd rfl h

theorem contained_char : Contained charLength := by
  intro cs hcs
  rcases charLength_cases hcs with ⟨c, tail, rfl, hc⟩ | ⟨c, tail, rfl, hq, hb, hn⟩
  · exact ⟨['\'', '\\', c, '\''], tail, rfl, fun _ => by simp [charLength, hc]⟩
  · exact ⟨['\'', c, '\''], tail, rfl, fun _ => by simp [charLength, hq, hb, hn]⟩

theorem headerLength_append (hname : name ≠ [])
    (hchars : ∀ c ∈ name, c ≠ close ∧ c ≠ '\n') (rest : List Char) :
    headerLength close (name ++ close :: rest) = name.length + 1 := by
  have hspan : spanLength (fun c => c != close && c != '\n') (name ++ close :: rest) =
      name.length := by
    rw [spanLength, List.takeWhile_append_of_pos]
    · simp
    · intro c hc
      simpa using hchars c hc
  simp [headerLength, hspan, hname]

theorem headerLength_cases (h : headerLength close cs ≠ 0) :
    ∃ name rest, cs = name ++ close :: rest ∧ name ≠ [] ∧ ∀ c ∈ name, c ≠ close ∧ c ≠ '\n' := by
  let isInside : Char → Bool := fun c => c != close && c != '\n'
  unfold headerLength at h
  dsimp only at h
  split at h
  · exact absurd rfl h
  · next hspan =>
    split at h
    · next hclose =>
      have hcs : cs.takeWhile isInside ++ cs.dropWhile isInside = cs :=
        List.takeWhile_append_dropWhile
      rw [beq_iff_eq, ← List.head?_drop, drop_spanLength] at hclose
      obtain ⟨rest, hrest⟩ := List.head?_eq_some_iff.mp hclose
      refine ⟨cs.takeWhile isInside, rest, ?_, ?_, ?_⟩
      · rw [← hrest]
        exact hcs.symm
      · intro hnil
        exact hspan (beq_iff_eq.mpr (congrArg List.length hnil))
      · intro c hc
        have hinside : isInside c = true := List.all_eq_true.mp List.all_takeWhile c hc
        simpa [isInside] using hinside
    · exact absurd rfl h

/-- The length of a header with its signs, but without the first of them. -/
def quotedHeaderLength : List Char → Nat
  | '<' :: cs => headerLength '>' cs
  | '"' :: cs => headerLength '"' cs
  | _ => 0

theorem directiveLength_append (cs : List Char) :
    directiveLength ("#include".toList ++ cs) =
      if quotedHeaderLength (cs.drop (spanLength Text.isBlank cs)) = 0 then 0
      else 9 + spanLength Text.isBlank cs +
        quotedHeaderLength (cs.drop (spanLength Text.isBlank cs)) := by
  have hprefix : "#include".toList.isPrefixOf ("#include".toList ++ cs) = true := by simp
  have hdrop : ∀ n, ("#include".toList ++ cs).drop (8 + n) = cs.drop n := by
    intro n
    rw [← List.drop_drop]
    rfl
  have hblanks : ("#include".toList ++ cs).drop 8 = cs := hdrop 0
  simp only [directiveLength, hprefix, if_true, hblanks, hdrop, beq_iff_eq]
  change (if quotedHeaderLength _ = 0 then 0 else _ + quotedHeaderLength _) = _
  split
  · rfl
  · omega

/-- A directive is the word, blanks, and a header between its signs. -/
theorem directiveLength_cases (h : directiveLength cs ≠ 0) :
    ∃ blanks opening close name rest,
      cs = "#include".toList ++ (blanks ++ (opening :: (name ++ close :: rest))) ∧
      (∀ c ∈ blanks, Text.isBlank c = true) ∧ (opening, close) ∈ [('<', '>'), ('"', '"')] ∧
      name ≠ [] ∧ ∀ c ∈ name, c ≠ close ∧ c ≠ '\n' := by
  have hprefix : "#include".toList.isPrefixOf cs = true := by
    unfold directiveLength at h
    split at h
    · assumption
    · exact absurd rfl h
  obtain ⟨cs, rfl⟩ := List.isPrefixOf_iff_prefix.mp hprefix
  have hheader : quotedHeaderLength (cs.dropWhile Text.isBlank) ≠ 0 := by
    intro hzero
    rw [directiveLength_append, drop_spanLength, if_pos hzero] at h
    exact h rfl
  have hcs : cs.takeWhile Text.isBlank ++ cs.dropWhile Text.isBlank = cs :=
    List.takeWhile_append_dropWhile
  have hblanks : ∀ c ∈ cs.takeWhile Text.isBlank, Text.isBlank c = true :=
    List.all_eq_true.mp List.all_takeWhile
  generalize cs.takeWhile Text.isBlank = blanks at hcs hblanks
  generalize cs.dropWhile Text.isBlank = tail at hcs hheader
  subst hcs
  unfold quotedHeaderLength at hheader
  split at hheader
  · obtain ⟨name, rest, rfl, hname, hchars⟩ := headerLength_cases hheader
    exact ⟨blanks, '<', '>', name, rest, rfl, hblanks, by simp, hname, hchars⟩
  · obtain ⟨name, rest, rfl, hname, hchars⟩ := headerLength_cases hheader
    exact ⟨blanks, '"', '"', name, rest, rfl, hblanks, by simp, hname, hchars⟩
  · exact absurd rfl hheader

theorem directiveLength_eq {blanks : List Char} {opening : Char}
    (hblanks : ∀ c ∈ blanks, Text.isBlank c = true)
    (hsigns : (opening, close) ∈ [('<', '>'), ('"', '"')]) (hname : name ≠ [])
    (hchars : ∀ c ∈ name, c ≠ close ∧ c ≠ '\n') (rest : List Char) :
    directiveLength ("#include".toList ++ (blanks ++ (opening :: (name ++ close :: rest)))) =
      10 + blanks.length + name.length := by
  have hopening : Text.isBlank opening = false := by
    simp only [List.mem_cons, Prod.mk.injEq, List.not_mem_nil, or_false] at hsigns
    rcases hsigns with ⟨rfl, -⟩ | ⟨rfl, -⟩
    · decide
    · decide
  have hspan : spanLength Text.isBlank (blanks ++ (opening :: (name ++ close :: rest))) =
      blanks.length := by
    rw [spanLength, List.takeWhile_append_of_pos hblanks]
    simp [hopening]
  have hheader : quotedHeaderLength (opening :: (name ++ close :: rest)) = name.length + 1 := by
    simp only [List.mem_cons, Prod.mk.injEq, List.not_mem_nil, or_false] at hsigns
    rcases hsigns with ⟨rfl, rfl⟩ | ⟨rfl, rfl⟩
    · exact headerLength_append hname hchars rest
    · exact headerLength_append hname hchars rest
  rw [directiveLength_append, hspan, List.drop_left, hheader, if_neg (by omega)]
  omega

theorem contained_directive : Contained directiveLength := by
  intro cs hcs
  obtain ⟨blanks, opening, close, name, tail, rfl, hblanks, hsigns, hname, hchars⟩ :=
    directiveLength_cases hcs
  refine ⟨"#include".toList ++ (blanks ++ (opening :: (name ++ [close]))), tail, by simp,
    fun more => ?_⟩
  have hlen := directiveLength_eq hblanks hsigns hname hchars more
  simp only [List.append_assoc, List.cons_append, List.nil_append, hlen, List.length_append,
    List.length_cons, List.length_nil]
  simp
  omega

/-! ### Cutting a text where no rule matches

A rule that finds a piece in front of the cut, or nothing, finds the same in the text in front of
the cut alone.  For pieces that show their own end this holds at any cut.  The other pieces are runs
of characters, and a run ends at the cut because a stray character belongs to no run. -/

/-- A rule finds the same in front of a cut, if what it finds ends there. -/
def Truncates (length : List Char → Nat) (rest : List Char) : Prop :=
  ∀ a x, length (a :: (x ++ rest)) ≤ x.length + 1 → length (a :: x) = length (a :: (x ++ rest))

theorem Contained.truncates {length : List Char → Nat} (h : Contained length)
    (rest : List Char) : Truncates length rest := by
  intro a x hx
  by_cases hcut : length (a :: x) = 0
  · by_cases hfull : length (a :: (x ++ rest)) = 0
    · rw [hcut, hfull]
    · have htake : (a :: (x ++ rest)).take (length (a :: (x ++ rest))) =
          (a :: x).take (length (a :: (x ++ rest))) := by
        rw [← List.cons_append, List.take_append_of_le_length (by simpa using hx)]
      have hsame := h.take _ hfull ((a :: x).drop (length (a :: (x ++ rest))))
      rwa [htake, List.take_append_drop] at hsame
  · have hsame := h.take _ hcut ((a :: x).drop (length (a :: x)) ++ rest)
    rw [← List.append_assoc, List.take_append_drop, List.cons_append] at hsame
    exact hsame.symm

theorem blockCommentLength?_truncate (h : ∀ n, blockCommentLength? (x ++ rest) = some n →
    n ≤ x.length) :
    blockCommentLength? x = blockCommentLength? (x ++ rest) := by
  cases hcut : blockCommentLength? x with
  | some n =>
    have hsame := blockCommentLength?_take hcut (x.drop n ++ rest)
    rw [← List.append_assoc, List.take_append_drop] at hsame
    exact hsame.symm
  | none =>
    cases hfull : blockCommentLength? (x ++ rest) with
    | none => rfl
    | some n =>
      have hsame := blockCommentLength?_take hfull (x.drop n)
      rw [List.take_append_of_le_length (h n hfull), List.take_append_drop, hcut] at hsame
      exact hsame

theorem commentLength_eq_zero {a b : Char} (h : ¬ (a = '/' ∧ (b = '/' ∨ b = '*'))) :
    commentLength (a :: b :: cs) = 0 := by
  unfold commentLength
  split
  · next heq => cases heq; exact absurd ⟨rfl, Or.inl rfl⟩ h
  · next heq => cases heq; exact absurd ⟨rfl, Or.inr rfl⟩ h
  · rfl

theorem truncates_comment (h : Stray rest) : Truncates commentLength rest := by
  intro a x hx
  cases x with
  | nil =>
    cases rest with
    | nil => rfl
    | cons c rest =>
      have hc := h.not_operator
      rw [List.nil_append, commentLength_eq_zero]
      · simp [commentLength]
      · rintro ⟨-, rfl | rfl⟩
        · exact hc (by decide)
        · exact hc (by decide)
  | cons b x =>
    rw [List.cons_append] at hx ⊢
    by_cases hab : a = '/' ∧ (b = '/' ∨ b = '*')
    · obtain ⟨rfl, rfl | rfl⟩ := hab
      · -- a line comment in front of the cut ends at a line feed, and no line feed is stray
        simp only [commentLength, List.length_cons] at hx ⊢
        rcases spanLength_append_cases (· != '\n') x rest with ⟨-, happ⟩ | ⟨-, happ⟩
        · cases rest with
          | nil => simp
          | cons c rest =>
            have hc : c ≠ '\n' := by
              rintro rfl
              exact absurd h.not_isBlank (by decide)
            have hpos : 0 < spanLength (· != '\n') (c :: rest) := by simp [spanLength, hc]
            omega
        · rw [happ]
      · simp only [commentLength, List.length_cons] at hx ⊢
        rw [blockCommentLength?_truncate]
        intro n hn
        rw [hn] at hx
        simp only [Option.map_some, Option.getD_some] at hx
        omega
    · rw [commentLength_eq_zero hab, commentLength_eq_zero hab]

theorem truncates_blank (h : Stray rest) : Truncates (spanLength Text.isBlank) rest := by
  have hhead : ∀ c ∈ rest.head?, Text.isBlank c = false := by
    intro c hc
    obtain ⟨rest, rfl⟩ := List.head?_eq_some_iff.mp hc
    exact h.not_isBlank
  intro a x _
  rw [← List.cons_append, spanLength_append hhead]

theorem truncates_of_mem_rules (h : Stray rest) (hrule : rule ∈ rules) :
    Truncates rule.length rest := by
  simp only [rules, List.mem_cons, List.not_mem_nil, or_false] at hrule
  rcases hrule with rfl | rfl | rfl | rfl | rfl | rfl | rfl | rfl | rfl | rfl | rfl | rfl | rfl
  · exact truncates_comment h
  · exact contained_directive.truncates rest
  · exact (contained_pair _).truncates rest
  · exact (contained_pair _).truncates rest
  · exact fun a x _ => (keywordLength_append h.detached a x).symm
  · exact fun a x _ => (identifierLength_append h.detached a x).symm
  · exact fun a x _ => (numberLength_append h.detached (a :: x)).symm
  · exact contained_char.truncates rest
  · exact contained_string.truncates rest
  · exact (contained_pair _).truncates rest
  · exact (contained_one _).truncates rest
  · exact (contained_one _).truncates rest
  · exact truncates_blank h

/-- **Cutting a text where no rule matches** leaves a piece in front of the cut as it is. -/
theorem Found.truncate (hrest : Stray rest) (h : Found (x ++ rest) kind n) (hn : n ≤ x.length) :
    Found x kind n := by
  obtain ⟨before, rule, after, hrules, hbefore, hkind, hlen, hpos⟩ := h
  cases x with
  | nil => exact absurd (Nat.lt_of_lt_of_le hpos hn) (Nat.lt_irrefl 0)
  | cons a x =>
    have htruncates : ∀ r ∈ rules, r.length (a :: (x ++ rest)) ≤ x.length + 1 →
        r.length (a :: x) = r.length (a :: (x ++ rest)) :=
      fun r hr => truncates_of_mem_rules hrest hr a x
    rw [List.cons_append] at hbefore hlen
    refine ⟨before, rule, after, hrules, ?_, hkind, ?_, hpos⟩
    · intro r hr
      have hzero := hbefore r hr
      rw [htruncates r (by simp [hrules, hr]) (by omega), hzero]
    · rw [htruncates rule (by simp [hrules]) (by simpa [hlen] using hn), hlen]

/-! ### The length of a piece -/

theorem commentLength_le (cs : List Char) : commentLength cs ≤ cs.length := by
  unfold commentLength
  split
  · next cs =>
    have := spanLength_le (· != '\n') cs
    simp only [List.length_cons]
    omega
  · next cs =>
    cases hblock : blockCommentLength? cs with
    | none => simp
    | some n =>
      obtain ⟨body, rest, rfl, rfl, -⟩ := blockCommentLength?_cases hblock
      simp only [Option.map_some, Option.getD_some, List.length_cons, List.length_append]
      omega
  · exact Nat.zero_le _

theorem wordAt_length_le (cs : List Char) : (wordAt cs).length ≤ cs.length := by
  unfold wordAt
  split
  · exact Nat.zero_le _
  · next c cs =>
    split
    · exact spanLength_le isWordChar (c :: cs)
    · exact Nat.zero_le _

theorem keywordLength_le (cs : List Char) : keywordLength cs ≤ cs.length := by
  unfold keywordLength
  dsimp only
  split
  · exact wordAt_length_le cs
  · exact Nat.zero_le _

theorem numberLength_le (cs : List Char) : numberLength cs ≤ cs.length := by
  have hwhole := spanLength_le Text.isDigit cs
  have hfrac := fractionLength_le (cs.drop (spanLength Text.isDigit cs))
  have hexp := exponentLength_le (cs.drop (spanLength Text.isDigit cs +
    fractionLength (cs.drop (spanLength Text.isDigit cs))))
  rw [numberLength_eq]
  simp only [List.length_drop] at hfrac hexp
  split
  · exact Nat.zero_le _
  · omega

theorem length_le_of_mem_rules (hrule : rule ∈ rules) (cs : List Char) :
    rule.length cs ≤ cs.length := by
  simp only [rules, List.mem_cons, List.not_mem_nil, or_false] at hrule
  rcases hrule with rfl | rfl | rfl | rfl | rfl | rfl | rfl | rfl | rfl | rfl | rfl | rfl | rfl
  · exact commentLength_le cs
  · exact contained_directive.le cs
  · exact (contained_pair _).le cs
  · exact (contained_pair _).le cs
  · exact keywordLength_le cs
  · exact wordAt_length_le cs
  · exact numberLength_le cs
  · exact contained_char.le cs
  · exact contained_string.le cs
  · exact (contained_pair _).le cs
  · exact (contained_one _).le cs
  · exact (contained_one _).le cs
  · exact spanLength_le _ cs

theorem Found.le_length (h : Found cs kind n) : n ≤ cs.length := by
  obtain ⟨before, rule, after, hrules, -, -, rfl, -⟩ := h
  exact length_le_of_mem_rules (by simp [hrules]) cs

/-! ### Dropped pieces -/

/-- White space, a comment up to the end of its line, or a comment between its marks. -/
def Trivia (cs : List Char) : Prop :=
  (∀ c ∈ cs, Text.isBlank c = true) ∨ (∃ body, cs = '/' :: '/' :: body ∧ '\n' ∉ body) ∨
    ∃ body, cs = '/' :: '*' :: (body ++ ['*', '/'])

theorem trivia_comment (h : commentLength cs ≠ 0) : Trivia (cs.take (commentLength cs)) := by
  unfold commentLength at h ⊢
  split at h
  · next cs =>
    refine Or.inr (Or.inl ⟨cs.takeWhile (· != '\n'), ?_, ?_⟩)
    · simp only [Nat.add_comm 2, List.take_succ_cons, take_spanLength]
    · intro hmem
      exact absurd (List.all_eq_true.mp List.all_takeWhile _ hmem) (by decide)
  · next cs =>
    cases hblock : blockCommentLength? cs with
    | none => simp [hblock] at h
    | some n =>
      obtain ⟨body, rest, rfl, rfl, -⟩ := blockCommentLength?_cases hblock
      refine Or.inr (Or.inr ⟨body, ?_⟩)
      simp only [Option.map_some, Option.getD_some, Nat.add_comm 2, List.take_succ_cons]
      rw [List.take_length_add_append]
      rfl
  · exact absurd rfl h

theorem Found.trivia (h : Found cs none n) : Trivia (cs.take n) := by
  obtain ⟨before, rule, after, hrules, -, hkind, rfl, hpos⟩ := h
  have hdropped : ∀ r ∈ rules, r.kind = none →
      r.length = commentLength ∨ r.length = spanLength Text.isBlank := by
    simp [rules]
  rcases hdropped rule (by simp [hrules]) hkind with hrule | hrule
  · rw [hrule] at hpos ⊢
    exact trivia_comment (Nat.pos_iff_ne_zero.mp hpos)
  · rw [hrule, take_spanLength]
    exact Or.inl (List.all_eq_true.mp List.all_takeWhile)

end SmallCpp.Lexical
