import Mathlib.Data.List.Forall2
import SmallCpp.Proofs.Token.Tiling

/-!
# Lexemes

What a grammar sees of a token is its class and its text: a lexeme.  `Lexes cs ls rest` says that
the text `cs` begins with the lexemes `ls`, with blanks and comments between them, and goes on with
`rest`.  Like tilings, such judgments can be put together, so a printed text is split into lexemes
part by part; what has to be seen is only that no part runs into the next one. -/

namespace SmallCpp

variable {behind chars cs rest text w : List Char} {texts : List (Char × Char)} {c : Char}
  {kind : TokenKind} {pieces : List Piece} {source : Source} {tokens : List Token} {i : Nat}

/-- What a grammar sees of a token. -/
structure Lexeme where
  kind : TokenKind
  text : String
deriving DecidableEq, Repr, Inhabited

def Token.lexeme (t : Token) : Lexeme :=
  ⟨t.kind, t.text⟩

namespace Lexical

/-- The lexeme of a piece, unless it is dropped. -/
def Piece.lexeme? (piece : Piece) : Option Lexeme :=
  piece.kind.map fun kind => ⟨kind, String.ofList piece.chars⟩

/-- The text up to `rest` has the given lexemes. -/
def Lexes (cs : List Char) (ls : List Lexeme) (rest : List Char) : Prop :=
  ∃ pieces, Tiling rest cs pieces ∧ pieces.filterMap Piece.lexeme? = ls

namespace Lexes

variable {mid : List Char} {ls ms : List Lexeme}

theorem refl (cs : List Char) : Lexes cs [] cs :=
  ⟨[], .done, rfl⟩

theorem append (h : Lexes cs ls mid) (h' : Lexes mid ms rest) : Lexes cs (ls ++ ms) rest := by
  obtain ⟨pieces, htiling, rfl⟩ := h
  obtain ⟨others, htiling', rfl⟩ := h'
  exact ⟨pieces ++ others, htiling.append htiling', List.filterMap_append⟩

theorem one (h : Found (chars ++ rest) (some kind) chars.length) :
    Lexes (chars ++ rest) [⟨kind, String.ofList chars⟩] rest :=
  ⟨[⟨some kind, chars⟩], .piece h .done, rfl⟩

theorem dropped (h : Found (chars ++ rest) none chars.length) : Lexes (chars ++ rest) [] rest :=
  ⟨[⟨none, chars⟩], .piece h .done, rfl⟩

end Lexes

/-- A condition on the members of a list is decided by going through the list. -/
theorem forall_mem_of_all {α : Type} {l : List α} {p : α → Prop} [DecidablePred p]
    (h : l.all (fun a => decide (p a)) = true) : ∀ a ∈ l, p a := by
  simpa using h

/-- A character of a class is none of those that are seen not to be in it. -/
theorem not_mem_of_all {l : List Char} {p : Char → Bool} (h : l.all (fun a => !p a) = true)
    (hc : p c = true) :
    c ∉ l := by
  intro hmem
  simpa [hc] using List.all_eq_true.mp h c hmem

/-! ### Rules that do not apply

Most rules are ruled out by the first character. -/

theorem commentLength_of_ne (h : c ≠ '/') : commentLength (c :: cs) = 0 := by
  unfold commentLength
  split
  · next heq => cases heq; exact absurd rfl h
  · next heq => cases heq; exact absurd rfl h
  · rfl

theorem directiveLength_of_ne (h : c ≠ '#') : directiveLength (c :: cs) = 0 := by
  have hprefix : "#include".toList.isPrefixOf (c :: cs) = false := by
    simp [List.isPrefixOf, Ne.symm h]
  simp only [directiveLength, hprefix, Bool.false_eq_true, if_false]

theorem pairLength_of_first (h : c ∉ texts.map Prod.fst) : pairLength texts (c :: cs) = 0 := by
  cases cs with
  | nil => rfl
  | cons d cs =>
    refine if_neg ?_
    rw [List.contains_iff_mem]
    exact fun hmem => h (List.mem_map_of_mem hmem)

theorem pairLength_of_not_mem (h : ∀ d ∈ cs.head?, (c, d) ∉ texts) :
    pairLength texts (c :: cs) = 0 := by
  cases cs with
  | nil => rfl
  | cons d cs =>
    refine if_neg ?_
    rw [List.contains_iff_mem]
    exact h d rfl

theorem wordAt_of_not_isWordStart (h : isWordStart c = false) : wordAt (c :: cs) = [] := by
  simp [wordAt, h]

theorem charLength_of_ne (h : c ≠ '\'') : charLength (c :: cs) = 0 := by
  by_cases hzero : charLength (c :: cs) = 0
  · exact hzero
  · rcases charLength_cases hzero with ⟨_, _, heq, -⟩ | ⟨_, _, heq, -⟩
    · cases heq; exact absurd rfl h
    · cases heq; exact absurd rfl h

theorem stringLength_of_ne (h : c ≠ '"') : stringLength (c :: cs) = 0 := by
  unfold stringLength
  split
  · next heq => cases heq; exact absurd rfl h
  · rfl

/-- The characters with which the rules begin, rule by rule. -/
def starts : List (Char → Bool) :=
  [(· == '/'), (· == '#'), ['<', '>'].contains, (longOperators.map Prod.fst).contains, isWordStart,
    isWordStart,
    Text.isDigit, (· == '\''), (· == '"'), (· == ':'), shortOperators.contains, delimiters.contains,
    Text.isBlank]

theorem length_of_not_start :
    List.Forall₂ (fun rule p => ∀ c cs, p c = false → rule.length (c :: cs) = 0) rules starts := by
  have hpair : ∀ (texts : List (Char × Char)) c cs, (texts.map Prod.fst).contains c = false →
      pairLength texts (c :: cs) = 0 := fun _ _ _ h =>
    pairLength_of_first fun hmem => by simp [hmem] at h
  simp only [rules, starts, List.forall₂_cons, List.Forall₂.nil, and_true]
  exact ⟨fun _ _ h => commentLength_of_ne (by simpa using h), fun _ _ h => directiveLength_of_ne
    (by simpa using h),
    hpair [('<', '<'), ('>', '>')], hpair _, fun _ _ h => by
    simp [keywordLength, wordAt_of_not_isWordStart h],
    fun _ _ h => by simp [identifierLength, wordAt_of_not_isWordStart h],
    fun _ _ h => by simp [numberLength, spanLength, h], fun _ _ h =>
    charLength_of_ne (by simpa using h),
    fun _ _ h => stringLength_of_ne (by simpa using h), fun c cs h =>
    hpair _ c cs (by simpa using h),
    fun _ _ h => by rw [oneLength, h]; rfl, fun _ _ h => by rw [oneLength, h]; rfl,
    fun _ _ h => by simp [spanLength, h]⟩

/-- Rules that begin with other characters find nothing. -/
theorem length_of_starts {n : Nat} (h : ∀ p ∈ (starts.drop i).take n, p c = false) :
    ∀ rule ∈ (rules.drop i).take n, rule.length (c :: cs) = 0 := by
  have hrules := List.forall₂_take n (List.forall₂_drop i length_of_not_start)
  generalize (rules.drop i).take n = rules, (starts.drop i).take n = starts at hrules h ⊢
  induction hrules with
  | nil => simp
  | cons hrule _ ih =>
    rw [List.forall_mem_cons] at h ⊢
    exact ⟨hrule c cs h.1, ih h.2⟩

/-- The first four rules need a sign of their own in front. -/
theorem starts_of_not_mem (h : c ∉ '#' :: shortOperators) : ∀ p ∈ starts.take 4, p c = false := by
  simp [shortOperators] at h
  simp [starts, longOperators, h]

/-! ### Signs -/

section Signs

variable {a b : Char}

theorem lexes_delimiter (hc : c ∈ ['[', ']', '(', ')', '\x7b', '\x7d', ';', ','])
    (rest : List Char) : Lexes (c :: rest) [⟨.delimiter, String.ofList [c]⟩] rest := by
  have hmatch : firstMatch? ([c] ++ rest) = some (some .delimiter, 1) := by
    simp only [List.mem_cons, List.not_mem_nil, or_false] at hc
    rcases hc with rfl | rfl | rfl | rfl | rfl | rfl | rfl | rfl <;> cases rest <;> rfl
  exact Lexes.one (firstMatch?_eq_some_iff.mp hmatch)

theorem lexes_scope (rest : List Char) : Lexes (':' :: ':' :: rest) [⟨.scope, "::"⟩] rest := by
  have hmatch : firstMatch? ([':', ':'] ++ rest) = some (some .scope, 2) := rfl
  exact Lexes.one (firstMatch?_eq_some_iff.mp hmatch)

theorem lexes_stream (h : c = '<' ∨ c = '>') (rest : List Char) :
    Lexes (c :: c :: rest) [⟨.stream, String.ofList [c, c]⟩] rest := by
  have hmatch : firstMatch? ([c, c] ++ rest) = some (some .stream, 2) := by
    rcases h with rfl | rfl
    · rfl
    · rfl
  exact Lexes.one (firstMatch?_eq_some_iff.mp hmatch)

theorem lexes_longOperator (h : (a, b) ∈ longOperators) (rest : List Char) :
    Lexes (a :: b :: rest) [⟨.operator, String.ofList [a, b]⟩] rest := by
  have hmatch : ∀ p ∈ longOperators, firstMatch? ([p.1, p.2] ++ rest) =
      some (some .operator, 2) := by
    simp only [longOperators, List.forall_mem_cons]
    refine ⟨rfl, rfl, rfl, rfl, rfl, rfl, rfl, rfl, rfl, rfl, rfl, rfl, rfl, rfl, ?_⟩
    simp
  exact Lexes.one (firstMatch?_eq_some_iff.mp (hmatch (a, b) h))

/-- The two characters do not belong together: they begin no longer sign and no comment. -/
def Apart (a b : Char) : Prop :=
  (a, b) ∉ ('<', '<') :: ('>', '>') :: longOperators ∧ ¬ (a = '/' ∧ (b = '/' ∨ b = '*'))

instance (a b : Char) : Decidable (Apart a b) :=
  inferInstanceAs (Decidable (_ ∧ _))

theorem apart_of_not_mem (h : b ∉ shortOperators) : Apart a b := by
  have hsecond : ∀ p ∈ ('<', '<') :: ('>', '>') :: longOperators, p.2 ∈ shortOperators := by decide
  refine ⟨fun hmem => h (hsecond _ hmem), ?_⟩
  rintro ⟨-, rfl | rfl⟩
  · exact h (by decide)
  · exact h (by decide)

theorem found_shortOperator (ha : a ∈ shortOperators) (hcomm : commentLength (a :: rest) = 0)
    (hpair : ∀ b ∈ rest.head?, (a, b) ∉ ('<', '<') :: ('>', '>') :: longOperators) :
    Found (a :: rest) (some .operator) 1 := by
  have hhash : ∀ a ∈ shortOperators, a ≠ '#' := forall_mem_of_all (by decide)
  have hstarts : ∀ a ∈ shortOperators, ∀ p ∈ (starts.drop 4).take 6, p a = false :=
    forall_mem_of_all (by decide)
  have hstr : pairLength [('<', '<'), ('>', '>')] (a :: rest) = 0 :=
    pairLength_of_not_mem fun b hb hmem => hpair b hb (List.mem_append_left longOperators hmem)
  have hlong : pairLength longOperators (a :: rest) = 0 :=
    pairLength_of_not_mem fun b hb hmem =>
    hpair b hb (List.mem_append_right [('<', '<'), ('>', '>')] hmem)
  refine ⟨rules.take 10, ⟨some .operator, oneLength shortOperators⟩, rules.drop 11, rfl,
    fun rule hrule => ?_, rfl,
    by simp [oneLength, ha], Nat.one_pos⟩
  rcases List.mem_append.mp (show rule ∈ rules.take 4 ++ (rules.drop 4).take 6 from hrule)
    with hmem | hmem
  · simp only [rules, List.take_succ_cons, List.take_zero, List.mem_cons, List.not_mem_nil,
      or_false] at hmem
    rcases hmem with rfl | rfl | rfl | rfl
    · exact hcomm
    · exact directiveLength_of_ne (hhash a ha)
    · exact hstr
    · exact hlong
  · exact length_of_starts (hstarts a ha) rule hmem

/-- An operator of one character ends where it is not part of a longer one. -/
theorem lexes_shortOperator (ha : a ∈ shortOperators) (hrest : ∀ c ∈ rest.head?, Apart a c) :
    Lexes (a :: rest) [⟨.operator, String.ofList [a]⟩] rest := by
  have hcomm : commentLength (a :: rest) = 0 := by
    cases rest with
    | nil => simp [commentLength]
    | cons d rest => exact commentLength_eq_zero (hrest d rfl).2
  have hfound : Found ([a] ++ rest) (some .operator) 1 :=
    found_shortOperator ha hcomm fun b hb => (hrest b hb).1
  exact Lexes.one hfound

end Signs

/-! ### Words and numerals -/

/-- A word: a letter or an underscore, and letters, digits and underscores behind it. -/
def IsWord (w : List Char) : Prop :=
  w ≠ [] ∧ (∀ c ∈ w.head?, isWordStart c = true) ∧ ∀ c ∈ w, isWordChar c = true

instance (w : List Char) : Decidable (IsWord w) :=
  decidable_of_iff (w ≠ [] ∧ w.head?.all isWordStart = true ∧ w.all isWordChar = true)
    (by cases w <;> simp [IsWord])

def wordKind (w : String) : TokenKind :=
  if w ∈ keywords then .keyword else .identifier

theorem wordAt_isPrefix (cs : List Char) : wordAt cs <+: cs := by
  unfold wordAt
  split
  · exact List.nil_prefix
  · split
    · exact List.takeWhile_prefix _
    · exact List.nil_prefix

theorem isWord_wordAt (h : wordAt cs ≠ []) : IsWord (wordAt cs) := by
  cases cs with
  | nil => exact absurd rfl h
  | cons c cs =>
    cases hc : isWordStart c with
    | false => exact absurd (wordAt_of_not_isWordStart hc) h
    | true =>
      refine ⟨h, ?_, ?_⟩
      · simp [wordAt, hc, isWordChar_of_isWordStart hc]
      · simp only [wordAt, hc, if_true]
        exact List.all_eq_true.mp List.all_takeWhile

theorem wordAt_append_of_isWord (hw : IsWord w) (hrest : ∀ c ∈ rest.head?, isWordChar c = false) :
    wordAt (w ++ rest) = w := by
  obtain ⟨hne, hhead, hchars⟩ := hw
  cases w with
  | nil => exact absurd rfl hne
  | cons c w =>
    have hend : rest.takeWhile isWordChar = [] := takeWhile_append_of_head (x := []) hrest
    simp only [wordAt, List.cons_append, hhead c rfl, if_true]
    rw [← List.cons_append, List.takeWhile_append_of_pos hchars, hend, List.append_nil]

theorem lexes_word (hw : IsWord w) (hrest : ∀ c ∈ rest.head?, isWordChar c = false) :
    Lexes (w ++ rest) [⟨wordKind (String.ofList w), String.ofList w⟩] rest := by
  have hword := wordAt_append_of_isWord hw hrest
  have hpos : 0 < w.length := List.length_pos_iff.mpr hw.1
  have hfirst : ∃ c cs, w ++ rest = c :: cs ∧ isWordStart c = true := by
    obtain ⟨c, w, rfl⟩ := List.exists_cons_of_ne_nil hw.1
    exact ⟨c, w ++ rest, rfl, hw.2.1 c rfl⟩
  obtain ⟨c, cs, hcs, hc⟩ := hfirst
  have hbefore : ∀ r ∈ rules.take 4, r.length (w ++ rest) = 0 := by
    rw [hcs]
    exact length_of_starts (i := 0) (starts_of_not_mem (not_mem_of_all (by decide) hc))
  refine Lexes.one ?_
  by_cases hkw : String.ofList w ∈ keywords
  · rw [wordKind, if_pos hkw]
    refine ⟨rules.take 4, ⟨some .keyword, keywordLength⟩, rules.drop 5, rfl, hbefore, rfl, ?_, hpos⟩
    simp [keywordLength, hword, hkw]
  · rw [wordKind, if_neg hkw]
    refine ⟨rules.take 5, ⟨some .identifier, identifierLength⟩, rules.drop 6, rfl, ?_, rfl,
      ?_, hpos⟩
    · intro r hr
      rcases List.mem_append.mp (show r ∈ rules.take 4 ++ [⟨some .keyword, keywordLength⟩] from hr)
        with hr | hr
      · exact hbefore r hr
      · rw [List.mem_singleton.mp hr]
        simp [keywordLength, hword, hkw]
    · simp [identifierLength, hword]

theorem toNat_of_isWordChar (h : isWordChar c = true) : 48 ≤ c.toNat ∧ c.toNat ≤ 122 := by
  delta isWordChar Char.isAlphanum Char.isAlpha Char.isUpper Char.isLower Char.isDigit at h
  simp only [Bool.or_eq_true, Bool.and_eq_true, decide_eq_true_eq, beq_iff_eq,
    UInt32.le_iff_toNat_le,
    ge_iff_le] at h
  have hA : 'A'.val.toNat = 65 := rfl
  have hZ : 'Z'.val.toNat = 90 := rfl
  have ha : 'a'.val.toNat = 97 := rfl
  have hz : 'z'.val.toNat = 122 := rfl
  have h0 : '0'.val.toNat = 48 := rfl
  have h9 : '9'.val.toNat = 57 := rfl
  have hc : c.toNat = c.val.toNat := rfl
  rcases h with ((h | h) | h) | rfl
  · omega
  · omega
  · omega
  · decide

theorem not_isBlank_of_isWordChar (h : isWordChar c = true) : Text.isBlank c = false := by
  have := toNat_of_isWordChar h
  simp only [Text.isBlank, Bool.or_eq_false_iff, Bool.and_eq_false_iff, decide_eq_false_iff_not,
    beq_eq_false_iff_ne]
  omega

theorem isClean_of_isWordChar (h : isWordChar c = true) : Source.IsClean c := by
  refine ⟨?_, ?_⟩
  · rintro rfl
    exact absurd h (by decide)
  · rw [Bool.eq_false_iff]
    intro hwidth
    simp only [Source.isZeroWidth, Bool.or_eq_true, beq_iff_eq] at hwidth
    rcases hwidth with ((rfl | rfl) | rfl) | rfl <;> exact absurd h (by decide)

theorem not_isWordStart_of_digit (h : c.isDigit = true) : isWordStart c = false := by
  simp only [Char.isDigit, Bool.and_eq_true, decide_eq_true_eq, UInt32.le_iff_toNat_le,
    ge_iff_le] at h
  have hunderscore : c ≠ '_' := by
    rintro rfl
    exact absurd h (by decide)
  delta isWordStart Char.isAlpha Char.isUpper Char.isLower
  simp only [Bool.or_eq_false_iff, Bool.and_eq_false_iff, decide_eq_false_iff_not,
    UInt32.le_iff_toNat_le,
    ge_iff_le, beq_eq_false_iff_ne]
  have h9 : '9'.val.toNat = 57 := rfl
  have hA : 'A'.val.toNat = 65 := rfl
  have ha : 'a'.val.toNat = 97 := rfl
  refine ⟨⟨?_, ?_⟩, hunderscore⟩
  · omega
  · omega

/-! ### Signs that were found -/

theorem eq_pair_of_length (h : pairLength texts (cs ++ behind) = cs.length) (hpos : 0 < cs.length) :
    ∃ a b, cs = [a, b] ∧ (a, b) ∈ texts := by
  have htwo : cs.length = 2 := by
    unfold pairLength at h
    split at h
    · split at h
      · exact h.symm
      · omega
    · omega
  match cs, htwo with
  | [a, b], _ =>
    refine ⟨a, b, rfl, ?_⟩
    simp only [pairLength, List.cons_append, List.contains_iff_mem] at h
    split at h
    · next hmem => exact hmem
    · cases h

theorem eq_one_of_length (h : oneLength chars (cs ++ behind) = cs.length) (hpos : 0 < cs.length) :
    ∃ a, cs = [a] ∧ a ∈ chars := by
  obtain ⟨a, cs, rfl⟩ := List.exists_cons_of_ne_nil (List.length_pos_iff.mp hpos)
  simp only [oneLength, List.cons_append, List.contains_iff_mem, List.length_cons] at h
  split at h
  · next hmem => exact ⟨a, by simpa using h, hmem⟩
  · cases h

/-! ### Literals between quotes -/

theorem eq_cons_of_stringLength (hne : text ≠ []) (htext : stringLength text = text.length) :
    ∃ cs, text = '"' :: cs := by
  obtain ⟨c, cs, rfl⟩ := List.exists_cons_of_ne_nil hne
  by_cases hc : c = '"'
  · exact ⟨cs, by rw [hc]⟩
  · rw [stringLength_of_ne hc] at htext
    cases htext

theorem eq_cons_of_charLength (hne : text ≠ []) (htext : charLength text = text.length) :
    ∃ cs, text = '\'' :: cs := by
  obtain ⟨c, cs, rfl⟩ := List.exists_cons_of_ne_nil hne
  by_cases hc : c = '\''
  · exact ⟨cs, by rw [hc]⟩
  · rw [charLength_of_ne hc] at htext
    cases htext

/-- A string literal is found at the front of a text, whatever follows. -/
theorem found_string (hne : text ≠ []) (htext : stringLength text = text.length)
    (rest : List Char) :
    Found (text ++ rest) (some .string) text.length := by
  have hpos : 0 < text.length := List.length_pos_iff.mpr hne
  have hlen := contained_string.length_append htext hpos rest
  obtain ⟨text, rfl⟩ := eq_cons_of_stringLength hne htext
  exact ⟨rules.take 8, ⟨some .string, stringLength⟩, rules.drop 9, rfl,
    length_of_starts (i := 0) (by decide), rfl,
    hlen, hpos⟩

theorem lexes_string (hne : text ≠ []) (htext : stringLength text = text.length)
    (rest : List Char) :
    Lexes (text ++ rest) [⟨.string, String.ofList text⟩] rest :=
  Lexes.one (found_string hne htext rest)

theorem lexes_char (hne : text ≠ []) (htext : charLength text = text.length) (rest : List Char) :
    Lexes (text ++ rest) [⟨.char, String.ofList text⟩] rest := by
  have hpos : 0 < text.length := List.length_pos_iff.mpr hne
  have hlen := contained_char.length_append htext hpos rest
  obtain ⟨text, rfl⟩ := eq_cons_of_charLength hne htext
  exact Lexes.one ⟨rules.take 7, ⟨some .char, charLength⟩, rules.drop 8, rfl,
    length_of_starts (i := 0) (by decide), rfl, hlen, hpos⟩

/-! ### Blanks -/

theorem lexes_space (hrest : ∀ c ∈ rest.head?, Text.isBlank c = false) :
    Lexes (' ' :: rest) [] rest := by
  have hspan : spanLength Text.isBlank (' ' :: rest) = 1 := spanLength_append (x := [' ']) hrest
  have hmatch : firstMatch? ([' '] ++ rest) =
      some (none, spanLength Text.isBlank (' ' :: rest)) := by
    cases rest <;> rfl
  rw [hspan] at hmatch
  exact Lexes.dropped (firstMatch?_eq_some_iff.mp hmatch)

/-! ### Tokens of lexemes -/

theorem map_lexeme_tokensFrom (starts : Array Nat) (offset : Nat) (pieces : List Piece) :
    (tokensFrom starts offset pieces).1.map Token.lexeme = pieces.filterMap Piece.lexeme? := by
  induction pieces generalizing offset with
  | nil => rfl
  | cons piece pieces ih =>
    rw [tokensFrom]
    cases hkind : piece.kind with
    | none => simp [Piece.lexeme?, hkind, ih]
    | some kind => simp [Piece.lexeme?, hkind, ih, Token.lexeme]

theorem Tiling.map_lexeme_tokensIn (h : Tiling rest cs pieces) :
    (tokensIn cs pieces).map Token.lexeme = pieces.filterMap Piece.lexeme? := by
  rw [← map_lexeme_tokensFrom (Source.lineStarts cs) 0 pieces, h.tokensFrom_eq]

theorem Tiling.found (h : Tiling rest cs pieces) :
    ∀ piece ∈ pieces, ∃ behind, Found (piece.chars ++ behind) piece.kind piece.chars.length := by
  induction h with
  | done => simp
  | @piece kind chars cs pieces hfound _ ih =>
    rw [List.forall_mem_cons]
    exact ⟨⟨cs, hfound⟩, ih⟩

end Lexical

open Lexical

/-- **The tokens of a text are its lexemes**, and one that ends them. -/
theorem Source.tokenize_of_lexes {ls : List Lexeme} (h : Lexes source.chars ls []) :
    ∃ tokens, source.tokenize = .ok (tokens ++ [endAt source.chars source.chars.length]) ∧
      tokens.map Token.lexeme = ls := by
  obtain ⟨pieces, htiling, rfl⟩ := h
  exact ⟨_, Source.tokenize_of_tiling htiling, htiling.map_lexeme_tokensIn⟩

/-! ### Tokens that were cut from a text -/

/-- The token was cut from a normalized text by the first matching rule. -/
structure Token.Cut (t : Token) : Prop where
  /-- Its characters are those of a normalized text. -/
  clean : ∀ c ∈ t.text.toList, Source.IsClean c
  found : t.kind ≠ .endOfInput → ∃ behind, Found (t.text.toList ++ behind) (some t.kind)
    t.text.toList.length

theorem Token.cut_of_end {t : Token} (hkind : t.kind = .endOfInput) (htext : t.text = "") :
    t.Cut where
  clean := by simp [htext]
  found h := absurd hkind h

/-- The tokens of a source were found in it by the rules, and one that no rule finds ends them. -/
theorem Source.split_of_tokenize (h : source.tokenize = .ok tokens) :
    ∃ ts, tokens = ts ++ [endAt source.chars source.chars.length] ∧
      ∀ t ∈ ts, t.kind ≠ .endOfInput ∧ t.text.toList ⊆ source.chars ∧
        ∃ behind, Found (t.text.toList ++ behind) (some t.kind) t.text.toList.length := by
  obtain ⟨pieces, htiling, rfl⟩ := Source.tiling_of_tokenize h
  refine ⟨_, rfl, fun t ht => ?_⟩
  have hlexeme : t.lexeme ∈ pieces.filterMap Piece.lexeme? := by
    rw [← htiling.map_lexeme_tokensIn]
    exact List.mem_map_of_mem ht
  obtain ⟨piece, hpiece, hsome⟩ := List.mem_filterMap.mp hlexeme
  obtain ⟨kind, hkind, heq⟩ := Option.map_eq_some_iff.mp hsome
  have htext : t.text.toList = piece.chars := by
    rw [← String.toList_ofList (l := piece.chars)]
    exact congrArg (fun l => l.text.toList) heq.symm
  obtain rfl : kind = t.kind := congrArg Lexeme.kind heq
  obtain ⟨behind, hfound⟩ := htiling.found piece hpiece
  rw [htext]
  refine ⟨?_, fun c hc => ?_, behind, hkind ▸ hfound⟩
  · obtain ⟨before, rule, after, hrules, -, hrule, -⟩ := hfound
    have hnone : ∀ rule ∈ rules, rule.kind ≠ some .endOfInput := by decide
    intro hend
    exact hnone rule (by simp [hrules]) (by rw [hrule, hkind, hend])
  · rw [htiling.chars_eq, List.append_nil]
    exact List.mem_flatMap.mpr ⟨piece, hpiece, hc⟩

/-- The tokens of a source were cut from it. -/
theorem Source.cut_of_tokenize {text file : String}
    (h : (Source.ofText text file).tokenize = .ok tokens) : ∀ t ∈ tokens, t.Cut := by
  obtain ⟨ts, rfl, hts⟩ := Source.split_of_tokenize h
  intro t ht
  rcases List.mem_append.mp ht with hmem | hmem
  · obtain ⟨-, hsubset, hfound⟩ := hts t hmem
    exact ⟨fun c hc => Source.isClean_of_mem_normalize (s := text) (hsubset hc), fun _ => hfound⟩
  · rw [List.mem_singleton.mp hmem]
    exact Token.cut_of_end rfl rfl

namespace Token.Cut

variable {t : Token}

theorem toList_ne_nil (h : t.Cut) (hkind : t.kind ≠ .endOfInput) : t.text.toList ≠ [] := by
  obtain ⟨behind, before, rule, after, -, -, -, -, hpos⟩ := h.found hkind
  exact List.ne_nil_of_length_pos hpos

theorem wordAt_eq (h : (wordAt (w ++ behind)).length = w.length) : wordAt (w ++ behind) = w := by
  rw [List.prefix_iff_eq_take.mp (wordAt_isPrefix (w ++ behind)), h, List.take_left]

/-- The one rule for a class found the token, and those before it did not. -/
theorem rule (h : t.Cut) {rule : Rule} (hkind : t.kind = kind) (hrule : rules[i]? = some rule)
    (hend : kind ≠ .endOfInput) (hi : ∀ j < rules.length,
      (rules.map Rule.kind)[j]? = some (some kind) → j = i) :
    ∃ behind, rule.length (t.text.toList ++ behind) = t.text.toList.length ∧
    0 < t.text.toList.length ∧
      ∀ j < i, ∀ r, rules[j]? = some r → r.length (t.text.toList ++ behind) = 0 := by
  obtain ⟨behind, hfound⟩ := h.found (hkind ▸ hend)
  rw [hkind] at hfound
  obtain ⟨rule', hrule', hlen, hpos, hbefore⟩ := hfound.of_kind hi
  cases hrule.symm.trans hrule'
  exact ⟨behind, hlen, hpos, hbefore⟩

theorem identifier (h : t.Cut) (hkind : t.kind = .identifier) :
    IsWord t.text.toList ∧ t.text ∉ keywords := by
  obtain ⟨behind, hlen, hpos, hbefore⟩ := h.rule (i := 5) hkind rfl (by decide) (by decide)
  have hword := wordAt_eq hlen
  have hkw : keywordLength (t.text.toList ++ behind) = 0 := hbefore 4 (by omega) _ rfl
  refine ⟨?_, ?_⟩
  · rw [← hword]
    exact isWord_wordAt (by rw [hword]; exact List.ne_nil_of_length_pos hpos)
  · intro hmem
    simp only [keywordLength, hword, String.ofList_toList, List.contains_iff_mem, hmem,
      if_true] at hkw
    omega

theorem keyword (h : t.Cut) (hkind : t.kind = .keyword) : t.text ∈ keywords := by
  obtain ⟨behind, hlen, hpos, -⟩ := h.rule (i := 4) hkind rfl (by decide) (by decide)
  simp only [keywordLength] at hlen
  split at hlen
  · next hmem =>
    rw [wordAt_eq hlen, String.ofList_toList] at hmem
    simpa using hmem
  · omega

theorem isWord (h : t.Cut) (hkind : t.kind = .identifier ∨ t.kind = .keyword) :
    IsWord t.text.toList := by
  rcases hkind with hkind | hkind
  · exact (h.identifier hkind).1
  · have hall : ∀ w ∈ keywords, IsWord w.toList := by decide
    exact hall _ (h.keyword hkind)

/-- What a rule finds at the start of a token it finds without what follows, if it never looks
there. -/
theorem whole (h : t.Cut) {rule : Rule} (hkind : t.kind = kind) (hrule : rules[i]? = some rule)
    (hcontained : Contained rule.length) (hend : kind ≠ .endOfInput)
    (hi : ∀ j < rules.length, (rules.map Rule.kind)[j]? = some (some kind) → j = i) :
    t.text.toList ≠ [] ∧ rule.length t.text.toList = t.text.toList.length := by
  obtain ⟨behind, hlen, hpos, -⟩ := h.rule hkind hrule hend hi
  exact ⟨List.ne_nil_of_length_pos hpos, hcontained.length_eq hlen hpos⟩

theorem string (h : t.Cut) (hkind : t.kind = .string) :
    t.text.toList ≠ [] ∧ stringLength t.text.toList = t.text.toList.length :=
  h.whole (i := 8) hkind rfl contained_string (by decide) (by decide)

theorem char (h : t.Cut) (hkind : t.kind = .char) :
    t.text.toList ≠ [] ∧ charLength t.text.toList = t.text.toList.length :=
  h.whole (i := 7) hkind rfl contained_char (by decide) (by decide)

theorem directive (h : t.Cut) (hkind : t.kind = .directive) :
    t.text.toList ≠ [] ∧ directiveLength t.text.toList = t.text.toList.length :=
  h.whole (i := 1) hkind rfl contained_directive (by decide) (by decide)

theorem stream (h : t.Cut) (hkind : t.kind = .stream) : t.text = "<<" ∨ t.text = ">>" := by
  obtain ⟨behind, hlen, hpos, -⟩ := h.rule (i := 2) hkind rfl (by decide) (by decide)
  obtain ⟨a, b, htext, hab⟩ := eq_pair_of_length hlen hpos
  rw [← String.toList_inj, ← String.toList_inj, htext]
  simpa using hab

theorem scope (h : t.Cut) (hkind : t.kind = .scope) : t.text = "::" := by
  obtain ⟨behind, hlen, hpos, -⟩ := h.rule (i := 9) hkind rfl (by decide) (by decide)
  obtain ⟨a, b, htext, hab⟩ := eq_pair_of_length hlen hpos
  rw [← String.toList_inj, htext]
  simpa using hab

theorem delimiter (h : t.Cut) (hkind : t.kind = .delimiter) :
    ∃ a, t.text.toList = [a] ∧ a ∈ delimiters := by
  obtain ⟨behind, hlen, hpos, -⟩ := h.rule (i := 11) hkind rfl (by decide) (by decide)
  exact eq_one_of_length hlen hpos

/-- Two rules find operators, those of two characters and those of one. -/
theorem operator (h : t.Cut) (hkind : t.kind = .operator) :
    (∃ a b, t.text.toList = [a, b] ∧ (a, b) ∈ longOperators) ∨
      ∃ a, t.text.toList = [a] ∧ a ∈ shortOperators := by
  obtain ⟨behind, hfound⟩ := h.found (by simp [hkind])
  rw [hkind] at hfound
  obtain ⟨before, rule, after, hrules, -, hrule, hlen, hpos⟩ := hfound
  have hoperators : ∀ r ∈ rules, r.kind = some .operator →
      r.length = pairLength longOperators ∨ r.length = oneLength shortOperators := by
    simp [rules]
  rcases hoperators rule (by simp [hrules]) hrule with heq | heq
  · rw [heq] at hlen
    exact Or.inl (eq_pair_of_length hlen hpos)
  · rw [heq] at hlen
    exact Or.inr (eq_one_of_length hlen hpos)

end Token.Cut

end SmallCpp
