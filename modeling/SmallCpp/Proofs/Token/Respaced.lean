import SmallCpp.Proofs.Token.Joined

/-!
# Sources with other blanks and comments

What stands between the tokens of a source keeps them apart and has no other effect.  Each token,
cut from wherever it stood, is found again in front of a blank or a comment, so the texts of the
tokens have the same tokens with any blanks and comments between them.  One thing has to be seen to:
a comment that stands directly behind a division sign would make another comment with it.

## Main results

* `tokenize_respaced` — **the tokens of a source do not depend on what stands between them.**
-/

namespace SmallCpp

open Text Lexical

variable {rest : List Char}

namespace Lexical

variable {body cs text : List Char}

/-! ### Gaps -/

/-- Blanks, and comments with their ends. -/
inductive Gap : List Char → Prop where
  | nil : Gap []
  | blank {c : Char} {gap : List Char} : isBlank c = true → Gap gap → Gap (c :: gap)
  /-- A comment up to the end of its line first. -/
  | line {body gap : List Char} : '\n' ∉ body → Gap gap → Gap ('/' :: '/' :: (body ++ '\n' :: gap))
  | block {body gap : List Char} : ¬['*', '/'] <:+: body → Gap gap →
      Gap ('/' :: '*' :: (body ++ '*' :: '/' :: gap))

/-- A comment, of which the length is known, is no lexeme. -/
theorem lexes_comment {chars : List Char} (hne : chars ≠ [])
    (h : commentLength (chars ++ rest) = chars.length) : Lexes (chars ++ rest) [] rest :=
  .dropped ⟨[], ⟨none, commentLength⟩, rules.drop 1, rfl, nofun, rfl, h,
    List.length_pos_iff.mpr hne⟩

theorem lexes_lineComment (hbody : '\n' ∉ body) (hrest : Break rest) :
    Lexes ('/' :: '/' :: (body ++ rest)) [] rest := by
  have hspan : spanLength (· != '\n') (body ++ rest) = body.length := by
    have hall : body.takeWhile (· != '\n') = body := by
      rw [List.takeWhile_eq_self_iff]
      intro c hc
      simpa using fun heq : c = '\n' => hbody (heq ▸ hc)
    rw [spanLength_append fun c hc => by simp [hrest c hc], spanLength, hall]
  apply lexes_comment (show '/' :: '/' :: body ≠ [] by simp)
  simp only [List.cons_append, commentLength, hspan, List.length_cons]
  omega

theorem lexes_blockComment (hbody : ¬['*', '/'] <:+: body) (rest : List Char) :
    Lexes ('/' :: '*' :: (body ++ '*' :: '/' :: rest)) [] rest := by
  have hsplit : '/' :: '*' :: (body ++ '*' :: '/' :: rest) =
      '/' :: '*' :: (body ++ ['*', '/']) ++ rest := by simp
  rw [hsplit]
  apply lexes_comment (by simp)
  rw [← hsplit, commentLength, blockCommentLength?_append hbody]
  simp only [Option.map_some, Option.getD_some, List.length_cons, List.length_append,
    List.length_nil]
  omega

/-- **A gap has no effect** on the lexemes behind it. -/
theorem Gap.lexes {gap : List Char} {ls : List Lexeme} (hgap : Gap gap) (h : Lexes cs ls []) :
    Lexes (gap ++ cs) ls [] := by
  induction hgap with
  | nil => exact h
  | @blank c gap hc _ ih => exact ih.blanks (w := [c]) (by simp) (by simpa using hc)
  | @line body gap hbody _ ih =>
    have hcomm := lexes_lineComment hbody (break_lineFeed (gap ++ cs))
    have hfeed : Lexes ('\n' :: (gap ++ cs)) ls [] :=
      ih.blanks (w := ['\n']) (by simp) (forall_mem_of_all (by decide))
    simpa using hcomm.append hfeed
  | @block body gap hbody _ ih => simpa using (lexes_blockComment hbody (gap ++ cs)).append ih

/-! ### What keeps tokens apart -/

/-- A token of the text `text` ends in front of `rest`: there is a blank, or the sign that begins a
comment, which must not stand behind another one. -/
def Separates (text rest : List Char) : Prop :=
  ∀ c ∈ rest.head?, isBlank c = true ∨ c = '/' ∧ text ≠ ['/']

theorem Separates.not_isWordChar (h : Separates text rest) :
    ∀ c ∈ rest.head?, isWordChar c = false := by
  intro c hc
  rw [Bool.eq_false_iff]
  intro hword
  rcases h c hc with hblank | ⟨rfl, -⟩
  · simp [not_isBlank_of_isWordChar hword] at hblank
  · exact absurd hword (by decide)

theorem Separates.not_isDigit (h : Separates text rest) :
    ∀ c ∈ rest.head?, isDigit c = false ∧ isDecimalMark c = false := by
  intro c hc
  rcases h c hc with hblank | ⟨rfl, -⟩
  · refine ⟨not_isDigit_of_isBlank hblank, ?_⟩
    rw [Bool.eq_false_iff]
    intro hmark
    simp only [isDecimalMark, Bool.or_eq_true, beq_iff_eq] at hmark
    rcases hmark with (rfl | rfl) | rfl
    · exact absurd hblank (by decide)
    · exact absurd hblank (by decide)
    · exact absurd hblank (by decide)
  · decide

theorem Separates.apart {a : Char} (h : Separates [a] rest) : ∀ c ∈ rest.head?, Apart a c := by
  intro c hc
  by_cases hslash : c = '/'
  · subst hslash
    have ha : a ≠ '/' := by
      rintro rfl
      rcases h '/' hc with hblank | ⟨-, hne⟩
      · exact absurd hblank (by decide)
      · exact hne rfl
    have hsecond : ∀ p ∈ ('<', '<') :: ('>', '>') :: longOperators, p.2 ≠ '/' := by decide
    exact ⟨fun hmem => hsecond _ hmem rfl, fun hcomm => ha hcomm.1⟩
  · have hblank : isBlank c = true := (h c hc).resolve_right fun hc => hslash hc.1
    exact apart_of_not_mem (not_mem_of_all (by decide) hblank)

/-! ### Tokens in front of gaps -/

theorem lexes_colon (hrest : ∀ c ∈ rest.head?, c ≠ ':') :
    Lexes (':' :: rest) [⟨.delimiter, ":"⟩] rest := by
  have hscope : pairLength [(':', ':')] (':' :: rest) = 0 := by
    apply pairLength_of_not_mem
    intro d hd
    simpa using hrest d hd
  have hbefore : ∀ rule ∈ rules.take 11, rule.length (':' :: rest) = 0 := by
    intro rule hrule
    rcases List.mem_append.mp (show rule ∈ rules.take 9 ++ [_, _] from hrule) with hmem | hmem
    · exact length_of_starts (i := 0) (by decide) rule hmem
    · simp only [List.mem_cons, List.not_mem_nil, or_false] at hmem
      rcases hmem with rfl | rfl
      · exact hscope
      · rfl
  have hfound : Found ([':'] ++ rest) (some .delimiter) 1 :=
    ⟨rules.take 11, ⟨some .delimiter, oneLength delimiters⟩, rules.drop 12, rfl, hbefore, rfl, rfl,
    Nat.one_pos⟩
  exact Lexes.one hfound

theorem lexes_directive (hne : text ≠ []) (htext : directiveLength text = text.length)
    (rest : List Char) :
    Lexes (text ++ rest) [⟨.directive, String.ofList text⟩] rest := by
  have hpos : 0 < text.length := List.length_pos_iff.mpr hne
  have hlen := contained_directive.length_append htext hpos rest
  have hfirst : commentLength (text ++ rest) = 0 := by
    obtain ⟨c, cs, rfl⟩ := List.exists_cons_of_ne_nil hne
    apply commentLength_of_ne
    rintro rfl
    rw [directiveLength_of_ne (by decide)] at htext
    cases htext
  exact Lexes.one ⟨rules.take 1, ⟨some .directive, directiveLength⟩, rules.drop 2, rfl,
    by simpa [rules] using hfirst, rfl, hlen, hpos⟩

end Lexical

namespace Token.Cut

variable {t : Token}

theorem lexes_operator (h : t.Cut) (hkind : t.kind = .operator)
    (hrest : Separates t.text.toList rest) :
    Lexes (t.text.toList ++ rest) [⟨.operator, String.ofList t.text.toList⟩] rest := by
  rcases h.operator hkind with ⟨a, b, htext, hab⟩ | ⟨a, htext, ha⟩
  · rw [htext]
    exact lexes_longOperator hab rest
  · rw [htext] at hrest ⊢
    exact lexes_shortOperator ha hrest.apart

theorem lexes_delimiter (h : t.Cut) (hkind : t.kind = .delimiter)
    (hrest : Separates t.text.toList rest) :
    Lexes (t.text.toList ++ rest) [⟨.delimiter, String.ofList t.text.toList⟩] rest := by
  obtain ⟨a, htext, ha⟩ := h.delimiter hkind
  rw [htext] at hrest ⊢
  rcases List.mem_append.mp (show a ∈ ['[', ']', '(', ')', '\x7b', '\x7d', ';', ','] ++
    [':'] from ha)
    with hmem | hmem
  · exact Lexical.lexes_delimiter hmem rest
  · obtain rfl := List.mem_singleton.mp hmem
    apply lexes_colon
    rintro c hc rfl
    rcases hrest ':' hc with hblank | ⟨hslash, -⟩
    · exact absurd hblank (by decide)
    · exact absurd hslash (by decide)

/-- **A token is found again** wherever what follows separates it. -/
theorem lexes (h : t.Cut) (hkind : t.kind ≠ .endOfInput) (hrest : Separates t.text.toList rest) :
    Lexes (t.text.toList ++ rest) [t.lexeme] rest := by
  have hlexeme : t.lexeme = ⟨t.kind, String.ofList t.text.toList⟩ := by
    rw [String.ofList_toList, lexeme]
  rw [hlexeme]
  -- whether a word is a keyword or an identifier depends on its text alone
  have hword : t.kind = .identifier ∨ t.kind = .keyword → wordKind t.text = t.kind →
      Lexes (t.text.toList ++ rest) [⟨t.kind, String.ofList t.text.toList⟩] rest := by
    intro hkinds hclass
    have hlexes := lexes_word (h.isWord hkinds) hrest.not_isWordChar
    rw [String.ofList_toList] at hlexes ⊢
    rwa [hclass] at hlexes
  cases hclass : t.kind with
  | keyword =>
    rw [← hclass]
    exact hword (Or.inr hclass) (by rw [wordKind, if_pos (h.keyword hclass), hclass])
  | identifier =>
    rw [← hclass]
    exact hword (Or.inl hclass) (by rw [wordKind, if_neg (h.identifier hclass).2, hclass])
  | number => exact lexes_number (h.isNumber hclass) hrest.not_isDigit
  | string =>
    obtain ⟨hne, hlen⟩ := h.string hclass
    exact lexes_string hne hlen rest
  | char =>
    obtain ⟨hne, hlen⟩ := h.char hclass
    exact lexes_char hne hlen rest
  | stream =>
    rcases h.stream hclass with harrow | harrow
    · rw [harrow]
      exact lexes_stream (Or.inl rfl) rest
    · rw [harrow]
      exact lexes_stream (Or.inr rfl) rest
  | operator => exact h.lexes_operator hclass hrest
  | scope =>
    rw [h.scope hclass]
    exact lexes_scope rest
  | delimiter => exact h.lexes_delimiter hclass hrest
  | directive =>
    obtain ⟨hne, hlen⟩ := h.directive hclass
    exact lexes_directive hne hlen rest
  | endOfInput => exact absurd hclass hkind

end Token.Cut

/-! ### Texts with gaps around them -/

namespace Lexical

/-- The text is made of the given texts, in order, with gaps in front of each of them and behind the
last one, where what follows a text separates it. -/
inductive Spaced : List (List Char) → List Char → Prop where
  | gap {gap : List Char} : Gap gap → Spaced [] gap
  /-- The same with a comment on the last line of all. -/
  | comment {gap body : List Char} : Gap gap → '\n' ∉ body → Spaced [] (gap ++ '/' :: '/' :: body)
  | text {gap text rest : List Char} {texts : List (List Char)} : Gap gap → Separates text rest →
      Spaced texts rest → Spaced (text :: texts) (gap ++ (text ++ rest))

/-- **Tokens with gaps around them are found again.** -/
theorem lexes_of_spaced {ts : List Token} (hts : ∀ t ∈ ts, t.Cut ∧ t.kind ≠ .endOfInput)
    (h : Spaced (ts.map fun t => t.text.toList) cs) : Lexes cs (ts.map Token.lexeme) [] := by
  induction ts generalizing cs with
  | nil =>
    cases h with
    | gap hgap => simpa using hgap.lexes (.refl [])
    | comment hgap hbody =>
      have hlast := lexes_lineComment hbody break_nil
      rw [List.append_nil] at hlast
      exact hgap.lexes hlast
  | cons t ts ih =>
    obtain ⟨ht, hts⟩ := List.forall_mem_cons.mp hts
    rw [List.map_cons] at h
    cases h with
    | text hgap hrest hspaced =>
      exact hgap.lexes ((ht.1.lexes ht.2 hrest).append (ih hts hspaced))

theorem intercalate_space (text : List Char) (texts : List (List Char)) :
    [' '].intercalate (text :: texts) = text ++ texts.flatMap (' ' :: ·) := by
  induction texts generalizing text with
  | nil => simp
  | cons text' texts ih =>
    rw [List.intercalate_cons_cons, ih]
    simp

theorem separates_spaces (text : List Char) (texts : List (List Char)) :
    Separates text (texts.flatMap (' ' :: ·)) := by
  intro c hc
  cases texts with
  | nil => cases hc
  | cons text' texts =>
    cases hc
    exact Or.inl (by decide)

theorem spaced_spaces (texts : List (List Char)) : Spaced texts (texts.flatMap (' ' :: ·)) := by
  induction texts with
  | nil => exact .gap .nil
  | cons text texts ih => exact .text (.blank (by decide) .nil) (separates_spaces text texts) ih

theorem spaced_intercalate (texts : List (List Char)) : Spaced texts ([' '].intercalate texts) := by
  cases texts with
  | nil => exact .gap .nil
  | cons text texts =>
    rw [intercalate_space, ← List.nil_append (text ++ _)]
    exact .text .nil (separates_spaces text texts) (spaced_spaces texts)

theorem isClean_intercalate {texts : List (List Char)}
    (h : ∀ text ∈ texts, ∀ c ∈ text, Source.IsClean c) :
    ∀ c ∈ [' '].intercalate texts, Source.IsClean c := by
  have hspace : Source.IsClean ' ' := by decide
  cases texts with
  | nil => exact nofun
  | cons text texts =>
    obtain ⟨htext, htexts⟩ := List.forall_mem_cons.mp h
    intro c hc
    rw [intercalate_space, List.mem_append, List.mem_flatMap] at hc
    rcases hc with hc | ⟨text', hmem, hc⟩
    · exact htext c hc
    · rcases List.mem_cons.mp hc with rfl | hc
      · exact hspace
      · exact htexts text' hmem c hc

end Lexical

/-! ### Sources -/

/-- **The tokens of a source do not depend on the blanks and comments between them.**  Let a source
have tokens, and behind them the one that ends them.  The texts of the tokens, joined by single
spaces, have tokens of the same classes and texts, and so has every source of these texts with
blanks and comments around them. -/
theorem tokenize_respaced {text file : String} {tokens : List Token}
    (h : (Source.ofText text file).tokenize = .ok tokens) :
    ∃ ts e, tokens = ts ++ [e] ∧ e.lexeme = ⟨.endOfInput, ""⟩ ∧
      (∃ again, (Source.ofText (" ".intercalate (ts.map Token.text)) file).tokenize = .ok again ∧
        again.map Token.lexeme = tokens.map Token.lexeme) ∧
      ∀ text' file', Spaced (ts.map fun t => t.text.toList) (Source.normalize text') →
        ∃ again, (Source.ofText text' file').tokenize = .ok again ∧
          again.map Token.lexeme = tokens.map Token.lexeme := by
  have hcut := Source.cut_of_tokenize h
  obtain ⟨ts, hsplit, hfound⟩ := Source.split_of_tokenize h
  generalize he : endAt _ _ = e at hsplit
  replace he : e.lexeme = ⟨.endOfInput, ""⟩ := he ▸ rfl
  subst hsplit
  have hts : ∀ t ∈ ts, t.Cut ∧ t.kind ≠ .endOfInput := fun t ht =>
    ⟨hcut t (List.mem_append_left _ ht), (hfound t ht).1⟩
  have hspaced : ∀ text' file', Spaced (ts.map fun t => t.text.toList) (Source.normalize text') →
      ∃ again, (Source.ofText text' file').tokenize = .ok again ∧
        again.map Token.lexeme = (ts ++ [e]).map Token.lexeme := by
    intro text' file' htext
    have hlexes : Lexes (Source.ofText text' file').chars (ts.map Token.lexeme) [] :=
      lexes_of_spaced hts htext
    obtain ⟨again, hagain, hlexemes⟩ := Source.tokenize_of_lexes hlexes
    refine ⟨_, hagain, ?_⟩
    rw [List.map_append, List.map_append, hlexemes, List.map_singleton, List.map_singleton, he]
    rfl
  refine ⟨ts, e, rfl, he, hspaced _ _ ?_, hspaced⟩
  -- the joined text is normalized, as each of its parts is
  have hchars : (" ".intercalate (ts.map Token.text)).toList =
      [' '].intercalate (ts.map fun t => t.text.toList) := by
    rw [String.toList_intercalate, List.map_map]
    rfl
  rw [Source.normalize_of_isClean, hchars]
  · exact spaced_intercalate _
  · rw [hchars]
    apply isClean_intercalate
    intro cs hcs
    obtain ⟨t, ht, rfl⟩ := List.mem_map.mp hcs
    exact (hts t ht).1.clean

/-- A comment behind a division sign, with a space between them. -/
theorem tokenize_respaced_division :
    ∃ tokens, (Source.ofText "a=b/ /* two */c;" "").tokenize = .ok tokens ∧
      ∃ again, (Source.ofText "a = b / c ;" "").tokenize = .ok again ∧
        again.map Token.lexeme = tokens.map Token.lexeme := by
  have hlexed : (Source.ofText "a=b/ /* two */c;" "").tokenize.isOk = true := by decide +kernel
  have htexts : (Source.ofText "a=b/ /* two */c;" "").tokenize.toOption.map
      (fun tokens => tokens.dropLast.map Token.text) = some ["a", "=", "b", "/", "c", ";"] := by
    decide +kernel
  cases htoks : (Source.ofText "a=b/ /* two */c;" "").tokenize with
  | error e =>
    rw [htoks] at hlexed
    cases hlexed
  | ok tokens =>
    obtain ⟨ts, e, rfl, -, hagain, -⟩ := tokenize_respaced htoks
    rw [htoks] at htexts
    have htexts : ts.map Token.text = ["a", "=", "b", "/", "c", ";"] := by
      simpa [Except.toOption] using htexts
    rw [htexts] at hagain
    exact ⟨_, rfl, hagain⟩

end SmallCpp
