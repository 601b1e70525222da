import Mathlib.Data.List.Chain
import SmallCpp.Proofs.Number.Numeral

/-!
# Texts put together at a line feed

A line feed ends every piece but white space, block comments and the blanks of a directive.  So the
lexemes of two texts, one put behind the other on a line of its own, are the lexemes of the one and
then those of the other.  There is one exception: a block comment that the first text leaves open is
no comment there, but a division sign and a star, and may be closed by the second text.

## Main results

* `Lexes.join` — **the lexemes of two texts put together** are those of the two, in order.
-/

namespace SmallCpp.Lexical

variable {cs rest more : List Char} {a : Char} {kind : Option TokenKind} {n : Nat}

/-! ### What a rule finds in front of a line feed -/

/-- The text is empty or goes on with a line feed. -/
def Break (rest : List Char) : Prop :=
  ∀ c ∈ rest.head?, c = '\n'

theorem break_nil : Break [] :=
  nofun

theorem break_lineFeed (cs : List Char) : Break ('\n' :: cs) := by
  intro c hc
  cases hc
  rfl

theorem Break.eq (h : Break rest) : rest = [] ∨ ∃ cs, rest = '\n' :: cs := by
  cases rest with
  | nil => exact Or.inl rfl
  | cons c cs => exact Or.inr ⟨cs, by rw [h c rfl]⟩

theorem Break.detached (h : Break rest) : Detached rest := by
  rcases h.eq with rfl | ⟨cs, rfl⟩
  · exact nofun
  · exact detached_lineFeed cs

/-- What a rule finds does not depend on anything behind a line feed. -/
def Settled (length : List Char → Nat) : Prop :=
  ∀ a x rest, Break rest → length (a :: (x ++ rest)) = length (a :: x)

theorem settled_pair {texts : List (Char × Char)} (htexts : '\n' ∉ texts.map Prod.snd) :
    Settled (pairLength texts) := by
  intro a x rest h
  cases x with
  | cons b x => rfl
  | nil =>
    rcases h.eq with rfl | ⟨cs, rfl⟩
    · rfl
    · refine pairLength_of_not_mem fun d hd hmem => htexts ?_
      cases hd
      exact List.mem_map_of_mem hmem

theorem settled_one (chars : List Char) : Settled (oneLength chars) :=
  fun _ _ _ _ => rfl

theorem settled_char : Settled charLength := by
  intro a x rest h
  rcases h.eq with rfl | ⟨cs, rfl⟩
  · rw [List.append_nil]
  · refine (contained_char.truncates _ a x ?_).symm
    by_cases hzero : charLength (a :: (x ++ '\n' :: cs)) = 0
    · omega
    · -- A line feed is none of the inner characters of a literal.
      rcases charLength_cases hzero with ⟨c, tail, heq, hc⟩ | ⟨c, tail, heq, hq, hb, hn⟩
      · rcases x with _ | ⟨_, _ | ⟨_, _ | ⟨_, x⟩⟩⟩
        · simp at heq
        · cases heq; exact absurd rfl hc
        · simp at heq
        · rw [heq]; simp [charLength, hc]
      · rcases x with _ | ⟨_, _ | ⟨_, x⟩⟩
        · cases heq; exact absurd rfl hn
        · simp at heq
        · rw [heq]; simp [charLength, hq, hb, hn]

theorem stringRestLength?_append (h : Break rest) (x : List Char) :
    stringRestLength? (x ++ rest) = stringRestLength? x := by
  fun_induction stringRestLength? x with
  | case1 =>
    rcases h.eq with rfl | ⟨cs, rfl⟩
    · rfl
    · unfold stringRestLength?
      rfl
  | case2 c x hquote =>
    unfold stringRestLength?
    simp [hquote]
  | case3 c x hquote hline =>
    unfold stringRestLength?
    simp [hquote, hline]
  | case4 c hquote hline hslash =>
    rcases h.eq with rfl | ⟨cs, rfl⟩
    · simp [stringRestLength?, hquote, hline, hslash]
    · simp [stringRestLength?, hquote, hline, hslash]
  | case5 c hquote hline hslash d x hd => simp [stringRestLength?, hquote, hline, hslash, hd]
  | case6 c hquote hline hslash d x hd ih =>
    simp [stringRestLength?, hquote, hline, hslash, hd, ih]
  | case7 c x hquote hline hslash ih =>
    conv_lhs => unfold stringRestLength?
    simp [hquote, hline, hslash, ih]

theorem settled_string : Settled stringLength := by
  intro a x rest h
  by_cases ha : a = '"'
  · subst ha
    simp only [stringLength, stringRestLength?_append h]
  · rw [stringLength_of_ne ha, stringLength_of_ne ha]

/-- All rules but those for comments, directives and blanks find the same before a line feed. -/
theorem settled_of_mem {rule : Rule} (h : rule ∈ (rules.drop 2).take 10) : Settled rule.length := by
  simp only [rules, List.drop_succ_cons, List.drop_zero, List.take_succ_cons, List.take_zero,
    List.mem_cons, List.not_mem_nil, or_false] at h
  rcases h with rfl | rfl | rfl | rfl | rfl | rfl | rfl | rfl | rfl | rfl
  · exact settled_pair (by decide)
  · exact settled_pair (by decide)
  · exact fun a x _ h => keywordLength_append h.detached a x
  · exact fun a x _ h => identifierLength_append h.detached a x
  · exact fun a x _ h => numberLength_append h.detached (a :: x)
  · exact settled_char
  · exact settled_string
  · exact settled_pair (by decide)
  · exact settled_one _
  · exact settled_one _

/-! ### Pieces in front of more text -/

theorem Contained.append_of_ne_zero {length : List Char → Nat} (h : Contained length)
    (hcs : length cs ≠ 0) (more : List Char) : length (cs ++ more) = length cs := by
  have hsame := h.take cs hcs (cs.drop (length cs) ++ more)
  rwa [← List.append_assoc, List.take_append_drop] at hsame

theorem commentLength_append {x : List Char} (hrest : Break rest) (hmore : Break (rest ++ more))
    (hclosed : ∀ y, a :: (x ++ rest) = '/' :: '*' :: y → commentLength ('/' :: '*' :: y) ≠ 0) :
    commentLength (a :: (x ++ rest) ++ more) = commentLength (a :: (x ++ rest)) := by
  rw [List.cons_append, List.append_assoc]
  cases x with
  | nil =>
    have hzero : ∀ rest, Break rest → commentLength (a :: rest) = 0 := by
      intro rest h
      rcases h.eq with rfl | ⟨cs, rfl⟩
      · simp [commentLength]
      · exact commentLength_eq_zero (by simp)
    rw [List.nil_append, List.nil_append, hzero _ hrest, hzero _ hmore]
  | cons b x =>
    by_cases hopen : a = '/' ∧ (b = '/' ∨ b = '*')
    · obtain ⟨rfl, rfl | rfl⟩ := hopen
      · -- A line comment ends at the line feed.
        have hspan : ∀ rest, Break rest →
            spanLength (· != '\n') (x ++ rest) = spanLength (· != '\n') x :=
          fun rest h => spanLength_append fun c hc => by simp [h c hc]
        simp only [List.cons_append, commentLength, hspan _ hrest, hspan _ hmore]
      · have hne := hclosed (x ++ rest) rfl
        cases hblock : blockCommentLength? (x ++ rest) with
        | none => simp [commentLength, hblock] at hne
        | some n =>
          have hsame := blockCommentLength?_take hblock ((x ++ rest).drop n ++ more)
          rw [← List.append_assoc, List.take_append_drop, List.append_assoc] at hsame
          simp only [List.cons_append, commentLength, hblock, hsame]
    · rw [List.cons_append, List.cons_append, commentLength_eq_zero hopen,
        commentLength_eq_zero hopen]

theorem Found.directive (h : Found ('#' :: cs) kind n) : directiveLength ('#' :: cs) ≠ 0 := by
  intro hzero
  have hstray : Stray ('#' :: cs) := by
    intro rule hrule
    rcases List.mem_append.mp (show rule ∈ [_, _] ++ rules.drop 2 from hrule) with hmem | hmem
    · simp only [List.mem_cons, List.not_mem_nil, or_false] at hmem
      rcases hmem with rfl | rfl
      · exact length_of_starts (i := 0) (n := 1) (by decide) _ (by simp [rules])
      · exact hzero
    · exact length_of_starts (i := 2) (n := 11) (by decide) rule hmem
  rw [← firstMatch?_eq_some_iff, firstMatch?_eq_none_iff.mpr hstray] at h
  cases h

theorem directiveLength_append_of_found (h : Found (a :: cs) kind n) (more : List Char) :
    directiveLength (a :: cs ++ more) = directiveLength (a :: cs) := by
  by_cases ha : a = '#'
  · subst ha
    exact contained_directive.append_of_ne_zero h.directive more
  · rw [List.cons_append, directiveLength_of_ne ha, directiveLength_of_ne ha]

theorem spanLength_append_of_exists {p : Char → Bool} (h : ∃ c ∈ cs, p c = false)
    (more : List Char) : spanLength p (cs ++ more) = spanLength p cs := by
  rcases spanLength_append_cases p cs more with ⟨hall, -⟩ | ⟨-, hsame⟩
  · obtain ⟨c, hc, hpc⟩ := h
    have htake : cs.takeWhile p = cs := (List.takeWhile_prefix p).eq_of_length hall
    rw [← htake] at hc
    exact absurd (List.all_eq_true.mp List.all_takeWhile c hc) (by simp [hpc])
  · exact hsame

/-- **A piece stays what it is when text is added behind a line feed**, unless it is white space up
to the end or opens a comment that is not closed. -/
theorem Found.append {x : List Char} (h : Found (a :: (x ++ rest)) kind n) (hrest : Break rest)
    (hmore : Break (rest ++ more))
    (hclosed : ∀ y, a :: (x ++ rest) = '/' :: '*' :: y → commentLength ('/' :: '*' :: y) ≠ 0)
    (hblank : ∃ c ∈ a :: (x ++ rest), Text.isBlank c = false) :
    Found (a :: (x ++ rest) ++ more) kind n := by
  have hsame : ∀ rule ∈ rules, rule.length (a :: (x ++ rest) ++ more) =
      rule.length (a :: (x ++ rest)) := by
    have hsettled : ∀ rule ∈ (rules.drop 2).take 10,
        rule.length (a :: (x ++ rest) ++ more) = rule.length (a :: (x ++ rest)) := by
      intro rule hrule
      have hrule := settled_of_mem hrule a x
      rw [hrule rest hrest, List.cons_append, List.append_assoc, hrule _ hmore]
    intro rule hrule
    rcases List.mem_append.mp (show rule ∈ [_, _] ++ ((rules.drop 2).take 10 ++ [_]) from hrule)
      with hfirst | hothers
    · simp only [List.mem_cons, List.not_mem_nil, or_false] at hfirst
      rcases hfirst with rfl | rfl
      · exact commentLength_append hrest hmore hclosed
      · exact directiveLength_append_of_found h more
    · rcases List.mem_append.mp hothers with hmem | hlast
      · exact hsettled rule hmem
      · rw [List.mem_singleton.mp hlast]
        exact spanLength_append_of_exists hblank more
  obtain ⟨before, rule, after, hrules, hbefore, hkind, hlength, hpos⟩ := h
  refine ⟨before, rule, after, hrules, ?_, hkind, ?_, hpos⟩
  · intro r hr
    rw [hsame r (by simp [hrules, hr]), hbefore r hr]
  · rw [hsame rule (by simp [hrules]), hlength]

/-! ### White space -/

theorem Found.unique {kind' : Option TokenKind} {n' : Nat} (h : Found cs kind n)
    (h' : Found cs kind' n') :
    kind = kind' ∧ n = n' := by
  rw [← firstMatch?_eq_some_iff] at h h'
  rw [h] at h'
  cases h'
  exact ⟨rfl, rfl⟩

theorem not_isDigit_of_isBlank {c : Char} (h : Text.isBlank c = true) : Text.isDigit c = false := by
  rw [Bool.eq_false_iff]
  intro hdigit
  simp [not_isBlank_of_isDigit hdigit] at h

theorem found_blank {c : Char} (cs : List Char) (h : Text.isBlank c = true) :
    Found (c :: cs) none (spanLength Text.isBlank (c :: cs)) := by
  have hword : isWordStart c = false := by
    rw [Bool.eq_false_iff]
    intro hstart
    exact absurd h (by simp [not_isBlank_of_isWordChar (isWordChar_of_isWordStart hstart)])
  have hsigns : c ∉ '#' :: '\'' :: '"' :: (shortOperators ++ delimiters) :=
    not_mem_of_all (by decide) h
  have hstarts : ∀ p ∈ starts.take 12, p c = false := by
    simp [shortOperators, delimiters] at hsigns
    simp [starts, longOperators, shortOperators, delimiters, hsigns, hword,
      not_isDigit_of_isBlank h]
  exact ⟨rules.take 12, ⟨none, spanLength Text.isBlank⟩, [], rfl, length_of_starts (i := 0) hstarts,
    rfl, rfl,
    by simp [spanLength, h]⟩

namespace Lexes

variable {ls ms : List Lexeme}

/-- The first piece of a text, and the lexemes behind it. -/
theorem step (h : Lexes cs ls []) (hfound : Found cs kind n) :
    ∃ others, ls = (Piece.lexeme? ⟨kind, cs.take n⟩).toList ++ others ∧
      Lexes (cs.drop n) others [] := by
  obtain ⟨pieces, htiling, rfl⟩ := h
  cases htiling with
  | done =>
    rw [← firstMatch?_eq_some_iff, firstMatch?_eq_none_iff.mpr stray_nil] at hfound
    cases hfound
  | @piece kind' chars cs pieces hfound' htail =>
    obtain ⟨rfl, rfl⟩ := hfound'.unique hfound
    refine ⟨pieces.filterMap Piece.lexeme?, ?_, pieces, ?_, rfl⟩
    · rw [List.take_left, List.filterMap_cons]
      cases Piece.lexeme? ⟨kind', chars⟩ with
      | none => rfl
      | some l => rfl
    · rwa [List.drop_left]

theorem eq_nil (h : Lexes [] ls []) : ls = [] := by
  obtain ⟨pieces, htiling, rfl⟩ := h
  have hpieces := tile_eq_iff.mpr ⟨htiling, stray_nil⟩
  cases hpieces
  rfl

theorem dropWhile (h : Lexes cs ls []) : Lexes (cs.dropWhile Text.isBlank) ls [] := by
  cases cs with
  | nil => exact h
  | cons c cs =>
    by_cases hc : Text.isBlank c = true
    · obtain ⟨others, rfl, hothers⟩ := h.step (found_blank cs hc)
      rwa [drop_spanLength] at hothers
    · simpa [hc] using h

theorem blanks {w : List Char} (hne : w ≠ []) (hw : ∀ c ∈ w, Text.isBlank c = true)
    (h : Lexes cs ls []) : Lexes (w ++ cs) ls [] := by
  obtain ⟨c, w, rfl⟩ := List.exists_cons_of_ne_nil hne
  have hspan : (c :: w ++ cs).takeWhile Text.isBlank = c :: w ++ cs.takeWhile Text.isBlank :=
    List.takeWhile_append_of_pos hw
  have hsplit : c :: w ++ cs = c :: w ++ cs.takeWhile Text.isBlank ++
      cs.dropWhile Text.isBlank := by
    rw [List.append_assoc, List.takeWhile_append_dropWhile]
  have hfound := found_blank (w ++ cs) (hw c List.mem_cons_self)
  rw [← List.cons_append, spanLength, hspan, hsplit] at hfound
  rw [hsplit]
  exact (dropped hfound).append h.dropWhile

theorem eq_nil_of_blank (h : Lexes cs ls []) (hcs : ∀ c ∈ cs, Text.isBlank c = true) : ls = [] := by
  have hdrop := h.dropWhile
  rw [List.dropWhile_eq_nil_iff.mpr hcs] at hdrop
  exact hdrop.eq_nil

end Lexes

/-! ### Putting texts together -/

/-- The lexemes would open a comment if nothing stood between them. -/
def OpensComment (l m : Lexeme) : Prop :=
  l = ⟨.operator, "/"⟩ ∧ (m = ⟨.operator, "*"⟩ ∨ m = ⟨.operator, "*="⟩)

/-- A comment that is not closed is a division sign and a star. -/
theorem Lexes.opensComment {y : List Char} {ls : List Lexeme} (h : Lexes ('/' :: '*' :: y) ls [])
    (hopen : commentLength ('/' :: '*' :: y) = 0) :
    ∃ l m others, ls = l :: m :: others ∧ OpensComment l m := by
  have hslash : Found ('/' :: '*' :: y) (some .operator) 1 :=
    found_shortOperator (by decide) hopen fun b hb => by cases hb; decide
  obtain ⟨others, rfl, hstar⟩ := h.step hslash
  by_cases hassign : ∃ z, y = '=' :: z
  · obtain ⟨z, rfl⟩ := hassign
    obtain ⟨others, rfl, -⟩ :=
      hstar.step (firstMatch?_eq_some_iff.mp rfl : Found _ (some .operator) 2)
    exact ⟨_, _, others, rfl, rfl, Or.inr rfl⟩
  · have hstar' : Found ('*' :: y) (some .operator) 1 := by
      refine found_shortOperator (by decide) (commentLength_of_ne (by decide)) fun b hb hmem =>
        hassign ?_
      obtain ⟨z, rfl⟩ := List.head?_eq_some_iff.mp hb
      exact ⟨z, by simpa [longOperators] using hmem⟩
    obtain ⟨others, rfl, -⟩ := hstar.step hstar'
    exact ⟨_, _, others, rfl, rfl, Or.inl rfl⟩

/-- A text that is not all blank, cut where the one behind it begins a line. -/
theorem exists_break (h : Break more ∨ cs.getLast? = some '\n')
    (hcs : ∃ c ∈ cs, Text.isBlank c = false) :
    ∃ a x rest, cs = a :: (x ++ rest) ∧ Break rest ∧ Break (rest ++ more) := by
  obtain ⟨c, hc, hblank⟩ := hcs
  rcases h with hmore | hlast
  · obtain ⟨a, x, rfl⟩ := List.exists_cons_of_ne_nil (List.ne_nil_of_mem hc)
    exact ⟨a, x, [], by simp, break_nil, hmore⟩
  · obtain ⟨front, rfl⟩ := List.getLast?_eq_some_iff.mp hlast
    cases front with
    | nil =>
      rw [List.nil_append, List.mem_singleton] at hc
      subst hc
      exact absurd hblank (by decide)
    | cons a x => exact ⟨a, x, ['\n'], rfl, break_lineFeed [], break_lineFeed more⟩

/-- **The lexemes of two texts put together** are those of the one and then those of the other, if
the second text begins a line and the first leaves no comment open. -/
theorem Lexes.join {ls ms : List Lexeme} (h : Lexes cs ls []) (hmore : Lexes more ms [])
    (hline : cs = [] ∨ Break more ∨ cs.getLast? = some '\n')
    (hls : ls.IsChain fun l m => ¬ OpensComment l m) :
    Lexes (cs ++ more) (ls ++ ms) [] := by
  obtain ⟨pieces, htiling, rfl⟩ := h
  -- The induction follows the pieces of the first text; its last one, if it is blank, grows.
  induction htiling with
  | done => exact hmore
  | @piece kind chars cs pieces hfound htail ih =>
    have hne : chars ≠ [] := by
      obtain ⟨-, -, -, -, -, -, -, hpos⟩ := hfound
      exact List.length_pos_iff.mp hpos
    have hlexes : Lexes (chars ++ cs) _ [] := ⟨⟨kind, chars⟩ :: pieces, .piece hfound htail, rfl⟩
    by_cases hall : ∀ c ∈ chars ++ cs, Text.isBlank c = true
    · rw [hlexes.eq_nil_of_blank hall, List.nil_append]
      exact hmore.blanks (by simp [hne]) hall
    · have hblank : ∃ c ∈ chars ++ cs, Text.isBlank c = false := by simpa using hall
      have hline := hline.resolve_left (by simp [hne])
      obtain ⟨a, x, rest, htext, hrest, hbreak⟩ := exists_break hline hblank
      have hclosed : ∀ y, chars ++ cs = '/' :: '*' :: y → commentLength ('/' :: '*' :: y) ≠ 0 := by
        intro y hy hopen
        rw [hy] at hlexes
        obtain ⟨l, m, others, hopens, hcomm⟩ := hlexes.opensComment hopen
        rw [hopens] at hls
        exact (List.isChain_cons_cons.mp hls).1 hcomm
      have hfound' : Found (chars ++ cs ++ more) kind chars.length := by
        rw [htext] at hfound hclosed hblank ⊢
        exact hfound.append hrest hbreak hclosed hblank
      have htailLine : cs = [] ∨ Break more ∨ cs.getLast? = some '\n' := by
        by_cases hcs : cs = []
        · exact Or.inl hcs
        · rw [List.getLast?_append_of_ne_nil chars hcs] at hline
          exact Or.inr hline
      have htailChain : (pieces.filterMap Piece.lexeme?).IsChain fun l m => ¬ OpensComment l m := by
        rw [List.filterMap_cons] at hls
        cases hpiece : Piece.lexeme? ⟨kind, chars⟩ with
        | none => rwa [hpiece] at hls
        | some l =>
          rw [hpiece] at hls
          exact hls.tail
      obtain ⟨others, hothers, hlexemes⟩ := ih htailLine htailChain
      rw [List.append_assoc] at hfound' ⊢
      refine ⟨⟨kind, chars⟩ :: others, .piece hfound' hothers, ?_⟩
      rw [List.filterMap_cons, List.filterMap_cons, hlexemes]
      cases Piece.lexeme? ⟨kind, chars⟩ with
      | none => rfl
      | some l => rfl

end SmallCpp.Lexical

namespace SmallCpp.Source

open Lexical

/-! ### Sources put together -/

/-- A line feed behind a carriage return makes one end of line with it. -/
theorem unifyLineEnds_lineFeed (x y : List Char) :
    unifyLineEnds (x ++ '\n' :: y) = unifyLineEnds x ++ '\n' :: unifyLineEnds y ∨
      unifyLineEnds (x ++ '\n' :: y) = unifyLineEnds x ++ unifyLineEnds y ∧
        (unifyLineEnds x).getLast? = some '\n' := by
  by_cases hlast : x.getLast? = some '\r'
  · obtain ⟨front, rfl⟩ := List.getLast?_eq_some_iff.mp hlast
    have hcut : ∀ back, IsCut front ('\r' :: back) := fun _ _ hback => nomatch hback
    right
    rw [List.append_assoc, List.singleton_append, unifyLineEnds_append (hcut _),
      unifyLineEnds_append (hcut [])]
    simp [unifyLineEnds]
  · exact .inl (unifyLineEnds_append fun h => absurd h hlast)

theorem normalize_append (a b : String) :
    normalize (a ++ "\n" ++ b) = normalize a ++ '\n' :: normalize b ∨
      normalize (a ++ "\n" ++ b) = normalize a ++ normalize b ∧
        (normalize a).getLast? = some '\n' := by
  have htext : (a ++ "\n" ++ b).toList = a.toList ++ '\n' :: b.toList := by simp
  have hkept : isZeroWidth '\n' = false := by decide
  rw [normalize_eq, normalize_eq a, normalize_eq b, htext]
  rcases unifyLineEnds_lineFeed a.toList b.toList with h | ⟨h, hlast⟩
  · left
    rw [h, List.filter_append, List.filter_cons_of_pos (by simp [hkept])]
  · right
    obtain ⟨front, hfront⟩ := List.getLast?_eq_some_iff.mp hlast
    refine ⟨by rw [h, List.filter_append], ?_⟩
    simp [hfront, hkept]

/-- The lexemes of a text are those of its tokens. -/
theorem lexes_of_tokenize {source : Source} {ts : List Token} {e : Token}
    (h : source.tokenize = .ok (ts ++ [e])) : Lexes source.chars (ts.map Token.lexeme) [] := by
  obtain ⟨pieces, htiling, hsplit⟩ := tiling_of_tokenize h
  obtain ⟨rfl, -⟩ := List.append_inj' hsplit rfl
  exact ⟨pieces, htiling, htiling.map_lexeme_tokensIn.symm⟩

/-- **The tokens of two sources put together**, each on lines of its own, are those of the two, in
order and up to their places, if the first leaves no comment open. -/
theorem tokenize_append {a b file file' : String} {ts us : List Token} {e e' : Token}
    (ha : (ofText a file).tokenize = .ok (ts ++ [e]))
    (hb : (ofText b file').tokenize = .ok (us ++ [e']))
    (hts : ts.IsChain fun t u => ¬ OpensComment t.lexeme u.lexeme) (file'' : String) :
    ∃ vs v, (ofText (a ++ "\n" ++ b) file'').tokenize = .ok (vs ++ [v]) ∧ v.kind = .endOfInput ∧
      vs.map Token.lexeme = (ts ++ us).map Token.lexeme := by
  have hla : Lexes (normalize a) (ts.map Token.lexeme) [] := lexes_of_tokenize ha
  have hlb : Lexes (normalize b) (us.map Token.lexeme) [] := lexes_of_tokenize hb
  have hplain : (ts.map Token.lexeme).IsChain fun l m => ¬ OpensComment l m :=
    (List.isChain_map Token.lexeme).mpr hts
  have hjoined : Lexes (ofText (a ++ "\n" ++ b) file'').chars ((ts ++ us).map Token.lexeme) [] := by
    change Lexes (normalize _) _ _
    rw [List.map_append]
    rcases normalize_append a b with h | ⟨h, hlast⟩
    · have hlb' : Lexes ('\n' :: normalize b) (us.map Token.lexeme) [] :=
        hlb.blanks (w := ['\n']) (by simp) (by simp; decide)
      rw [h]
      exact hla.join hlb' (Or.inr (Or.inl (break_lineFeed _))) hplain
    · rw [h]
      exact hla.join hlb (Or.inr (Or.inr hlast)) hplain
  obtain ⟨vs, hvs, hlexemes⟩ := tokenize_of_lexes hjoined
  exact ⟨vs, _, hvs, rfl, hlexemes⟩

end SmallCpp.Source
