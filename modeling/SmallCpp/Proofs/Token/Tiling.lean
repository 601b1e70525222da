import SmallCpp.Proofs.Line
import SmallCpp.Proofs.Source
import SmallCpp.Proofs.Token.Rule
import SmallCpp.Token.Lexer

/-!
# Sources as tilings

A source is cut into pieces from its front.  The judgment `Tiling` says that a list of pieces covers
a text up to a rest, each piece being what the first matching rule finds where it starts; since a
rule may look behind its piece, a piece is judged with the text that really follows it.  Tilings can
be put together, and a text has only one that ends where no rule matches.

## Main results

* `tokenize_tiles_or_stops` — **the tokens of a source** are its pieces without blanks and comments,
  or the first character that no rule matches is reported.
-/

namespace SmallCpp.Lexical

variable {rest : List Char} {pieces : List Piece}

/-- The pieces cover a text up to `rest`, and each is found by the first matching rule. -/
inductive Tiling (rest : List Char) : List Char → List Piece → Prop where
  | done : Tiling rest rest []
  | piece {kind : Option TokenKind} {chars cs : List Char} {pieces : List Piece} :
    Found (chars ++ cs) kind chars.length → Tiling rest cs pieces →
      Tiling rest (chars ++ cs) (⟨kind, chars⟩ :: pieces)

namespace Tiling

variable {cs : List Char}

/-- A tiling up to a text and one of that text make one tiling. -/
theorem append {mid : List Char} {others : List Piece} (h : Tiling mid cs pieces)
    (h' : Tiling rest mid others) : Tiling rest cs (pieces ++ others) := by
  induction h with
  | done => exact h'
  | piece hfound _ ih => exact .piece hfound ih

/-- The characters of the pieces are those in front of the rest. -/
theorem chars_eq (h : Tiling rest cs pieces) : cs = pieces.flatMap (·.chars) ++ rest := by
  induction h with
  | done => rfl
  | piece _ _ ih => rw [ih]; simp

/-- Pieces that are dropped are white space and comments. -/
theorem trivia (h : Tiling rest cs pieces) :
    ∀ piece ∈ pieces, piece.kind = none → Trivia piece.chars := by
  induction h with
  | done => simp
  | @piece kind chars cs pieces hfound _ ih =>
    intro piece hpiece hkind
    rcases List.mem_cons.mp hpiece with rfl | hmem
    · subst hkind
      simpa using hfound.trivia
    · exact ih piece hmem hkind

/-- **Where no rule matches, a text can be cut**: the pieces before tile what stands before. -/
theorem truncate (h : Tiling rest cs pieces) (hrest : Stray rest) :
    Tiling [] (pieces.flatMap (·.chars)) pieces := by
  induction h with
  | done => exact .done
  | @piece kind chars cs pieces hfound htail ih =>
    rw [List.flatMap_cons]
    refine .piece ?_ ih
    rw [htail.chars_eq, ← List.append_assoc] at hfound
    exact hfound.truncate hrest (by simp)

/-- Cutting follows a tiling that cannot be continued. -/
theorem tileWith_eq (h : Tiling rest cs pieces) (hrest : Stray rest) {fuel : Nat}
    (hfuel : cs.length ≤ fuel) : tileWith fuel cs = (pieces, rest) := by
  induction h generalizing fuel with
  | done =>
    cases fuel with
    | zero => rfl
    | succ fuel => rw [tileWith, firstMatch?_eq_none_iff.mpr hrest]
  | @piece kind chars cs pieces hfound htail ih =>
    have hpos : 0 < chars.length := by
      obtain ⟨-, -, -, -, -, -, -, hpos⟩ := hfound
      exact hpos
    rw [List.length_append] at hfuel
    obtain ⟨fuel, rfl⟩ : ∃ k, fuel = k + 1 := ⟨fuel - 1, by omega⟩
    rw [tileWith, firstMatch?_eq_some_iff.mpr hfound]
    dsimp only
    rw [List.drop_left, List.take_left, ih (by omega)]

end Tiling

theorem tiling_tileWith {fuel : Nat} {cs : List Char} (hfuel : cs.length ≤ fuel) :
    Tiling (tileWith fuel cs).2 cs (tileWith fuel cs).1 ∧ Stray (tileWith fuel cs).2 := by
  induction fuel generalizing cs with
  | zero =>
    obtain rfl : cs = [] := List.eq_nil_of_length_eq_zero (by omega)
    exact ⟨.done, stray_nil⟩
  | succ fuel ih =>
    rw [tileWith]
    cases hmatch : firstMatch? cs with
    | none => exact ⟨.done, firstMatch?_eq_none_iff.mp hmatch⟩
    | some found =>
      obtain ⟨kind, n⟩ := found
      have hfound := firstMatch?_eq_some_iff.mp hmatch
      have hn : 0 < n := by
        obtain ⟨-, -, -, -, -, -, -, hpos⟩ := hfound
        exact hpos
      have hlen : (cs.take n).length = n := by
        rw [List.length_take, Nat.min_eq_left hfound.le_length]
      have hfuel' : (cs.drop n).length ≤ fuel := by
        rw [List.length_drop]
        omega
      obtain ⟨htail, hstray⟩ := ih hfuel'
      have hcs : cs.take n ++ cs.drop n = cs := List.take_append_drop n cs
      have hfront : Found (cs.take n ++ cs.drop n) kind (cs.take n).length := by
        rw [hcs, hlen]
        exact hfound
      refine ⟨?_, hstray⟩
      have htiling := Tiling.piece hfront htail
      rwa [hcs] at htiling

/-- **A text is cut in one way**: by the tiling that ends where no rule matches. -/
theorem tile_eq_iff {cs : List Char} :
    tile cs = (pieces, rest) ↔ Tiling rest cs pieces ∧ Stray rest := by
  constructor
  · intro h
    have htile := tiling_tileWith (Nat.le_refl cs.length)
    rw [← tile, h] at htile
    exact htile
  · rintro ⟨htiling, hstray⟩
    exact htiling.tileWith_eq hstray (Nat.le_refl _)

/-- Every text has a tiling that cannot be continued. -/
theorem exists_tiling (cs : List Char) : ∃ pieces rest, Tiling rest cs pieces ∧ Stray rest :=
  ⟨_, _, tiling_tileWith (Nat.le_refl cs.length)⟩

/-! ### Tokens of pieces -/

/-- Each piece with the offset at which it starts, the first one at `offset`. -/
def placed (offset : Nat) : List Piece → List (Nat × Piece)
  | [] => []
  | piece :: pieces => (offset, piece) :: placed (offset + piece.chars.length) pieces

/-- The token of a piece of `cs` at an offset: the text of `cs` there, unless it is dropped. -/
def tokenAt (cs : List Char) (offset : Nat) (piece : Piece) : Option Token :=
  piece.kind.map fun kind =>
    ⟨kind, String.ofList ((cs.drop offset).take piece.chars.length), offset,
    Source.locate cs offset⟩

theorem le_of_mem_placed {n offset : Nat} {piece : Piece} (h : (offset, piece) ∈ placed n pieces) :
    offset + piece.chars.length ≤ n + (pieces.flatMap (·.chars)).length := by
  induction pieces generalizing n with
  | nil => exact absurd h List.not_mem_nil
  | cons first pieces ih =>
    rw [List.flatMap_cons, List.length_append]
    rcases List.mem_cons.mp h with heq | hmem
    · cases heq
      omega
    · have hle := ih hmem
      omega

theorem tokenAt_append {front : List Char} {offset : Nat} {piece : Piece}
    (h : offset + piece.chars.length ≤ front.length) (rest : List Char) :
    tokenAt (front ++ rest) offset piece = tokenAt front offset piece := by
  have htext : ((front ++ rest).drop offset).take piece.chars.length =
      (front.drop offset).take piece.chars.length := by
    rw [List.drop_append_of_le_length (by omega), List.take_append_of_le_length (by simp; omega)]
  rw [tokenAt, htext, Source.locate_append (by omega), tokenAt]

/-- The tokens among the pieces of `cs`, which start at its front. -/
def tokensIn (cs : List Char) (pieces : List Piece) : List Token :=
  (placed 0 pieces).filterMap fun (offset, piece) => tokenAt cs offset piece

theorem mem_tokensIn {cs : List Char} {t : Token} (h : t ∈ tokensIn cs pieces) :
    t.position = Source.locate cs t.offset ∧ t.text.toList <+: cs.drop t.offset := by
  obtain ⟨⟨offset, piece⟩, -, hsome⟩ := List.mem_filterMap.mp h
  obtain ⟨kind, -, rfl⟩ := Option.map_eq_some_iff.mp hsome
  refine ⟨rfl, ?_⟩
  rw [String.toList_ofList]
  exact List.take_prefix _ _

/-- The token that ends a text at an offset. -/
def endAt (cs : List Char) (offset : Nat) : Token :=
  ⟨.endOfInput, "", offset, Source.locate cs offset⟩

/-- Tokens in sequence carry the offsets of their pieces in the whole text. -/
theorem tokensFrom_eq {cs : List Char} {offset : Nat}
    (h : cs.drop offset = pieces.flatMap (·.chars) ++ rest) :
    tokensFrom (Source.lineStarts cs) offset pieces =
      ((placed offset pieces).filterMap fun (offset, piece) => tokenAt cs offset piece,
        offset + (pieces.flatMap (·.chars)).length) := by
  induction pieces generalizing offset with
  | nil => rfl
  | cons piece pieces ih =>
    rw [List.flatMap_cons, List.append_assoc] at h
    have htail : cs.drop (offset + piece.chars.length) = pieces.flatMap (·.chars) ++ rest := by
      rw [← List.drop_drop, h, List.drop_left]
    have htext : (cs.drop offset).take piece.chars.length = piece.chars := by
      rw [h, List.take_left]
    rw [tokensFrom, ih htail]
    cases hkind : piece.kind with
    | none => simp [placed, tokenAt, hkind, Nat.add_assoc]
    | some kind => simp [placed, tokenAt, Source.locate, hkind, htext, Nat.add_assoc]

theorem Tiling.tokensFrom_eq {cs : List Char} (h : Tiling rest cs pieces) :
    tokensFrom (Source.lineStarts cs) 0 pieces =
    (tokensIn cs pieces, (pieces.flatMap (·.chars)).length) := by
  have hcs : cs.drop 0 = pieces.flatMap (·.chars) ++ rest := h.chars_eq
  rw [Lexical.tokensFrom_eq hcs, Nat.zero_add]
  rfl

end SmallCpp.Lexical

namespace SmallCpp

open Lexical

variable {source : Source} {pieces : List Piece} {rest : List Char}

/-- A text that is tiled up to its end has the tokens of its pieces. -/
theorem Source.tokenize_of_tiling (h : Tiling [] source.chars pieces) : source.tokenize =
      .ok (tokensIn source.chars pieces ++ [endAt source.chars source.chars.length]) := by
  have hchars : source.chars = pieces.flatMap (·.chars) := by simpa using h.chars_eq
  rw [Source.tokenize, tile_eq_iff.mpr ⟨h, stray_nil⟩]
  dsimp only
  rw [h.tokensFrom_eq, ← hchars]
  rfl

/-- A text that is tiled up to a stray character is refused there. -/
theorem Source.tokenize_of_stray {c : Char} (h : Tiling (c :: rest) source.chars pieces)
    (hrest : Stray (c :: rest)) :
    source.tokenize = .error (source.strayError (pieces.flatMap (·.chars)).length
      (Source.locate source.chars (pieces.flatMap (·.chars)).length) c) := by
  rw [Source.tokenize, tile_eq_iff.mpr ⟨h, hrest⟩]
  dsimp only
  rw [h.tokensFrom_eq]
  rfl

/-- The tokens of a source are those of pieces that tile it. -/
theorem Source.tiling_of_tokenize {tokens : List Token} (h : source.tokenize = .ok tokens) :
    ∃ pieces, Tiling [] source.chars pieces ∧
      tokens = tokensIn source.chars pieces ++ [endAt source.chars source.chars.length] := by
  obtain ⟨pieces, rest, htiling, hstray⟩ := exists_tiling source.chars
  cases rest with
  | nil => exact ⟨pieces, htiling, Except.ok.inj (h.symm.trans (Source.tokenize_of_tiling htiling))⟩
  | cons c rest =>
    rw [Source.tokenize_of_stray htiling hstray] at h
    cases h

/-- The front of a text up to a stray character has the tokens of its pieces: the pieces tile the
front alone, and a token depends on the text up to its end only. -/
theorem Source.tokenize_front {cs : List Char}
    (h : Tiling rest cs pieces) (hrest : Stray rest) (hclean : ∀ c ∈ cs, IsClean c)
    (file : String) :
    (Source.ofText (String.ofList (pieces.flatMap (·.chars))) file).tokenize =
      .ok (tokensIn cs pieces ++ [endAt cs (pieces.flatMap (·.chars)).length]) := by
  have hcut := h.truncate hrest
  have hchars : (Source.ofText (String.ofList (pieces.flatMap (·.chars))) file).chars =
      pieces.flatMap (·.chars) := by
    rw [Source.ofText, normalize_of_isClean, String.toList_ofList]
    intro c hc
    rw [String.toList_ofList] at hc
    exact hclean c (by rw [h.chars_eq]; exact List.mem_append_left rest hc)
  have hlast : Source.locate (pieces.flatMap (·.chars)) (pieces.flatMap (·.chars)).length =
      Source.locate cs (pieces.flatMap (·.chars)).length := by
    rw [h.chars_eq, Source.locate_append (Nat.le_refl _)]
  have htoks : tokensIn (pieces.flatMap (·.chars)) pieces = tokensIn cs pieces := by
    refine List.filterMap_congr fun (offset, piece) hmem => ?_
    have hle := le_of_mem_placed hmem
    rw [Nat.zero_add] at hle
    rw [h.chars_eq]
    exact (tokenAt_append hle rest).symm
  rw [← hchars] at hcut
  rw [Source.tokenize_of_tiling hcut, hchars, htoks, endAt, endAt, hlast]

/-- **The tokens of a source tile it, or the first stray character is reported.**  Either the
normalized text is covered by pieces that the first matching rules find, the tokens are the pieces
other than white space and comments, each with the text at its offset, and one token ends them.  Or
pieces cover the text up to an offset where no rule matches, the character there is reported, and
the text in front of it alone has the tokens of these pieces. -/
theorem tokenize_tiles_or_stops (text file : String) :
    let source := Source.ofText text file
    let cs := Source.normalize text
    (∃ pieces, Tiling [] cs pieces ∧ (∀ piece ∈ pieces, piece.kind = none → Trivia piece.chars) ∧
      source.tokenize = .ok (tokensIn cs pieces ++ [endAt cs cs.length])) ∨
    (∃ pieces p c, cs[p]? = some c ∧ (∀ rule ∈ rules, rule.length (cs.drop p) = 0) ∧
      Tiling (cs.drop p) cs pieces ∧
      (∀ piece ∈ pieces, piece.kind = none → Trivia piece.chars) ∧
      source.tokenize = .error (source.strayError p (Source.locate cs p) c) ∧
      (Source.ofText (String.ofList (cs.take p)) file).tokenize =
        .ok (tokensIn cs pieces ++ [endAt cs p])) := by
  intro source cs
  obtain ⟨pieces, rest, htiling, hstray⟩ := exists_tiling cs
  cases rest with
  | nil => exact Or.inl ⟨pieces, htiling, htiling.trivia, Source.tokenize_of_tiling htiling⟩
  | cons c rest =>
    have hcs : cs = pieces.flatMap (·.chars) ++ c :: rest := htiling.chars_eq
    have hdrop : cs.drop (pieces.flatMap (·.chars)).length = c :: rest := by
      rw [hcs, List.drop_left]
    have htake : cs.take (pieces.flatMap (·.chars)).length = pieces.flatMap (·.chars) := by
      rw [hcs, List.take_left]
    refine Or.inr ⟨pieces, (pieces.flatMap (·.chars)).length, c, ?_, ?_, ?_, htiling.trivia,
      Source.tokenize_of_stray htiling hstray, ?_⟩
    · rw [hcs, List.getElem?_append_right (Nat.le_refl _)]
      simp
    · rw [hdrop]
      exact hstray
    · rw [hdrop]
      exact htiling
    · rw [htake]
      exact Source.tokenize_front htiling hstray
        (fun c hc => Source.isClean_of_mem_normalize hc) file

end SmallCpp
