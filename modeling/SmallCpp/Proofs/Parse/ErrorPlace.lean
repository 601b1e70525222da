import SmallCpp.Proofs.Pipeline
import SmallCpp.Proofs.Token.Respaced

/-!
# Where errors of reading point

A source is refused at a character where no token begins, or at a token that the grammar does not
allow. Either way the error records an offset, a text, a place and a line, and all of them belong to
the normalized text: the place and the line are those of the offset, and the text stands there.
Apart from errors, only an integer literal of too many digits keeps a source from being read.

## Main results

* `parse_or_marks` — **every error of reading a source points into it.**
-/

namespace SmallCpp

open Lexical Parse

variable {e : Error} {t : Token} {text file : String}

/-! ### Errors at offsets -/

/-- The error points at the offset `p` of a source with the text `cs`: its place and its line are
those of the offset, and what it records stands there, or the text ends there. -/
structure Error.Marks (e : Error) (file : String) (cs : List Char) (p : Nat) : Prop where
  le : p ≤ cs.length
  location : e.location =
    some ⟨file, (cs.take p).count '\n' + 1, (Source.lineBefore cs p).length + 1⟩
  sourceLine : e.sourceLine =
    some (String.ofList (Source.lineBefore cs p ++ Source.lineBehind cs p))
  /-- The offset and the text that are recorded. -/
  finding : ∃ found, e.cause.finding? = some ((p : Int), found) ∧
    (found ≠ "" ∧ found.toList <+: cs.drop p ∨ found = "end of input" ∧ p = cs.length)

section Marks

variable {cs : List Char} {p : Nat} {cause : Cause} {found : String}

theorem marks_of_locate (hle : p ≤ cs.length)
    (hloc : e.location = some ((Source.locate cs p).inFile file))
    (hline : e.sourceLine = Source.lineAt? (Source.lineTexts cs) (Source.locate cs p).line)
    (hfinding : e.cause.finding? = some ((p : Int), found))
    (hfound : found ≠ "" ∧ found.toList <+: cs.drop p ∨ found = "end of input" ∧ p = cs.length) :
    e.Marks file cs p where
  le := hle
  location := by
    rw [hloc, Source.locate_eq hle]
    rfl
  sourceLine := by rw [hline, Source.lineAt?_locate hle]
  finding := ⟨found, hfinding, hfound⟩

/-- A token has the place of its offset, and its text stands there. -/
structure Token.PlacedIn (t : Token) (cs : List Char) : Prop where
  position : t.position = Source.locate cs t.offset
  le : t.offset ≤ cs.length
  text : t.described ≠ "" ∧ t.described.toList <+: cs.drop t.offset ∨
    t.described = "end of input" ∧ t.offset = cs.length

theorem placedIn_of_prefix (hposition : t.position = Source.locate cs t.offset)
    (htext : t.text.toList <+: cs.drop t.offset) (hne : t.text.toList ≠ [])
    (hkind : t.kind ≠ .endOfInput) : t.PlacedIn cs := by
  have hdescribed : t.described = t.text := if_neg (by simpa using hkind)
  refine ⟨hposition, ?_, Or.inl ⟨?_, ?_⟩⟩
  · by_contra hlt
    rw [List.drop_eq_nil_of_le (by omega), List.prefix_nil] at htext
    exact hne htext
  · rw [hdescribed]
    simpa using hne
  · rw [hdescribed]
    exact htext

/-- An error at a token of a source points at the offset of the token. -/
theorem Token.marks (ht : t.PlacedIn cs) (herr : ErrorAt t cause t.position) :
    (errorAt file (Source.lineTexts cs) cause t.position).Marks file cs t.offset := by
  apply marks_of_locate ht.le
  · rw [errorAt, ht.position]
  · rw [errorAt, ht.position]
  · exact herr.finding
  · exact ht.text

end Marks

theorem Source.marks_of_tokenize (h : (Source.ofText text file).tokenize = .error e) :
    ∃ p, e.phase = .lexical ∧ e.Marks file (Source.normalize text) p := by
  obtain ⟨pieces, rest, htiling, hstray⟩ := exists_tiling (Source.ofText text file).chars
  cases rest with
  | nil =>
    rw [Source.tokenize_of_tiling htiling] at h
    cases h
  | cons c rest =>
    rw [Source.tokenize_of_stray htiling hstray] at h
    cases h
    have hcs : Source.normalize text = pieces.flatMap (·.chars) ++ c :: rest := htiling.chars_eq
    have hchars : (Source.ofText text file).chars = Source.normalize text := rfl
    refine ⟨(pieces.flatMap (·.chars)).length, rfl, marks_of_locate ?_ ?_ ?_ rfl (Or.inl ⟨?_, ?_⟩)⟩
    · simp [hcs]
    · rw [Source.strayError, hchars]
      rfl
    · rw [Source.strayError, Source.texts, hchars]
    · simp [← String.toList_inj]
    · simp [hcs]

/-- The tokens of a source have places in it. -/
theorem Source.placedIn_of_tokenize {tokens : List Token}
    (h : (Source.ofText text file).tokenize = .ok tokens) :
    ∀ t ∈ tokens, t.PlacedIn (Source.normalize text) := by
  have hcut := Source.cut_of_tokenize h
  obtain ⟨pieces, -, rfl⟩ := Source.tiling_of_tokenize h
  obtain ⟨ts, hsplit, hts⟩ := Source.split_of_tokenize h
  obtain ⟨rfl, -⟩ := List.append_inj' hsplit rfl
  intro t ht
  rcases List.mem_append.mp ht with hmem | hmem
  · obtain ⟨hposition, htext⟩ := mem_tokensIn hmem
    exact placedIn_of_prefix hposition htext ((hcut t ht).toList_ne_nil (hts t hmem).1)
      (hts t hmem).1
  · rw [List.mem_singleton.mp hmem]
    exact ⟨rfl, Nat.le_refl _, Or.inr ⟨rfl, rfl⟩⟩

/-- **Every error of reading a source points into it.**  A source is read; or it is refused with an
error of the lexical rules or of the grammar that points at an offset of the normalized text; or an
integer literal of it has more than 4300 digits. -/
theorem parse_or_marks (text file : String) :
    let source := Source.ofText text file
    let cs := Source.normalize text
    (∃ program, source.parse = .ok program) ∨
    (∃ e p, source.parse = .error (.error e) ∧ (e.phase = .lexical ∨ e.phase = .grammar) ∧
      e.Marks file cs p) ∨
    ∃ tokens, source.tokenize = .ok tokens ∧ ∃ t ∈ tokens, t.kind = .number ∧
      (∀ d ∈ t.text.toList, Text.isDigit d = true) ∧ 4300 < t.text.length ∧
      source.parse = .error (.fault (.literalTooLong t.text.length)) := by
  intro source cs
  cases htoks : source.tokenize with
  | error e =>
    obtain ⟨p, hphase, hmarks⟩ := Source.marks_of_tokenize htoks
    have hparse : source.parse = .error (.error e) := by rw [Source.parse_eq, htoks]
    exact Or.inr (Or.inl ⟨e, p, hparse, Or.inl hphase, hmarks⟩)
  | ok tokens =>
    have hparse : source.parse = Program.ofTokens? tokens file (Source.lineTexts cs) := by
      rw [Source.parse_eq, htoks]
      rfl
    have hends := endsOnce_of_tokenize htoks
    cases hprog : Program.ofTokens? tokens file (Source.lineTexts cs) with
    | ok program => exact Or.inl ⟨program, hparse.trans hprog⟩
    | error rejection =>
      cases rejection with
      | error e =>
        obtain ⟨t, ht, cause, herr, rfl⟩ := error_of_ofTokens? hends hprog
        have hplaced := Source.placedIn_of_tokenize htoks t ht
        exact Or.inr (Or.inl ⟨_, t.offset, hparse.trans hprog, Or.inr herr.phase,
          Token.marks hplaced herr⟩)
      | fault f =>
        obtain ⟨t, ht, hfault⟩ := fault_of_ofTokens? hends hprog
        obtain ⟨hkind, hdigs, hlong, rfl⟩ :=
          tokenFault_of_cut (Source.cut_of_tokenize htoks t ht) hfault
        exact Or.inr (Or.inr ⟨tokens, rfl, t, ht, hkind, hdigs, hlong, hparse.trans hprog⟩)

end SmallCpp
