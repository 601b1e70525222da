import SmallCpp.Proofs.Parse.Reading

/-!
# String literals

Every text can be written as a string literal: a backslash goes in front of backslashes and quotes,
and a line feed and a carriage return, which no literal may contain, are written as a backslash and
a letter. All other characters stand for themselves, also those that open a comment, a directive or
a character literal outside of a string.

A written character is a unit of one or two characters.  Reading a literal goes through the text
unit by unit, once to find where the literal ends and once to resolve its escapes, so both facts are
shown for a unit in front of any text.

## Main results

* `stringLiteral_roundtrip` — **the literal of a text is one token, which is read as that text.**
-/

namespace SmallCpp

open Lexical

variable {cs : List Char} {c : Char} {s : String}

namespace Parse

/-- A character as it is written in a string literal. -/
def writtenChar (c : Char) : List Char :=
  match c with
  | '\\' => ['\\', '\\']
  | '"' => ['\\', '"']
  | '\n' => ['\\', 'n']
  | '\r' => ['\\', 'r']
  | c => [c]

/-- The characters of a text as they are written in a string literal. -/
def writtenChars (cs : List Char) : List Char :=
  cs.flatMap writtenChar

/-- The string literal of a text. -/
def stringLiteral (s : String) : String :=
  String.ofList ('"' :: (writtenChars s.toList ++ ['"']))

theorem toList_stringLiteral (s : String) :
    (stringLiteral s).toList = '"' :: (writtenChars s.toList ++ ['"']) :=
  String.toList_ofList

/-- A written character is an escape that denotes it, or the character itself, which then needs
none. -/
theorem writtenChar_cases (c : Char) :
    (∃ d, writtenChar c = ['\\', d] ∧ escaped d = c ∧ d ∈ ['\\', '"', 'n', 'r']) ∨
      (writtenChar c = [c] ∧ c ∉ ['\\', '"', '\n', '\r']) := by
  unfold writtenChar
  split
  · exact .inl ⟨'\\', rfl, rfl, by decide⟩
  · exact .inl ⟨'"', rfl, rfl, by decide⟩
  · exact .inl ⟨'n', rfl, rfl, by decide⟩
  · exact .inl ⟨'r', rfl, rfl, by decide⟩
  · next hslash hquote hline hreturn =>
    refine .inr ⟨rfl, ?_⟩
    simp only [List.mem_cons, List.not_mem_nil, or_false, not_or]
    exact ⟨hslash, hquote, hline, hreturn⟩

/-! ### Escapes -/

theorem decodeEscapes_writtenChar (c : Char) (cs : List Char) :
    decodeEscapes (writtenChar c ++ cs) = c :: decodeEscapes cs := by
  rcases writtenChar_cases c with ⟨d, hwritten, hd, -⟩ | ⟨hwritten, hplain⟩
  · rw [hwritten, ← hd]
    rfl
  · have hslash : c ≠ '\\' := by
      rintro rfl
      exact hplain (by decide)
    rw [hwritten, List.singleton_append, decodeEscapes]
    · rintro rfl
      exact absurd rfl hslash
    · rintro d rest rfl
      exact absurd rfl hslash

/-- **Resolving the escapes gives the text.** -/
theorem decodeEscapes_writtenChars (cs : List Char) : decodeEscapes (writtenChars cs) = cs := by
  induction cs with
  | nil => rfl
  | cons c cs ih =>
    rw [writtenChars, List.flatMap_cons, decodeEscapes_writtenChar]
    exact congrArg (c :: ·) ih

theorem inner_stringLiteral (s : String) : inner (stringLiteral s) = writtenChars s.toList := by
  rw [inner, toList_stringLiteral, List.drop_succ_cons, List.drop_zero, List.dropLast_concat]

/-! ### The end of the literal -/

theorem stringRestLength?_writtenChar (c : Char) (cs : List Char) :
    stringRestLength? (writtenChar c ++ cs) =
      (stringRestLength? cs).map (· + (writtenChar c).length) := by
  rcases writtenChar_cases c with ⟨d, hwritten, -, hd⟩ | ⟨hwritten, hplain⟩
  · -- The escape hides its second character, which may be a quote.
    have hline : d ≠ '\n' := by
      rintro rfl
      exact absurd hd (by decide)
    rw [hwritten]
    simp [stringRestLength?, hline]
  · simp only [List.mem_cons, List.not_mem_nil, or_false, not_or] at hplain
    rw [hwritten, List.singleton_append]
    rw [stringRestLength?.eq_def]
    simp [hplain]

theorem stringRestLength?_writtenChars (cs rest : List Char) :
    stringRestLength? (writtenChars cs ++ '"' :: rest) = some ((writtenChars cs).length + 1) := by
  induction cs with
  | nil => rw [writtenChars, List.flatMap_nil, List.nil_append, stringRestLength?.eq_def]; rfl
  | cons c cs ih =>
    have hcons : writtenChars (c :: cs) = writtenChar c ++ writtenChars cs := List.flatMap_cons
    rw [hcons, List.append_assoc, stringRestLength?_writtenChar, ih, List.length_append]
    simp only [Option.map_some, Option.some.injEq]
    omega

theorem stringLength_stringLiteral (s : String) :
    stringLength (stringLiteral s).toList = (stringLiteral s).toList.length := by
  rw [toList_stringLiteral, stringLength, stringRestLength?_writtenChars]
  simp

/-! ### The source of a literal -/

/-- A written text has neither carriage returns nor line feeds, and no other characters than the
text and its escapes. -/
theorem mem_writtenChars (h : c ∈ writtenChars cs) :
    c ∉ ['\n', '\r'] ∧ (c ∈ cs ∨ c ∈ ['\\', '"', 'n', 'r']) := by
  obtain ⟨b, hb, hc⟩ := List.mem_flatMap.mp h
  rcases writtenChar_cases b with ⟨d, hwritten, -, hd⟩ | ⟨hwritten, hplain⟩
  · have hescape : c ∈ ['\\', '"', 'n', 'r'] := by
      rw [hwritten] at hc
      rcases List.mem_cons.mp hc with rfl | hc
      · decide
      · rw [List.mem_singleton.mp hc]
        exact hd
    have hsigns : ∀ c ∈ ['\\', '"', 'n', 'r'], c ∉ ['\n', '\r'] := forall_mem_of_all (by decide)
    exact ⟨hsigns c hescape, .inr hescape⟩
  · rw [hwritten] at hc
    obtain rfl := List.mem_singleton.mp hc
    refine ⟨fun hline => hplain ?_, .inl hb⟩
    exact List.mem_cons_of_mem _ (List.mem_cons_of_mem _ hline)

theorem mem_stringLiteral (h : c ∈ (stringLiteral s).toList) :
    c ∉ ['\n', '\r'] ∧ (c ∈ s.toList ∨ c ∈ ['\\', '"', 'n', 'r']) := by
  rw [toList_stringLiteral, List.mem_cons, List.mem_append, List.mem_singleton] at h
  rcases h with rfl | h | rfl
  · exact ⟨by decide, .inr (by decide)⟩
  · exact mem_writtenChars h
  · exact ⟨by decide, .inr (by decide)⟩

theorem isClean_of_mem_stringLiteral (h : ∀ c ∈ s.toList, Source.isZeroWidth c = false)
    (hc : c ∈ (stringLiteral s).toList) : Source.IsClean c := by
  obtain ⟨hline, hmem⟩ := mem_stringLiteral hc
  refine ⟨?_, ?_⟩
  · rintro rfl
    exact hline (by decide)
  · rcases hmem with hmem | hmem
    · exact h c hmem
    · have hsigns : ∀ c ∈ ['\\', '"', 'n', 'r'], Source.isZeroWidth c = false :=
        forall_mem_of_all (by decide)
      exact hsigns c hmem

/-- The token of the literal of a text, at the start of a source. -/
def stringToken (s : String) : Token :=
  ⟨.string, stringLiteral s, 0, ⟨1, 1⟩⟩

/-- The token behind the literal of a text. -/
def stringEnd (s : String) : Token :=
  ⟨.endOfInput, "", (stringLiteral s).length, ⟨1, (stringLiteral s).length + 1⟩⟩

theorem tokenize_stringLiteral (h : ∀ c ∈ s.toList, Source.isZeroWidth c = false) (file : String) :
    (Source.ofText (stringLiteral s) file).tokenize = .ok [stringToken s, stringEnd s] := by
  have hchars : (Source.ofText (stringLiteral s) file).chars = (stringLiteral s).toList :=
    Source.normalize_of_isClean fun _ hc => isClean_of_mem_stringLiteral h hc
  have hne : (stringLiteral s).toList ≠ [] := by simp [toList_stringLiteral]
  have htiling : Tiling [] (Source.ofText (stringLiteral s) file).chars
      [⟨some .string, (stringLiteral s).toList⟩] := by
    have hpiece := Tiling.piece (found_string hne (stringLength_stringLiteral s) []) .done
    rw [List.append_nil] at hpiece
    rw [hchars]
    exact hpiece
  have hline : '\n' ∉ (stringLiteral s).toList := fun hmem => (mem_stringLiteral hmem).1 (by decide)
  have hend : Source.locate (stringLiteral s).toList (stringLiteral s).toList.length =
      ⟨1, (stringLiteral s).length + 1⟩ := by
    rw [Source.locate_of_not_mem hline (Nat.le_refl _), String.length_toList]
  have htoken : tokensIn (stringLiteral s).toList [⟨some .string, (stringLiteral s).toList⟩] =
      [stringToken s] := by
    simp [tokensIn, placed, tokenAt, Source.locate_of_not_mem hline (Nat.zero_le _), stringToken]
  rw [Source.tokenize_of_tiling htiling, hchars, htoken, endAt, hend, String.length_toList]
  rfl

/-- The tokens of the literal are read as one operand: nothing continues it at the end. -/
theorem runOn_expression_stringLiteral (s file : String) (lines : Array String)
    (depth least : Nat) :
    runOn (expression (depth + 3) least) [stringToken s, stringEnd s] file lines =
      .ok (.literal ⟨1, 1⟩ (.string s (stringLiteral s)), stringEnd s) := by
  have hliteral : literal? (stringToken s) = .ok (some (.string s (stringLiteral s))) := by
    rw [literal?]
    simp only [stringToken]
    rw [inner_stringLiteral, decodeEscapes_writtenChars, String.ofList_toList]
  let e : Expr := .literal ⟨1, 1⟩ (.string s (stringLiteral s))
  let c := Cursor.start [stringToken s, stringEnd s]
  have hprimary : primary (depth + 1) c = .ok e c.next := by
    rw [primary, run_peek]
    change (orFault (literal? (stringToken s)) >>= _) c = _
    rw [hliteral, run_orFault_ok]
    rfl
  have hunary : unary (depth + 2) c = .ok e c.next := by
    rw [unary, run_peek]
    change (primary (depth + 1) >>= suffixes (depth + 1)) c = _
    rw [run_bind_ok hprimary, suffixes, run_get]
    exact suffixes_of_endsOperand (endsOperand_of_endOfInput rfl) _ e
  have hexpression : expression (depth + 3) least c = .ok e c.next := by
    rw [expression, run_bind_ok hunary, climb, run_get]
    exact operators_of_none (Joint.ofToken?_of_endOfInput rfl) _ e
  rw [runOn, hexpression]
  rfl

end Parse

open Parse

/-- **The literal of a text is one token, which is read as that text**, whatever signs of comments,
directives and quotes the text contains.  Reading takes three rules, and no least power of operators
matters. -/
theorem stringLiteral_roundtrip {s : String} (h : ∀ c ∈ s.toList, Source.isZeroWidth c = false)
    (file : String) (depth least : Nat) :
    let source := Source.ofText (stringLiteral s) file
    source.tokenize = .ok [⟨.string, stringLiteral s, 0, ⟨1, 1⟩⟩,
      ⟨.endOfInput, "", (stringLiteral s).length, ⟨1, (stringLiteral s).length + 1⟩⟩] ∧
    source.parseWith (expression (depth + 3) least) =
      .ok (.literal ⟨1, 1⟩ (.string s (stringLiteral s)),
        ⟨.endOfInput, "", (stringLiteral s).length, ⟨1, (stringLiteral s).length + 1⟩⟩) := by
  intro source
  have htokens := tokenize_stringLiteral h file
  refine ⟨htokens, ?_⟩
  rw [Source.parseWith, htokens]
  exact runOn_expression_stringLiteral s _ _ depth least

/-- A text with a run of backslashes before a quote, line ends of three kinds, and signs of a
comment and of a directive. -/
theorem stringLiteral_roundtrip_signs :
    let s := "a\\\\\"//\n#include <x>\r\u2028'"
    let source := Source.ofText "\"a\\\\\\\\\\\"//\\n#include <x>\\r\u2028'\"" "<input>"
    (∀ c ∈ s.toList, Source.isZeroWidth c = false) ∧
    stringLiteral s = "\"a\\\\\\\\\\\"//\\n#include <x>\\r\u2028'\"" ∧
    source.tokenize = .ok [⟨.string, stringLiteral s, 0, ⟨1, 1⟩⟩, ⟨.endOfInput, "", 29, ⟨1, 30⟩⟩] ∧
    source.parseWith (expression deepest 0) =
      .ok (.literal ⟨1, 1⟩ (.string s (stringLiteral s)), ⟨.endOfInput, "", 29, ⟨1, 30⟩⟩) := by
  intro s source
  have hwidth : ∀ c ∈ s.toList, Source.isZeroWidth c = false :=
    forall_mem_of_all (by decide +kernel)
  have hlit : stringLiteral s = "\"a\\\\\\\\\\\"//\\n#include <x>\\r\u2028'\"" := by decide +kernel
  have hlen : (stringLiteral s).length = 29 := by decide +kernel
  have hroundtrip := stringLiteral_roundtrip hwidth "<input>" (deepest - 3) 0
  rw [hlen] at hroundtrip
  simp only [hlit] at hroundtrip
  refine ⟨hwidth, hlit, ?_, ?_⟩
  · rw [hlit]
    exact hroundtrip.1
  · rw [hlit]
    exact hroundtrip.2

end SmallCpp
