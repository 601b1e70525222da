import SmallCpp.Heap.Library
import SmallCpp.Proofs.Number.Numeral

/-!
# Integers as text

An integer is written in plain decimal form, with a sign if it is negative.  Whatever reads it
accepts much more: blanks around it, a plus sign, underscores and the digits of other scripts.  None
of this gets in the way, since the text of an integer has no blanks and only digits of the one
script behind its sign.

## Main results

* `integer_survives_text` — **what is printed or converted to text is read back by every reader**.
-/

namespace SmallCpp

open Text Lexical

/-! ### The text of an integer -/

theorem toList_intText (n : Int) :
    (toString n).toList = (if n < 0 then ['-'] else []) ++ Nat.toDigits 10 n.natAbs := by
  cases n with
  | ofNat m => exact Nat.toList_repr
  | negSucc m =>
    have htext : toString (Int.negSucc m) = "-" ++ Nat.repr (m + 1) := rfl
    rw [htext, String.toList_append, Nat.toList_repr, if_pos (Int.negSucc_lt_zero m)]
    rfl

theorem isDigit_of_mem_toDigits {k : Nat} {c : Char} (h : c ∈ Nat.toDigits 10 k) :
    isDigit c = true :=
  isDigit_of_ascii (Nat.isDigit_of_mem_toDigits (by omega) (by omega) h)

theorem not_isBlank_intText (n : Int) : ∀ c ∈ (toString n).toList, isBlank c = false := by
  rw [toList_intText]
  intro c hc
  rcases List.mem_append.mp hc with hsign | hdigit
  · split at hsign
    · rw [List.mem_singleton.mp hsign]
      decide
    · cases hsign
  · exact not_isBlank_of_isDigit (isDigit_of_mem_toDigits hdigit)

theorem splitSign_intText (n : Int) :
    splitSign (toString n).toList = (decide (n < 0), Nat.toDigits 10 n.natAbs) := by
  rw [toList_intText]
  split
  · next hneg => simp [splitSign, hneg]
  · next hpos =>
    rw [List.nil_append, splitSign_of_isDigit fun c hc => isDigit_of_mem_toDigits
      (List.mem_of_mem_head? hc)]
    simp [hpos]

theorem integerText?_eq_some {n : Int} (hn : (Nat.toDigits 10 n.natAbs).length ≤ digitLimit) :
    integerText? n = some (toString n) := by
  have hpos : 0 < digitLimit := Nat.succ_pos _
  rw [integerText?]
  generalize digitLimit = limit at *
  exact if_pos ((Nat.length_toDigits_le_iff (by decide) hpos).mp hn)

/-- **An integer is read back from its text**, if it has no more digits than a conversion
handles. -/
theorem readInteger_intText {n : Int} (hn : (Nat.toDigits 10 n.natAbs).length ≤ digitLimit) :
    readInteger (toString n) = .ok n := by
  have htrim : trimBoth isNumberBlank (toString n).toList = (toString n).toList :=
    trimBoth_eq_self fun c hc => isNumberBlank_of_not_isBlank (not_isBlank_intText n c hc)
  have hdigs : digitRun? (Nat.toDigits 10 n.natAbs) =
      some ((Nat.toDigits 10 n.natAbs).map digitOf) :=
    digitRun?_of_isDigit Nat.toDigits_ne_nil fun _ => isDigit_of_mem_toDigits
  rw [readInteger, htrim, splitSign_intText]
  have hval : (if n < 0 then -(n.natAbs : Int) else n.natAbs) = n := by split <;> omega
  simp only [readNatural, hdigs, List.length_map, hn, if_true, ofDigitList_toDigits, Except.map,
    decide_eq_true_eq]
  exact congrArg Except.ok hval

/-! ### Texts of characters -/

theorem CodePoint.char?_ofChar (c : Char) : (CodePoint.ofChar c).char? = some c := by
  have hvalid : c.toNat < 0xD800 ∨ 0xDFFF < c.toNat ∧ c.toNat < 0x110000 := c.valid
  have hplain : (CodePoint.ofChar c).isSurrogate = false := by
    refine Bool.eq_false_iff.mpr fun h => ?_
    simp only [isSurrogate, isHighSurrogate, isLowSurrogate, Bool.or_eq_true, Bool.and_eq_true] at h
    rcases h with ⟨h, h'⟩ | ⟨h, h'⟩
    · have hlow : 0xD800 ≤ c.toNat := of_decide_eq_true h
      have hhigh : c.toNat < 0xDC00 := of_decide_eq_true h'
      omega
    · have hlow : 0xDC00 ≤ c.toNat := of_decide_eq_true h
      have hhigh : c.toNat < 0xE000 := of_decide_eq_true h'
      omega
  rw [char?, hplain]
  exact congrArg some (Char.ofNat_toNat c)

theorem CodeText.chars?_ofString (s : String) : (CodeText.ofString s).chars? = some s.toList := by
  rw [CodeText.ofString, CodeText.chars?]
  induction s.toList with
  | nil => rfl
  | cons c cs ih => simp [CodePoint.char?_ofChar, ih]

theorem wordsFrom_of_not_isBlank {cs : List Char} (h : ∀ c ∈ cs, isBlank c = false)
    (word : List Char)
    (hne : word ≠ [] ∨ cs ≠ []) : wordsFrom word cs = [String.ofList (word.reverse ++ cs)] := by
  induction cs generalizing word with
  | nil =>
    have hword : word ≠ [] := by simpa using hne
    simp [wordsFrom, hword]
  | cons c cs ih =>
    obtain ⟨hc, hcs⟩ := List.forall_mem_cons.mp h
    rw [wordsFrom, hc, if_neg Bool.false_ne_true, ih hcs _ (.inl (List.cons_ne_nil c word))]
    simp

/-- **Integers survive text.**  The text of an integer that has no more digits than a conversion
handles is what is printed for it and what it converts to; it is one word of input, and the
conversion back, a target of type `int` and a target of no type all read the integer from it. -/
theorem integer_survives_text {n : Int} (hn : (Nat.toDigits 10 n.natAbs).length ≤ digitLimit)
    (h : Heap) :
    ∃ text : String, printed (.int n) h = .ok (.ofString text) h ∧
      callLibrary .toString [.int n] h = .ok (.ofString text) h ∧
      callLibrary .stoi [.ofString text] h = .ok (.int n) h ∧ words text = [text] ∧
      readToken text (some .int) h = .ok (.int n) h ∧ readToken text none h = .ok (.int n) h := by
  have hread := readInteger_intText hn
  have hblank := not_isBlank_intText n
  have htext : integerText n h = .ok (toString n) h := by
    have hsome := integerText?_eq_some hn
    unfold integerText
    generalize integerText? n = o at *
    rw [hsome]
    rfl
  have hne : (toString n).toList ≠ [] := by
    rw [toList_intText]
    exact List.append_ne_nil_of_right_ne_nil _ Nat.toDigits_ne_nil
  -- the text of a number has no blanks, so it is one word and is not trimmed
  have hstrip : strip (String.ofList (toString n).toList) = toString n := by
    rw [strip, String.toList_ofList, trimBoth_eq_self hblank, String.ofList_toList]
  have harg : readArgument "stoi" (fun s => (readInteger s).toOption) (.ofString (toString n)) h =
      .ok n h := by
    have hplain : plainText (.ofString (toString n)) h = .ok (.ofString (toString n)) h := rfl
    rw [readArgument, bind_of_ok hplain, CodeText.chars?_ofString, Option.bind_some, hstrip, hread]
    rfl
  refine ⟨toString n, ?_, ?_, ?_, ?_, ?_, ?_⟩
  · rw [printed, bind_of_ok htext]
    rfl
  · have hnum : orFail (Value.int n).number h = .ok (.int n) h := rfl
    rw [callLibrary, bind_of_ok hnum, decimalText, bind_of_ok htext]
    rfl
  · rw [callLibrary, bind_of_ok harg]
    rfl
  · rw [words, wordsFrom_of_not_isBlank hblank [] (.inr hne)]
    simp
  · rw [readToken, hread]
    rfl
  · rw [readToken, guessToken, hread]
    · rfl
    all_goals exact nofun

/-- A negative integer of thirteen digits. -/
theorem integer_survives_text_negative :
    let n : Int := -1099511627776
    (Nat.toDigits 10 n.natAbs).length ≤ digitLimit ∧ ∃ text : String,
    printed (.int n) {} = .ok (.ofString text) {} ∧
      callLibrary .toString [.int n] {} = .ok (.ofString text) {} ∧
      callLibrary .stoi [.ofString text] {} = .ok (.int n) {} ∧ words text = [text] ∧
      readToken text (some .int) {} = .ok (.int n) {} ∧
      readToken text none {} = .ok (.int n) {} := by
  intro n
  have hn : (Nat.toDigits 10 n.natAbs).length ≤ digitLimit := by decide +kernel
  exact ⟨hn, integer_survives_text hn {}⟩

end SmallCpp
