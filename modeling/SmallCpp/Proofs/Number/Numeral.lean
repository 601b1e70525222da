import Mathlib.Algebra.Group.Int.Defs
import Mathlib.Algebra.Group.Nat.Defs
import Mathlib.Data.List.TakeDrop
import Mathlib.Data.List.TakeWhile
import SmallCpp.Parse.Literal
import SmallCpp.Proofs.Token.Lexeme

/-!
# Numerals

Every number that the lexical rules find is digits, a fraction and an exponent, and it has a value
unless it is an integer of too many digits.  Integers are read back from the texts in which they are
written.

## Main results

* `exists_numberLiteral` — **every number has a value**, integers up to the limit of digits.
-/

namespace SmallCpp

open Text Lexical Parse

variable {c : Char} {cs ds rest text : List Char}

/-! ### Digits -/

/-- The value of a digit, zero for other characters. -/
def digitOf (c : Char) : Nat :=
  (digitValue? c).getD 0

theorem digitValue?_of_isDigit (h : isDigit c = true) : digitValue? c = some (digitOf c) := by
  obtain ⟨d, hd⟩ := Option.isSome_iff_exists.mp h
  simp [digitOf, hd]

theorem digitOf_of_ascii (h : c.isDigit = true) : digitOf c = c.toNat - 48 := by
  have hlt : c.toNat < 128 := by
    simp only [Char.isDigit, Bool.and_eq_true, decide_eq_true_eq, UInt32.le_iff_toNat_le] at h
    have hle : c.toNat ≤ 57 := h.2
    omega
  simp [digitOf, digitValue?, hlt, h]

/-- A digit is one of ASCII or stands in the table of the other scripts. -/
theorem isDigit_cases (h : isDigit c = true) :
    c.isDigit = true ∨ 128 ≤ c.toNat ∧ ∃ z ∈ digitZeros, ∃ d < 10, c.toNat = z + d := by
  unfold isDigit digitValue? at h
  split at h
  · next hlt =>
    split at h
    · next hdigit => exact Or.inl hdigit
    · cases h
  · next hle =>
    rw [Option.isSome_map, Option.isSome_iff_exists] at h
    obtain ⟨z, hz⟩ := h
    have hrange := List.find?_some hz
    simp only [Bool.and_eq_true, decide_eq_true_eq] at hrange
    exact Or.inr ⟨by omega, z, List.mem_of_find?_eq_some hz, c.toNat - z, by omega, by omega⟩

theorem digitOf_lt (c : Char) : digitOf c < 10 := by
  unfold digitOf digitValue?
  split
  · split
    · next hdigit =>
      simp only [Char.isDigit, Bool.and_eq_true, decide_eq_true_eq, UInt32.le_iff_toNat_le]
        at hdigit
      have hle : c.toNat ≤ 57 := hdigit.2
      simp only [Option.getD_some]
      omega
    · exact Nat.zero_lt_succ 9
  · cases hfind : digitZeros.find? fun z => z ≤ c.toNat && c.toNat < z + 10 with
    | none => exact Nat.zero_lt_succ 9
    | some z =>
      have hrange := List.find?_some hfind
      simp only [Bool.and_eq_true, decide_eq_true_eq] at hrange
      simp only [Option.map_some, Option.getD_some]
      omega

theorem not_isBlank_of_isDigit (h : isDigit c = true) : isBlank c = false := by
  rcases isDigit_cases h with hascii | ⟨-, z, hz, d, hd, hc⟩
  · simp only [Char.isDigit, Bool.and_eq_true, decide_eq_true_eq, UInt32.le_iff_toNat_le,
      ge_iff_le] at hascii
    have hlo : 48 ≤ c.toNat := hascii.1
    have hhi : c.toNat ≤ 57 := hascii.2
    simp only [isBlank, Bool.or_eq_false_iff, Bool.and_eq_false_iff, decide_eq_false_iff_not,
      beq_eq_false_iff_ne]
    omega
  · have htable : ∀ z ∈ digitZeros, 48 ≤ z ∧ (z + 10 ≤ 0x85 ∨ 0xA0 < z) ∧
        (z + 10 ≤ 0x1680 ∨ 0x1680 < z) ∧ (z + 10 ≤ 0x2000 ∨ 0x205F < z) ∧
        (z + 10 ≤ 0x3000 ∨ 0x3000 < z) := by decide
    have := htable z hz
    simp only [isBlank, Bool.or_eq_false_iff, Bool.and_eq_false_iff, decide_eq_false_iff_not,
      beq_eq_false_iff_ne]
    omega

/-- No letter becomes a digit or comes from one when its case is changed. -/
theorem toLower_of_isDigit (h : isDigit c = true) : c.toLower = c := by
  refine dif_neg ?_
  rintro ⟨hlo, hhi⟩
  have hlo : 65 ≤ c.toNat := hlo
  have hhi : c.toNat ≤ 90 := hhi
  rcases isDigit_cases h with hascii | ⟨hbig, -⟩
  · simp only [Char.isDigit, Bool.and_eq_true, decide_eq_true_eq, UInt32.le_iff_toNat_le] at hascii
    have hle : c.toNat ≤ 57 := hascii.2
    omega
  · omega

/-- A run of digits without underscores is read digit by digit. -/
theorem digitRun?_of_isDigit (hne : cs ≠ []) (h : ∀ c ∈ cs, isDigit c = true) :
    digitRun? cs = some (cs.map digitOf) := by
  fun_induction digitRun? cs with
  | case1 => exact absurd rfl hne
  | case2 c => simp [digitValue?_of_isDigit (h c (by simp))]
  | case3 c next rest hnone => simp [digitValue?_of_isDigit (h c (by simp))] at hnone
  | case4 c next rest d hd _ ih =>
    rw [digitValue?_of_isDigit (h c (by simp))] at hd
    cases hd
    have hnext : (next == '_') = false := by
      rw [beq_eq_false_iff_ne]
      rintro rfl
      exact absurd (h '_' (by simp)) (by decide)
    rw [if_neg (by simp [hnext]), ih (by simp) fun c hc => h c (List.mem_cons_of_mem _ hc)]
    rfl

theorem ofDigitList_lt {ds : List Nat} (h : ∀ d ∈ ds, d < 10) :
    ofDigitList ds < 10 ^ ds.length := by
  have hfold : ∀ n k, n < 10 ^ k → ds.foldl (fun n d => 10 * n + d) n < 10 ^ (k + ds.length) := by
    induction ds with
    | nil => exact fun n k hn => hn
    | cons d ds ih =>
      intro n k hn
      have hd := h d List.mem_cons_self
      have hstep : 10 * n + d < 10 ^ (k + 1) := by
        rw [Nat.pow_succ]
        omega
      have htail := ih (fun d hd => h d (List.mem_cons_of_mem _ hd)) (10 * n + d) (k + 1) hstep
      rwa [Nat.add_right_comm] at htail
  have hstart := hfold 0 0 Nat.one_pos
  rwa [Nat.zero_add] at hstart

theorem lt_of_digitValue? {d : Nat} (h : digitValue? c = some d) : d < 10 := by
  have hlt := digitOf_lt c
  rwa [digitOf, h] at hlt

theorem lt_of_digitRun? {run : List Nat} (h : digitRun? cs = some run) : ∀ d ∈ run, d < 10 := by
  fun_induction digitRun? cs generalizing run with
  | case1 => cases h
  | case2 c =>
    obtain ⟨d, hd, rfl⟩ := Option.map_eq_some_iff.mp h
    simpa using lt_of_digitValue? hd
  | case3 c next rest hnone => cases h
  | case4 c next rest d hd ih₁ ih₂ =>
    obtain ⟨tail, htail, rfl⟩ := Option.map_eq_some_iff.mp h
    have htail : ∀ d ∈ tail, d < 10 := by
      split at htail
      · exact ih₁ htail
      · exact ih₂ htail
    exact List.forall_mem_cons.mpr ⟨lt_of_digitValue? hd, htail⟩

theorem readNatural_lt {n : Nat} (h : readNatural cs = .ok n) : n < 10 ^ digitLimit := by
  unfold readNatural at h
  split at h
  · cases h
  · next run hrun =>
    split at h
    · next hlen =>
      cases h
      exact Nat.lt_of_lt_of_le (ofDigitList_lt (lt_of_digitRun? hrun))
        (Nat.pow_le_pow_right (by decide) hlen)
    · cases h

/-- An integer that is read from a text has no more digits than a text may have. -/
theorem readInteger_lt {text : String} {n : Int} (h : readInteger text = .ok n) :
    n < 10 ^ digitLimit := by
  unfold readInteger at h
  cases hread : readNatural (splitSign (trimBoth isNumberBlank text.toList)).2 with
  | error e =>
    simp only [hread] at h
    cases h
  | ok k =>
    simp only [hread] at h
    replace h :
      (if (splitSign (trimBoth isNumberBlank text.toList)).1 = true then -(k : Int) else k) = n :=
      Except.ok.inj h
    have hlt := readNatural_lt hread
    have hpow : ((10 ^ digitLimit : Nat) : Int) = 10 ^ digitLimit := Int.natCast_pow 10 digitLimit
    rw [← hpow]
    generalize 10 ^ digitLimit = limit at hlt ⊢
    split at h <;> omega

/-- A natural number is the value of the digits it is written with. -/
theorem ofDigitList_toDigits (n : Nat) : ofDigitList ((Nat.toDigits 10 n).map digitOf) = n := by
  have hdigs : ∀ c ∈ Nat.toDigits 10 n, c.isDigit = true := fun c hc =>
    Nat.isDigit_of_mem_toDigits (by omega) (by omega) hc
  have hmap : (Nat.toDigits 10 n).map digitOf = (Nat.toDigits 10 n).map fun c =>
      c.toNat - '0'.toNat :=
    List.map_congr_left fun c hc => digitOf_of_ascii (hdigs c hc)
  rw [hmap, ofDigitList, List.foldl_map, ← Nat.ofDigitChars_eq_foldl]
  exact Nat.ofDigitChars_toDigits (by omega) (by omega)

/-! ### Reading integers -/

theorem trimBoth_eq_self {p : Char → Bool} (h : ∀ c ∈ cs, p c = false) : trimBoth p cs = cs := by
  have hdrop : ∀ ds : List Char, (∀ c ∈ ds, p c = false) → ds.dropWhile p = ds := by
    intro ds hds
    cases ds with
    | nil => rfl
    | cons d ds => simp [hds d (by simp)]
  rw [trimBoth, hdrop cs h, hdrop cs.reverse (by simpa using h), List.reverse_reverse]

theorem splitSign_of_isDigit (h : ∀ c ∈ cs.head?, isDigit c = true) :
    splitSign cs = (false, cs) := by
  unfold splitSign
  split
  · exact absurd (h '-' rfl) (by decide)
  · exact absurd (h '+' rfl) (by decide)
  · rfl

theorem isNumberBlank_of_not_isBlank (h : isBlank c = false) : isNumberBlank c = false := by
  simp [isNumberBlank, h]

/-- The signs that make a number a decimal one. -/
def isDecimalMark (c : Char) : Bool :=
  c == '.' || c == 'e' || c == 'E'

theorem not_isDecimalMark_of_isDigit (h : isDigit c = true) : isDecimalMark c = false := by
  rw [Bool.eq_false_iff]
  intro hmark
  simp only [isDecimalMark, Bool.or_eq_true, beq_iff_eq] at hmark
  rcases hmark with (rfl | rfl) | rfl
  · exact absurd h (by decide)
  · exact absurd h (by decide)
  · exact absurd h (by decide)

theorem any_isDecimalMark (text : String) :
    (text.any fun c => c == '.' || c == 'e' || c == 'E') = text.toList.any isDecimalMark :=
  String.contains_bool_eq

/-- Digits are an integer literal, up to the limit. -/
theorem numberLiteral_of_isDigit (hne : ds ≠ []) (h : ∀ d ∈ ds, isDigit d = true) :
    numberLiteral (String.ofList ds) =
      if ds.length ≤ digitLimit then
        .ok (.int (ofDigitList (ds.map digitOf) : Nat) (String.ofList ds))
      else .error (.literalTooLong ds.length) := by
  have hany : ds.any isDecimalMark = false := by
    simpa [List.any_eq_false] using fun d hd => not_isDecimalMark_of_isDigit (h d hd)
  have htrim : trimBoth isNumberBlank ds = ds :=
    trimBoth_eq_self fun d hd => isNumberBlank_of_not_isBlank (not_isBlank_of_isDigit (h d hd))
  have hsign : splitSign ds = (false, ds) :=
    splitSign_of_isDigit fun d hd => h d (List.mem_of_mem_head? hd)
  simp only [numberLiteral, any_isDecimalMark, hany, readInteger, String.toList_ofList,
    htrim, hsign,
    readNatural, digitRun?_of_isDigit hne h, List.length_map, Bool.false_eq_true, if_false]
  by_cases hlen : ds.length ≤ digitLimit
  · simp only [hlen, if_true]
    rfl
  · simp only [hlen, if_false]
    rfl

/-- The decimal text of a natural number is a literal of its value. -/
theorem numberLiteral_toString {n : Nat} (hn : n < 10 ^ digitLimit) :
    numberLiteral (toString n) = .ok (.int n (toString n)) := by
  have hdigs : ∀ c ∈ Nat.toDigits 10 n, isDigit c = true := fun c hc =>
    isDigit_of_ascii (Nat.isDigit_of_mem_toDigits (by omega) (by omega) hc)
  have hlen : (Nat.toDigits 10 n).length ≤ digitLimit :=
    (Nat.length_toDigits_le_iff (by omega) (by decide)).mpr hn
  rw [Nat.toString_eq_ofList_toDigits, numberLiteral_of_isDigit Nat.toDigits_ne_nil hdigs,
    if_pos hlen, ofDigitList_toDigits]

/-! ### The form of a number -/

def IsFraction (cs : List Char) : Prop :=
  cs = [] ∨ ∃ ds, cs = '.' :: ds ∧ ∀ d ∈ ds, isDigit d = true

/-- An exponent with an optional sign, or nothing. -/
def IsExponent (cs : List Char) : Prop :=
  cs = [] ∨ ∃ e sign ds, cs = e :: (sign ++ ds) ∧ (e = 'e' ∨ e = 'E') ∧
    sign ∈ [[], ['+'], ['-']] ∧ ds ≠ [] ∧ ∀ d ∈ ds, isDigit d = true

/-- Digits, with a fraction and an exponent if there are any. -/
def IsNumber (text : List Char) : Prop :=
  ∃ whole fraction exponent, text = whole ++ (fraction ++ exponent) ∧ whole ≠ [] ∧
    (∀ d ∈ whole, isDigit d = true) ∧ IsFraction fraction ∧ IsExponent exponent

theorem isDigit_of_mem_take_spanLength (cs : List Char) :
    ∀ c ∈ cs.take (spanLength isDigit cs), isDigit c = true := by
  rw [take_spanLength]
  exact List.all_eq_true.mp List.all_takeWhile

theorem isFraction_take (cs : List Char) : IsFraction (cs.take (fractionLength cs)) := by
  unfold fractionLength
  split
  · next cs =>
    rw [Nat.add_comm, List.take_succ_cons]
    exact Or.inr ⟨_, rfl, isDigit_of_mem_take_spanLength cs⟩
  · exact Or.inl List.take_zero

theorem take_signLength_mem (cs : List Char) : cs.take (signLength cs) ∈ [[], ['+'], ['-']] := by
  unfold signLength
  split
  · split
    · next hc => rcases hc with rfl | rfl <;> simp
    · simp
  · simp

theorem isExponent_take (cs : List Char) : IsExponent (cs.take (exponentLength cs)) := by
  cases cs with
  | nil => exact Or.inl List.take_nil
  | cons e cs =>
    rw [exponentLength_cons]
    split
    · next he =>
      split
      · exact Or.inl List.take_zero
      · next hdigs =>
        refine Or.inr ⟨e, _, _, ?_, he, take_signLength_mem cs, ?_,
          isDigit_of_mem_take_spanLength (cs.drop (signLength cs))⟩
        · rw [Nat.add_assoc, Nat.add_comm 1, List.take_succ_cons, List.take_add]
        · intro hnil
          have hle := spanLength_le isDigit (cs.drop (signLength cs))
          have hzero := congrArg List.length hnil
          rw [List.length_take, List.length_nil] at hzero
          omega
    · exact Or.inl List.take_zero

/-- What the rule for numbers finds has the form of a number. -/
theorem isNumber_take (h : numberLength cs ≠ 0) : IsNumber (cs.take (numberLength cs)) := by
  rw [numberLength_eq] at h ⊢
  split at h
  · exact absurd rfl h
  · next hwhole =>
    rw [if_neg hwhole, Nat.add_assoc, List.take_add, List.take_add, List.drop_drop]
    refine ⟨_, _, _, rfl, ?_, isDigit_of_mem_take_spanLength cs, isFraction_take _,
      isExponent_take _⟩
    intro hnil
    have hle := spanLength_le isDigit cs
    have hzero := congrArg List.length hnil
    rw [List.length_take, List.length_nil] at hzero
    omega

theorem Token.Cut.isNumber {t : Token} (h : t.Cut) (hkind : t.kind = .number) :
    IsNumber t.text.toList := by
  obtain ⟨behind, hlen, hpos, -⟩ := h.rule (i := 6) hkind rfl (by decide) (by decide)
  dsimp only at hlen
  have hnum : IsNumber ((t.text.toList ++ behind).take (numberLength (t.text.toList ++ behind))) :=
    isNumber_take (by omega)
  rwa [hlen, List.take_left] at hnum

theorem IsFraction.head (h : IsFraction cs) : ∀ c ∈ cs.head?, c = '.' := by
  rcases h with rfl | ⟨ds, rfl, -⟩
  · simp
  · simp

theorem IsExponent.head (h : IsExponent cs) : ∀ c ∈ cs.head?, c = 'e' ∨ c = 'E' := by
  rcases h with rfl | ⟨e, sign, ds, rfl, he, -⟩
  · simp
  · simpa using he

theorem spanLength_isDigit_eq (hds : ∀ d ∈ ds, isDigit d = true)
    (hrest : ∀ c ∈ rest.head?, isDigit c = false) :
    spanLength isDigit (ds ++ rest) = ds.length := by
  rw [spanLength_append hrest, spanLength, List.takeWhile_eq_self_iff.mpr hds]

theorem IsFraction.fractionLength_append {fraction : List Char} (h : IsFraction fraction)
    (hrest : ∀ c ∈ rest.head?, isDigit c = false ∧ c ≠ '.') :
    fractionLength (fraction ++ rest) = fraction.length := by
  rcases h with rfl | ⟨ds, rfl, hds⟩
  · cases rest with
    | nil => rfl
    | cons c rest => simp [fractionLength, (hrest c rfl).2]
  · have hspan := spanLength_isDigit_eq hds fun c hc => (hrest c hc).1
    simp [fractionLength, hspan, Nat.add_comm]

theorem IsExponent.exponentLength_append {exponent : List Char} (h : IsExponent exponent)
    (hrest : ∀ c ∈ rest.head?, isDigit c = false ∧ c ≠ 'e' ∧ c ≠ 'E') :
    exponentLength (exponent ++ rest) = exponent.length := by
  rcases h with rfl | ⟨e, sign, ds, rfl, he, hsign, hne, hds⟩
  · cases rest with
    | nil => rfl
    | cons c rest =>
      rw [List.nil_append, exponentLength_cons, if_neg (by simpa using (hrest c rfl).2)]
      rfl
  · have hspan := spanLength_isDigit_eq hds fun c hc => (hrest c hc).1
    have hlen : signLength (sign ++ (ds ++ rest)) = sign.length := by
      obtain ⟨d, ds, rfl⟩ := List.exists_cons_of_ne_nil hne
      have hd : ¬(d = '+' ∨ d = '-') := by
        rintro (rfl | rfl)
        · exact absurd (hds '+' (by simp)) (by decide)
        · exact absurd (hds '-' (by simp)) (by decide)
      simp only [List.mem_cons, List.not_mem_nil, or_false] at hsign
      rcases hsign with rfl | rfl | rfl
      · exact if_neg hd
      · rfl
      · rfl
    have hpos : ds.length ≠ 0 := Nat.pos_iff_ne_zero.mp (List.length_pos_iff.mpr hne)
    rw [List.cons_append, List.append_assoc, exponentLength_cons, if_pos he, hlen,
      List.drop_left, hspan, if_neg hpos, List.length_cons, List.length_append]
    omega

/-- A number ends where neither a digit, a point nor an exponent follows. -/
theorem IsNumber.numberLength_append (h : IsNumber text)
    (hrest : ∀ c ∈ rest.head?, isDigit c = false ∧ isDecimalMark c = false) :
    numberLength (text ++ rest) = text.length := by
  obtain ⟨whole, fraction, exponent, rfl, hne, hwhole, hfrac, hexp⟩ := h
  have hmarks : ∀ c ∈ rest.head?, isDigit c = false ∧ c ≠ '.' ∧ c ≠ 'e' ∧ c ≠ 'E' := by
    intro c hc
    refine ⟨(hrest c hc).1, ?_⟩
    simpa [isDecimalMark, and_assoc] using (hrest c hc).2
  -- what stands behind each part does not continue it
  have hbehind : ∀ c ∈ (exponent ++ rest).head?, isDigit c = false ∧ c ≠ '.' := by
    intro c hc
    cases exponent with
    | nil => exact ⟨(hmarks c hc).1, (hmarks c hc).2.1⟩
    | cons e exponent =>
      rcases hexp.head c hc with rfl | rfl
      · decide
      · decide
  have hpoint : ∀ c ∈ (fraction ++ (exponent ++ rest)).head?, isDigit c = false := by
    intro c hc
    cases fraction with
    | nil => exact (hbehind c hc).1
    | cons d fraction =>
      rw [hfrac.head c hc]
      decide
  have hlen := hexp.exponentLength_append fun c hc => ⟨(hmarks c hc).1, (hmarks c hc).2.2⟩
  rw [List.append_assoc, List.append_assoc, numberLength_eq, spanLength_isDigit_eq hwhole hpoint,
    if_neg (by simpa using hne), List.drop_left, hfrac.fractionLength_append hbehind,
    ← List.append_assoc whole, ← List.length_append, List.drop_left, hlen]
  simp only [List.length_append, Nat.add_assoc]

theorem not_isWordStart_of_isDigit (h : isDigit c = true) : isWordStart c = false := by
  rcases isDigit_cases h with hascii | ⟨hlarge, -⟩
  · exact not_isWordStart_of_digit hascii
  · rw [Bool.eq_false_iff]
    intro hstart
    have := toNat_of_isWordChar (isWordChar_of_isWordStart hstart)
    omega

theorem IsNumber.head (h : IsNumber text) : ∃ c cs, text = c :: cs ∧ isDigit c = true := by
  obtain ⟨whole, fraction, exponent, rfl, hne, hwhole, -⟩ := h
  obtain ⟨c, whole, rfl⟩ := List.exists_cons_of_ne_nil hne
  exact ⟨c, whole ++ (fraction ++ exponent), rfl, hwhole c (by simp)⟩

theorem lexes_number (h : IsNumber text)
    (hrest : ∀ c ∈ rest.head?, isDigit c = false ∧ isDecimalMark c = false) :
    Lexes (text ++ rest) [⟨.number, String.ofList text⟩] rest := by
  have hlen := h.numberLength_append hrest
  obtain ⟨d, ds, rfl, hd⟩ := h.head
  have hword := not_isWordStart_of_isDigit hd
  have hstarts : ∀ p ∈ starts.take 4 ++ [isWordStart, isWordStart], p d = false :=
    List.forall_mem_append.mpr ⟨starts_of_not_mem (not_mem_of_all (by decide) hd), by
    simpa using hword⟩
  exact Lexes.one ⟨rules.take 6, ⟨some .number, numberLength⟩, rules.drop 7, rfl,
    length_of_starts (i := 0) hstarts, rfl, hlen, by simp⟩

/-! ### Every number has a value -/

theorem IsNumber.isDigit_of_not_mark (h : IsNumber text) (hmark : text.any isDecimalMark = false) :
    text ≠ [] ∧ ∀ d ∈ text, isDigit d = true := by
  obtain ⟨whole, fraction, exponent, rfl, hne, hwhole, hfrac, hexp⟩ := h
  simp only [List.any_append, Bool.or_eq_false_iff] at hmark
  obtain rfl : fraction = [] := by
    rcases hfrac with hnil | ⟨ds, rfl, -⟩
    · exact hnil
    · simp [isDecimalMark] at hmark
  obtain rfl : exponent = [] := by
    rcases hexp with hnil | ⟨e, sign, ds, rfl, he, -⟩
    · exact hnil
    · rcases he with rfl | rfl <;> simp [isDecimalMark] at hmark
  simpa using ⟨hne, hwhole⟩

theorem spanNumeral_append (hds : ∀ d ∈ ds, isDigit d = true)
    (hrest : ∀ c ∈ rest.head?, isDecimalMark c = true) : spanNumeral (ds ++ rest) = (ds, rest) := by
  have hpos : ∀ d ∈ ds, (isDigit d || d == '_') = true := fun d hd => by simp [hds d hd]
  have hhead : rest.takeWhile (fun c => isDigit c || c == '_') = [] ∧
      rest.dropWhile (fun c => isDigit c || c == '_') = rest := by
    cases rest with
    | nil => exact ⟨rfl, rfl⟩
    | cons c rest =>
      have hc := hrest c rfl
      simp only [isDecimalMark, Bool.or_eq_true, beq_iff_eq] at hc
      rcases hc with (rfl | rfl) | rfl <;> exact ⟨rfl, rfl⟩
  rw [spanNumeral, List.span_eq_takeWhile_dropWhile, List.takeWhile_append_of_pos hpos,
    List.dropWhile_append_of_pos hpos, hhead.1, hhead.2, List.append_nil]

theorem exists_optionalRun? (h : ∀ d ∈ ds, isDigit d = true) :
    ∃ run, optionalRun? ds = some run := by
  cases ds with
  | nil => exact ⟨[], rfl⟩
  | cons d ds => exact ⟨_, digitRun?_of_isDigit (by simp) h⟩

theorem IsExponent.exists_readExponent? (h : IsExponent cs) : ∃ k, readExponent? cs = some k := by
  rcases h with rfl | ⟨e, sign, ds, rfl, he, hsign, hne, hds⟩
  · exact ⟨0, rfl⟩
  · have hsplit : ∃ negative, splitSign (sign ++ ds) = (negative, ds) := by
      simp only [List.mem_cons, List.not_mem_nil, or_false] at hsign
      rcases hsign with rfl | rfl | rfl
      · exact ⟨false, splitSign_of_isDigit fun d hd => hds d (List.mem_of_mem_head? hd)⟩
      · exact ⟨false, rfl⟩
      · exact ⟨true, rfl⟩
    obtain ⟨negative, hsplit⟩ := hsplit
    have hmark : (e == 'e' || e == 'E') = true := by simpa using he
    simp [readExponent?, hmark, hsplit, digitRun?_of_isDigit hne hds]

theorem IsNumber.exists_readDecimal? (h : IsNumber text) :
    ∃ parts, readDecimal? text = some parts := by
  obtain ⟨whole, fraction, exponent, rfl, hne, hwhole, hfrac, hexp⟩ := h
  have hmarks : ∀ c ∈ exponent.head?, isDecimalMark c = true := fun c hc => by
    rcases hexp.head c hc with rfl | rfl <;> rfl
  obtain ⟨run, hrun⟩ := exists_optionalRun? hwhole
  obtain ⟨k, hk⟩ := hexp.exists_readExponent?
  have hemp : whole.isEmpty = false := by simpa using hne
  have hnone : optionalRun? [] = some [] := rfl
  rcases hfrac with rfl | ⟨ds, rfl, hds⟩
  · have hspan := spanNumeral_append hwhole hmarks
    refine ⟨(run, [], k), ?_⟩
    cases exponent with
    | nil =>
      rw [List.append_nil] at hspan
      simp [readDecimal?, hspan, hemp, hrun, hnone, hk]
    | cons e exponent =>
      rcases hexp.head e rfl with rfl | rfl
      · simp [readDecimal?, hspan, hemp, hrun, hnone, hk]
      · simp [readDecimal?, hspan, hemp, hrun, hnone, hk]
  · have hspan : spanNumeral (whole ++ '.' :: (ds ++ exponent)) =
        (whole, '.' :: (ds ++ exponent)) :=
      spanNumeral_append hwhole (by simp [isDecimalMark])
    obtain ⟨run', hrun'⟩ := exists_optionalRun? hds
    refine ⟨(run, run', k), ?_⟩
    simp [readDecimal?, hspan, spanNumeral_append hds hmarks, hemp, hrun, hrun', hk]

theorem IsNumber.not_isBlank (h : IsNumber text) : ∀ c ∈ text, isBlank c = false := by
  obtain ⟨whole, fraction, exponent, rfl, hne, hwhole, hfrac, hexp⟩ := h
  have hdigs : ∀ ds : List Char, (∀ d ∈ ds, isDigit d = true) → ∀ d ∈ ds, isBlank d = false :=
    fun ds hds d hd => not_isBlank_of_isDigit (hds d hd)
  simp only [List.forall_mem_append]
  refine ⟨hdigs whole hwhole, ?_, ?_⟩
  · rcases hfrac with rfl | ⟨ds, rfl, hds⟩
    · simp
    · exact List.forall_mem_cons.mpr ⟨by decide, hdigs ds hds⟩
  · rcases hexp with rfl | ⟨e, sign, ds, rfl, he, hsign, -, hds⟩
    · simp
    · refine List.forall_mem_cons.mpr ⟨by rcases he with rfl | rfl <;> decide, ?_⟩
      refine List.forall_mem_append.mpr ⟨?_, hdigs ds hds⟩
      simp only [List.mem_cons, List.not_mem_nil, or_false] at hsign
      rcases hsign with rfl | rfl | rfl <;> exact forall_mem_of_all (by decide)

theorem IsNumber.exists_readDouble? {text : String} (h : IsNumber text.toList) :
    ∃ x, readDouble? text = some x := by
  have htrim : trimBoth isNumberBlank text.toList = text.toList :=
    trimBoth_eq_self fun c hc => isNumberBlank_of_not_isBlank (h.not_isBlank c hc)
  obtain ⟨c, cs, htext, hc⟩ := h.head
  have hsign : splitSign text.toList = (false, text.toList) :=
    splitSign_of_isDigit (by simpa [htext] using hc)
  -- the names of the infinities and of the non-number start with a letter
  have hword : ∀ w : String, w.toList.head?.all (fun d => !isDigit d) = true →
      (String.ofList (text.toList.map Char.toLower) == w) = false := by
    intro w hw
    rw [beq_eq_false_iff_ne]
    rintro rfl
    simp [htext, toLower_of_isDigit hc, hc] at hw
  obtain ⟨parts, hparts⟩ := h.exists_readDecimal?
  simp [readDouble?, htrim, hsign, hword "inf" (by decide), hword "infinity" (by decide),
    hword "nan" (by decide), hparts]

/-- **Every number has a value**, if it has a point or an exponent or is not too long. -/
theorem exists_numberLiteral {text : String} (h : IsNumber text.toList)
    (hlen : text.toList.any isDecimalMark = true ∨ text.length ≤ digitLimit) :
    ∃ value, numberLiteral text = .ok value := by
  cases hmark : text.toList.any isDecimalMark with
  | true =>
    obtain ⟨x, hx⟩ := h.exists_readDouble?
    exact ⟨.real x text, by simp [numberLiteral, any_isDecimalMark, hmark, hx]⟩
  | false =>
    obtain ⟨hne, hdigs⟩ := h.isDigit_of_not_mark hmark
    have hle : text.toList.length ≤ digitLimit := by
      rw [hmark] at hlen
      rw [String.length_toList]
      simpa using hlen
    have hval := numberLiteral_of_isDigit hne hdigs
    rw [if_pos hle, String.ofList_toList] at hval
    exact ⟨_, hval⟩

/-- An integer literal is a natural number within the limit of digits. -/
theorem IsNumber.int_bounds {text text' : String} {n : Int} (h : IsNumber text.toList)
    (hval : numberLiteral text = .ok (.int n text')) :
    text' = text ∧ ∃ m : Nat, n = m ∧ m < 10 ^ digitLimit := by
  cases hmark : text.toList.any isDecimalMark with
  | true =>
    obtain ⟨x, hx⟩ := h.exists_readDouble?
    simp [numberLiteral, any_isDecimalMark, hmark, hx] at hval
  | false =>
    obtain ⟨hne, hdigs⟩ := h.isDigit_of_not_mark hmark
    have hdec := numberLiteral_of_isDigit hne hdigs
    rw [String.ofList_toList, hval] at hdec
    split at hdec
    · next hlen =>
      cases hdec
      have hall : ∀ d ∈ text.toList.map digitOf, d < 10 :=
        List.forall_mem_map.mpr fun c _ => digitOf_lt c
      have hlt := ofDigitList_lt hall
      rw [List.length_map] at hlt
      have hpow : 10 ^ text.toList.length ≤ 10 ^ digitLimit := Nat.pow_le_pow_right (by omega) hlen
      exact ⟨rfl, _, rfl, by omega⟩
    · cases hdec

end SmallCpp
