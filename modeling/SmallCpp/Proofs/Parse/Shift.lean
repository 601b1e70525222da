import SmallCpp.Proofs.Parse.Brackets

/-!
# Shifts outside brackets

The sign between the parts of a print statement is also an operator.  Tokens are taken apart at the
signs that stand outside brackets.  Other tokens stay in one part, whatever is behind them, and only
brackets change the number of brackets that are open. -/

namespace SmallCpp.Parse

variable {t : Token} {ts us : List Token} {i j k n : Nat}

/-- The number of signs `<<` outside brackets, if `n` brackets are open before the tokens. -/
def topShifts : Nat → List Token → Nat
  | _, [] => 0
  | n, t :: ts =>
    if isOpening t then topShifts (n + 1) ts
    else if isClosing t then topShifts (n - 1) ts
    else if t.is .stream "<<" && n == 0 then topShifts n ts + 1
    else topShifts n ts

/-- The tokens before, between and behind these signs. -/
def shiftParts : Nat → List Token → List (List Token)
  | _, [] => [[]]
  | n, t :: ts =>
    if isOpening t then (shiftParts (n + 1) ts).modifyHead (t :: ·)
    else if isClosing t then (shiftParts (n - 1) ts).modifyHead (t :: ·)
    else if t.is .stream "<<" && n == 0 then [] :: shiftParts n ts
    else (shiftParts n ts).modifyHead (t :: ·)

theorem length_shiftParts (ts : List Token) (n : Nat) :
    (shiftParts n ts).length = topShifts n ts + 1 := by
  induction ts generalizing n with
  | nil => rfl
  | cons t ts ih =>
    rw [shiftParts, topShifts]
    split
    · rw [List.length_modifyHead, ih]
    split
    · rw [List.length_modifyHead, ih]
    split
    · rw [List.length_cons, ih]
    · rw [List.length_modifyHead, ih]

/-- Where `i` brackets are open, the tokens stay in one part, and `j` brackets are open behind
them. -/
def Moves (i : Nat) (ts : List Token) (j : Nat) : Prop :=
  ∀ us, shiftParts i (ts ++ us) = (shiftParts j us).modifyHead (ts ++ ·)

theorem moves_nil : Moves n [] n := fun us => by
  rw [List.nil_append]
  cases shiftParts n us <;> rfl

theorem Moves.append (h : Moves i ts j) (h' : Moves j us k) : Moves i (ts ++ us) k := fun vs => by
  rw [List.append_assoc, h, h', List.modifyHead_modifyHead]
  simp only [Function.comp_def, List.append_assoc]

/-- What a bracket or a comma does where `i` brackets are open, of those that it may close. -/
def Groups (i : Nat) (text : String) (j : Nat) : Prop :=
  (i, text, j) ∈ [(0, "(", 1), (0, "[", 1), (0, "\x7b", 1), (1, ")", 0), (1, "]", 0),
    (1, "\x7d", 0), (0, ",", 0)]

instance {text : String} : Decidable (Groups i text j) :=
  inferInstanceAs (Decidable (_ ∈ _))

theorem moves_grouping {text : String} (h : t.isDelimiter text = true) (hgroups : Groups i text j)
    (n : Nat) :
    Moves (n + i) [t] (n + j) := by
  simp only [Token.isDelimiter, Token.is, Bool.and_eq_true, beq_iff_eq] at h
  simp only [Groups, List.mem_cons, Prod.mk.injEq, List.not_mem_nil, or_false] at hgroups
  intro us
  rcases hgroups with ⟨rfl, rfl, rfl⟩ | ⟨rfl, rfl, rfl⟩ | ⟨rfl, rfl, rfl⟩ | ⟨rfl, rfl, rfl⟩
    | ⟨rfl, rfl, rfl⟩ |
    ⟨rfl, rfl, rfl⟩ | ⟨rfl, rfl, rfl⟩ <;> simp [shiftParts, isOpening, isClosing, Token.is, h]

theorem moves_single (hkind : t.kind ≠ .delimiter) (hshift : t.is .stream "<<" = true → n ≠ 0) :
    Moves n [t] n :=
  fun us => by
    have hinside : (t.is .stream "<<" && n == 0) = false := by
      cases hsign : t.is .stream "<<" with
      | false => rfl
      | true => simpa using hshift hsign
    simp [shiftParts, isOpening, isClosing, hkind, hinside]

theorem moves_of_flat (h : ∀ t ∈ ts, Flat t) : Moves n ts n := by
  induction ts with
  | nil => exact moves_nil
  | cons t ts ih =>
    obtain ⟨hopening, hclosing, hsign⟩ := h t List.mem_cons_self
    have hhead : Moves n [t] n := fun us => by simp [shiftParts, hopening, hclosing, hsign]
    exact hhead.append (ih fun u hu => h u (List.mem_cons_of_mem t hu))

end SmallCpp.Parse
