import SmallCpp.Proofs.Parse.Reading

/-!
# Texts of types are read back

The text of a type is a sequence of signs: words, brackets, commas and the signs behind a type.
Every closing bracket is a sign of its own here, but the lexer pairs them: two closing brackets in a
row are one lexeme, wherever the two lists begin.  Reading takes such a pair apart again, the inner
list first, so the signs ahead of the reader are the lexemes ahead with one bracket in front if a
pair is half used.

## Main results

* `typeExpr_signs` — **a readable type is read from its signs**, however the brackets are paired.
* `typeExpr_roundtrip` — **the text of a type that was read is read as the same type.**
-/

namespace SmallCpp

open Lexical Parse

variable {args : List TypeExpr} {σ front : List TypeSign} {depth n : Nat} {t a : TypeExpr}
  {qualified : Bool} {base : BaseType} {c : Cursor} {w : String}

/-! ### Signs -/

/-- The signs of the text of a type. -/
inductive TypeSign where
  | modifier (m : Modifier)
  | word (text : String)
  /-- The scope sign behind the standard namespace. -/
  | scope
  | opening
  | comma
  | closing
  | pointer
  | reference
deriving DecidableEq, Repr, Inhabited

namespace TypeSign

/-- The characters of a sign; a blank follows modifiers and commas. -/
def chars : TypeSign → List Char
  | modifier m => m.keyword.toList ++ [' ']
  | word text => text.toList
  | scope => [':', ':']
  | opening => ['<']
  | comma => [',', ' ']
  | closing => ['>']
  | pointer => ['*']
  | reference => ['&']

def lexeme : TypeSign → Lexeme
  | modifier m => ⟨.keyword, m.keyword⟩
  | word text => ⟨wordKind text, text⟩
  | scope => ⟨.scope, "::"⟩
  | opening => ⟨.operator, "<"⟩
  | comma => ⟨.delimiter, ","⟩
  | closing => ⟨.operator, ">"⟩
  | pointer => ⟨.operator, "*"⟩
  | reference => ⟨.operator, "&"⟩

def isWordy : TypeSign → Bool
  | modifier _ | word _ => true
  | _ => false

end TypeSign

/-- The signs of the name of a base, with its qualifier. -/
def nameSigns (qualified : Bool) (base : BaseType) : List TypeSign :=
  (if qualified then [.word "std", .scope] else []) ++ [.word base.name]

/-- The signs behind the base and the arguments of a type. -/
def endSigns (pointers : Nat) (isReference : Bool) : List TypeSign :=
  List.replicate pointers .pointer ++ if isReference then [.reference] else []

namespace TypeExpr

mutual

def signs : TypeExpr → List TypeSign
  | ⟨base, qualified, modifiers, args, pointers, isReference⟩ =>
    modifiers.map .modifier ++
    (nameSigns qualified base ++ (argSigns args ++ endSigns pointers isReference))

/-- The signs of the arguments of a type, with the brackets. -/
def argSigns : List TypeExpr → List TypeSign
  | [] => []
  | a :: args => .opening :: (signs a ++ moreSigns args)

/-- The signs behind an argument, up to the closing bracket. -/
def moreSigns : List TypeExpr → List TypeSign
  | [] => [.closing]
  | a :: args => .comma :: (signs a ++ moreSigns args)

end

theorem toList_pushn (c : Char) (n : Nat) : ("".pushn c n).toList = List.replicate n c := by
  rw [String.pushn_eq_repeat_push]
  induction n with
  | zero => rfl
  | succ n ih => rw [Nat.repeat, String.toList_push, ih, List.replicate_succ']

theorem toList_argTexts (h : ∀ b ∈ a :: args, b.text.toList = b.signs.flatMap TypeSign.chars) :
    (", ".intercalate (texts (a :: args))).toList ++ ['>'] =
      (a.signs ++ moreSigns args).flatMap TypeSign.chars := by
  induction args generalizing a with
  | nil => simp [texts, moreSigns, TypeSign.chars, h a (by simp)]
  | cons b args ih =>
    have htail := ih fun b' hb' => h b' (List.mem_cons_of_mem a hb')
    rw [texts] at htail
    rw [texts, texts, String.intercalate_cons_cons, moreSigns, List.flatMap_append,
      List.flatMap_cons,
      ← htail, ← h a (by simp)]
    simp [TypeSign.chars]

theorem toList_text (t : TypeExpr) : t.text.toList = t.signs.flatMap TypeSign.chars := by
  induction t using TypeExpr.induct with
  | h base qualified modifiers args pointers isReference ih =>
    have hmodifiers : (String.join (modifiers.map fun m => m.keyword ++ " ")).toList =
        (modifiers.map TypeSign.modifier).flatMap TypeSign.chars := by
      simp [String.toList_join, List.flatMap_map, TypeSign.chars]
    have hargs : (if args.isEmpty then "" else "<" ++ ", ".intercalate (texts args) ++ ">").toList =
        (argSigns args).flatMap TypeSign.chars := by
      cases args with
      | nil => rfl
      | cons a args =>
        rw [argSigns, List.flatMap_cons, ← toList_argTexts ih]
        simp [TypeSign.chars]
    rw [text, signs]
    have hname : (if qualified then "std::" ++ base.name else base.name).toList =
        (nameSigns qualified base).flatMap TypeSign.chars := by
      cases qualified with
      | true => simp [nameSigns, TypeSign.chars]
      | false => simp [nameSigns, TypeSign.chars]
    have hptrs : List.replicate pointers '*' =
        (List.replicate pointers TypeSign.pointer).flatMap TypeSign.chars := by
      simp [List.flatMap_replicate, TypeSign.chars]
    have href : (if isReference then "&" else "").toList =
        (if isReference then [TypeSign.reference] else []).flatMap TypeSign.chars := by
      cases isReference <;> rfl
    simp only [String.toList_append, hmodifiers, hname, hargs, toList_pushn, hptrs, href,
      endSigns, List.flatMap_append, List.append_assoc]

end TypeExpr

/-! ### Lexemes -/

/-- The lexemes of a sequence of signs: two closing brackets in a row are one lexeme. -/
def paired : List TypeSign → List Lexeme
  | [] => []
  | .closing :: .closing :: σ => ⟨.stream, ">>"⟩ :: paired σ
  | x :: σ => x.lexeme :: paired σ

theorem paired_cons {x : TypeSign} (hx : x ≠ .closing) (σ : List TypeSign) :
    paired (x :: σ) = x.lexeme :: paired σ := by
  cases x with
  | closing => exact absurd rfl hx
  | _ => rfl

theorem paired_append (h : ∀ x ∈ front, x ≠ .closing) (σ : List TypeSign) :
    paired (front ++ σ) = front.map TypeSign.lexeme ++ paired σ := by
  induction front with
  | nil => rfl
  | cons x front ih =>
    rw [List.forall_mem_cons] at h
    rw [List.cons_append, paired_cons h.1, ih h.2]
    rfl

theorem paired_closing (hσ : σ.head? ≠ some .closing) :
    paired (.closing :: σ) = TypeSign.closing.lexeme :: paired σ := by
  match σ with
  | [] => rfl
  | .closing :: σ => exact absurd rfl hσ
  | .modifier _ :: _ | .word _ :: _ | .scope :: _ | .opening :: _ | .comma :: _ | .pointer :: _
  | .reference :: _ => rfl

/-- The sign may stand before the others: words are not run together, the opening bracket comes
before a word, and there is one reference sign at most. -/
def TypeSign.Before (x : TypeSign) (σ : List TypeSign) : Prop :=
  match x with
  | .word text => IsWord text.toList ∧ ∀ y ∈ σ.head?, y.isWordy = false
  | .opening => ∀ y ∈ σ.head?, y.isWordy = true
  | .reference => ∀ y ∈ σ.head?, y ≠ .reference
  | _ => True

/-- The signs may stand one after the other. -/
def Printable : List TypeSign → Prop
  | [] => True
  | x :: σ => x.Before σ ∧ Printable σ

theorem isWord_keyword (m : Modifier) : IsWord m.keyword.toList := by
  cases m <;> decide

/-- What holds of the first characters of the signs that may follow holds of the next character. -/
theorem Printable.head (h : Printable σ) {p : Char → Prop}
    (hwordy : ∀ x ∈ σ.head?, x.isWordy = true → ∀ c, isWordStart c = true → p c)
    (hsign : ∀ x ∈ σ.head?, x.isWordy = false → ∀ c ∈ x.chars.head?, p c) :
    ∀ c ∈ (σ.flatMap TypeSign.chars).head?, p c := by
  intro c hc
  cases σ with
  | nil => cases hc
  | cons x σ =>
    rw [List.flatMap_cons] at hc
    have hword : ∀ {w rest}, IsWord w → c ∈ (w ++ rest).head? → isWordStart c = true := by
      rintro (_ | ⟨d, w⟩) rest ⟨hne, hhead, -⟩ hc
      · exact absurd rfl hne
      · exact hhead c hc
    cases x with
    | modifier m =>
      rw [TypeSign.chars, List.append_assoc] at hc
      exact hwordy _ rfl rfl c (hword (isWord_keyword m) hc)
    | word text => exact hwordy _ rfl rfl c (hword h.1.1 hc)
    | _ => exact hsign _ rfl rfl c hc

theorem apart_of_isWordStart {a c : Char} (h : isWordStart c = true) : Apart a c := by
  refine apart_of_not_mem fun hmem => ?_
  have hnot : ∀ a ∈ shortOperators, isWordStart a = false := forall_mem_of_all (by decide)
  rw [hnot c hmem] at h
  cases h

theorem Printable.head_not_isBlank (h : Printable σ) :
    ∀ c ∈ (σ.flatMap TypeSign.chars).head?, Text.isBlank c = false := by
  refine h.head (fun _ _ _ _ hc => not_isBlank_of_isWordChar (isWordChar_of_isWordStart hc)) ?_
  intro x _ hx c hc
  cases x <;> cases hx <;> cases hc <;> decide

/-- An operator in front of signs that it does not belong to. -/
theorem Printable.lexes_operator (h : Printable σ) {a : Char} (ha : a ∈ shortOperators)
    (hσ : ∀ x ∈ σ.head?, x.isWordy = false → ∀ c ∈ x.chars.head?, Apart a c) :
    Lexes (a :: σ.flatMap TypeSign.chars) [⟨.operator, String.ofList [a]⟩]
      (σ.flatMap TypeSign.chars) :=
  lexes_shortOperator ha (h.head (fun _ _ _ _ => apart_of_isWordStart) hσ)

/-- **The lexemes of a printed type.** -/
theorem lexes_signs (h : Printable σ) : Lexes (σ.flatMap TypeSign.chars) (paired σ) [] := by
  fun_induction paired σ with
  | case1 => exact Lexes.refl []
  | case2 σ ih => exact (lexes_stream (Or.inr rfl) _).append (ih h.2.2)
  | case3 x σ hno ih =>
    obtain ⟨hbefore, hσ⟩ := h
    rw [List.flatMap_cons]
    cases x with
    | modifier m =>
      have hblank : ∀ c ∈ (' ' :: σ.flatMap TypeSign.chars).head?, isWordChar c = false := by
        simp only [List.head?_cons, Option.mem_some, forall_eq']
        decide
      have hword := lexes_word (isWord_keyword m) hblank
      have hspace := lexes_space hσ.head_not_isBlank
      have hlexeme : TypeSign.lexeme (.modifier m) =
          ⟨wordKind (String.ofList m.keyword.toList), String.ofList m.keyword.toList⟩ := by
        cases m <;> rfl
      rw [hlexeme, TypeSign.chars, List.append_assoc]
      exact (hword.append hspace).append (ih hσ)
    | word text =>
      have hnext : ∀ c ∈ (σ.flatMap TypeSign.chars).head?, isWordChar c = false := by
        refine hσ.head (fun x hx hwordy => absurd hwordy (by simp [hbefore.2 x hx])) ?_
        intro x _ hx c hc
        cases x <;> cases hx <;> cases hc <;> decide
      have hword := lexes_word hbefore.1 hnext
      rw [String.ofList_toList] at hword
      exact hword.append (ih hσ)
    | scope => exact (lexes_scope _).append (ih hσ)
    | comma =>
      have hcomma := lexes_delimiter (c := ',') (by decide) (' ' :: σ.flatMap TypeSign.chars)
      exact (hcomma.append (lexes_space hσ.head_not_isBlank)).append (ih hσ)
    | opening =>
      refine (hσ.lexes_operator (a := '<') (by decide) ?_).append (ih hσ)
      intro x hx hwordy
      rw [hbefore x hx] at hwordy
      cases hwordy
    | closing =>
      -- two closing brackets in a row are one lexeme, which is the case before
      refine (hσ.lexes_operator (a := '>') (by decide) ?_).append (ih hσ)
      intro x hx hwordy c hc
      cases x with
      | closing =>
        obtain ⟨σ, rfl⟩ := List.head?_eq_some_iff.mp hx
        exact absurd rfl (hno σ rfl)
      | _ => cases hwordy <;> cases hc <;> decide
    | pointer =>
      refine (hσ.lexes_operator (a := '*') (by decide) ?_).append (ih hσ)
      intro x _ hx c hc
      cases x <;> cases hx <;> cases hc <;> decide
    | reference =>
      refine (hσ.lexes_operator (a := '&') (by decide) ?_).append (ih hσ)
      intro x hx hwordy c hc
      cases x with
      | reference => exact absurd rfl (hbefore _ hx)
      | _ => cases hwordy <;> cases hc <;> decide

theorem Printable.isClean (h : Printable σ) : ∀ c ∈ σ.flatMap TypeSign.chars, Source.IsClean c := by
  induction σ with
  | nil => simp
  | cons x σ ih =>
    rw [List.flatMap_cons]
    refine List.forall_mem_append.mpr ⟨?_, ih h.2⟩
    cases x with
    | modifier m => cases m <;> exact forall_mem_of_all (by decide)
    | word text => exact fun c hc => isClean_of_isWordChar (h.1.1.2.2 c hc)
    | _ => exact forall_mem_of_all (by decide)

theorem TypeSign.lexeme_kind (x : TypeSign) : x.lexeme.kind ≠ .endOfInput := by
  cases x with
  | word text =>
    simp only [TypeSign.lexeme, wordKind]
    split <;> rintro ⟨⟩
  | _ => rintro ⟨⟩

/-! ### Readable types -/

/-- The names of bases: after the standard namespace every word, and on its own the containers, the
words reserved for bases, and the names that stand for no integer. -/
structure IsBaseName (qualified : Bool) (base : BaseType) : Prop where
  ofName : BaseType.ofName base.name = base
  isWord : IsWord base.name.toList
  isBase : qualified = true ∨ base.name ∈ containerKeywords ∨ base.name ∈ baseKeywords ∨
    base.name ∉ keywords ∧ base.name ∉ integerAliases

/-- The types that can be read with a number of rules in progress. -/
inductive Readable : Nat → TypeExpr → Prop where
  | plain {depth : Nat} {base : BaseType} {qualified : Bool} (hbase : IsBaseName qualified base)
      (modifiers : List Modifier) (pointers : Nat) (isReference : Bool) :
      Readable (depth + 1) ⟨base, qualified, modifiers, [], pointers, isReference⟩
  | generic {depth : Nat} {base : BaseType} {qualified : Bool} (hbase : IsBaseName qualified base)
      (hcont : base.name ∈ containerKeywords) (modifiers : List Modifier) {a : TypeExpr}
      {args : List TypeExpr} (hargs : ∀ b ∈ a :: args, Readable depth b) (pointers : Nat)
      (isReference : Bool) :
      Readable (depth + 2) ⟨base, qualified, modifiers, a :: args, pointers, isReference⟩

theorem Readable.mono {more : Nat} (h : Readable depth t) (hle : depth ≤ more) :
    Readable more t := by
  induction h generalizing more with
  | plain hbase modifiers pointers isReference =>
    obtain ⟨k, rfl⟩ : ∃ k, more = k + 1 := ⟨more - 1, by omega⟩
    exact .plain hbase modifiers pointers isReference
  | generic hbase hcont modifiers hargs pointers isReference ih =>
    obtain ⟨k, rfl⟩ : ∃ k, more = k + 2 := ⟨more - 2, by omega⟩
    exact .generic hbase hcont modifiers (fun b hb => ih b hb (by omega)) pointers isReference

/-- What may stand behind a type: the end, a comma or a closing bracket. -/
def Follows (σ : List TypeSign) : Prop :=
  ∀ x ∈ σ.head?, x = .comma ∨ x = .closing

theorem follows_nil : Follows [] :=
  nofun

theorem follows_moreSigns (args : List TypeExpr) (σ : List TypeSign) :
    Follows (TypeExpr.moreSigns args ++ σ) := by
  cases args with
  | nil => exact fun x hx => Or.inr (Option.some.inj hx).symm
  | cons a args => exact fun x hx => Or.inl (Option.some.inj hx).symm

/-- What may stand behind the base and the arguments of a type. -/
def EndsBase (σ : List TypeSign) : Prop :=
  ∀ x ∈ σ.head?, x = .pointer ∨ x = .reference ∨ x = .comma ∨ x = .closing

theorem endsBase_endSigns (pointers : Nat) (isReference : Bool) (hσ : Follows σ) :
    EndsBase (endSigns pointers isReference ++ σ) := by
  intro x hx
  cases pointers with
  | succ n => exact Or.inl (Option.some.inj hx).symm
  | zero =>
    cases isReference with
    | true => exact Or.inr (Or.inl (Option.some.inj hx).symm)
    | false => exact Or.inr (Or.inr (hσ x hx))

theorem printable_endSigns (pointers : Nat) (isReference : Bool) (hσ : Follows σ)
    (hprint : Printable σ) :
    Printable (endSigns pointers isReference ++ σ) := by
  have href : Printable ((if isReference then [.reference] else []) ++ σ) := by
    cases isReference with
    | false => exact hprint
    | true =>
      refine ⟨fun y hy heq => ?_, hprint⟩
      subst heq
      rcases hσ _ hy with h | h <;> cases h
  rw [endSigns, List.append_assoc]
  induction pointers with
  | zero => exact href
  | succ n ih => exact ⟨trivial, ih⟩

theorem isWordy_head_signs (t : TypeExpr) (σ : List TypeSign) :
    ∀ x ∈ (t.signs ++ σ).head?, x.isWordy = true := by
  obtain ⟨base, qualified, modifiers, args, pointers, isReference⟩ := t
  intro x hx
  rw [TypeExpr.signs] at hx
  cases modifiers with
  | cons m modifiers => cases hx; rfl
  | nil => cases qualified <;> cases hx <;> rfl

theorem printable_moreSigns (hargs : ∀ a ∈ args, ∀ σ, Follows σ → Printable σ →
    Printable (a.signs ++ σ))
    (hprint : Printable σ) : Printable (TypeExpr.moreSigns args ++ σ) := by
  induction args with
  | nil => exact ⟨trivial, hprint⟩
  | cons a args ih =>
    rw [TypeExpr.moreSigns, List.cons_append, List.append_assoc]
    refine ⟨trivial, hargs a (by simp) _ (follows_moreSigns args σ) ?_⟩
    exact ih fun b hb => hargs b (List.mem_cons_of_mem a hb)

/-- A name with its modifiers may stand before everything that is no word. -/
theorem printable_name (hbase : IsBaseName qualified base) (modifiers : List Modifier)
    (hσ : ∀ x ∈ σ.head?, x.isWordy = false) (hprint : Printable σ) :
    Printable (modifiers.map .modifier ++ (nameSigns qualified base ++ σ)) := by
  induction modifiers with
  | nil =>
    have hword : Printable (.word base.name :: σ) := ⟨⟨hbase.isWord, hσ⟩, hprint⟩
    cases qualified with
    | false => exact hword
    | true => exact ⟨⟨by decide, by simp [TypeSign.isWordy]⟩, trivial, hword⟩
  | cons m modifiers ih => exact ⟨trivial, ih⟩

/-- The signs of a readable type may stand one after the other. -/
theorem Readable.printable (h : Readable depth t) :
    ∀ σ, Follows σ → Printable σ → Printable (t.signs ++ σ) := by
  induction h with
  | plain hbase modifiers pointers isReference =>
    intro σ hσ hprint
    simp only [TypeExpr.signs, TypeExpr.argSigns, List.append_assoc, List.nil_append]
    refine printable_name hbase modifiers ?_ (printable_endSigns pointers isReference hσ hprint)
    intro x hx
    rcases endsBase_endSigns pointers isReference hσ x hx with rfl | rfl | rfl | rfl <;> rfl
  | @generic depth base qualified hbase hcont modifiers a args hargs pointers isReference ih =>
    intro σ hσ hprint
    simp only [TypeExpr.signs, TypeExpr.argSigns, List.append_assoc, List.cons_append]
    refine printable_name hbase modifiers (by simp [TypeSign.isWordy]) ?_
    refine ⟨isWordy_head_signs a _, ih a (by simp) _ (follows_moreSigns args _) ?_⟩
    refine printable_moreSigns (fun b hb => ih b (List.mem_cons_of_mem a hb)) ?_
    exact printable_endSigns pointers isReference hσ hprint

namespace Parse

theorem typeExpr_succ (depth : Nat) : typeExpr (depth + 1) = (do
    let modifiers ← modifierList
    let x ← typeBase (genericArgs depth)
    let y ← typeSigns
    return ⟨x.1, x.2.1, modifiers, x.2.2, y.1, y.2⟩) := by
  rw [typeExpr]

/-! ### Reading signs -/

/-- The signs ahead, with `n` open lists; a pair of closing brackets may be half used. -/
structure Cursor.Shows (c : Cursor) (σ : List TypeSign) (n : Nat) : Prop where
  openGenerics : c.openGenerics = n
  sees : (c.splitCloser = false ∧ c.Sees (paired σ ++ [endLexeme])) ∨
    c.splitCloser = true ∧ ∃ σ', σ = .closing :: σ' ∧ c.Sees (paired σ' ++ [endLexeme])

namespace Cursor.Shows

variable {x : TypeSign}

theorem whole (h : c.Shows (x :: σ) n) (hx : x ≠ .closing) :
    c.splitCloser = false ∧ c.Sees (x.lexeme :: (paired σ ++ [endLexeme])) := by
  rcases h.sees with ⟨hsplit, hsees⟩ | ⟨-, σ', heq, -⟩
  · rw [paired_cons hx] at hsees
    exact ⟨hsplit, hsees⟩
  · cases heq
    exact absurd rfl hx

theorem head (h : c.Shows (x :: σ) n) (hx : x ≠ .closing) : (c.ahead 0).lexeme = x.lexeme :=
  (h.whole hx).2.head

theorem next (h : c.Shows (x :: σ) n) (hx : x ≠ .closing) :
    c.next.Shows σ n ∧ c.next.splitCloser = false := by
  obtain ⟨hsplit, hsees⟩ := h.whole hx
  have hnext : c.next.splitCloser = false := by rw [next_splitCloser, hsplit]
  exact ⟨⟨by rw [next_openGenerics, h.openGenerics],
    Or.inl ⟨hnext, hsees.next x.lexeme_kind⟩⟩, hnext⟩

/-- Where no pair is half used, the next lexeme is that of the next sign, or a pair. -/
@[elab_as_elim] theorem ahead_zero {p : Lexeme → Prop} (h : c.Shows σ n)
    (hsplit : c.splitCloser = false)
    (hend : p endLexeme) (hpair : p ⟨.stream, ">>"⟩) (hσ : ∀ x ∈ σ.head?, p x.lexeme) :
    p (c.ahead 0).lexeme := by
  rcases h.sees with ⟨-, hsees⟩ | ⟨htrue, -⟩
  · have hhead : ∀ l ∈ (paired σ ++ [endLexeme]).head?, p l := by
      fun_cases paired σ with
      | case1 => simpa using hend
      | case2 σ => simpa using hpair
      | case3 x σ => simpa using hσ
    cases hl : paired σ ++ [endLexeme] with
    | nil => exact absurd hl (by simp)
    | cons l ls =>
      rw [hl] at hsees hhead
      rw [hsees.head]
      exact hhead l rfl
  · rw [hsplit] at htrue
    cases htrue

/-- The second lexeme is no scope sign if the second sign is none. -/
theorem ahead_one (h : c.Shows (x :: σ) n) (hx : x ≠ .closing) (hσ : ∀ y ∈ σ.head?, y ≠ .scope) :
    (c.ahead 1).kind ≠ .scope := by
  obtain ⟨hnext, hsplit⟩ := h.next hx
  have hone : (c.ahead 1).lexeme = (c.next.ahead 0).lexeme := by
    obtain ⟨l, ls, hl⟩ : ∃ l ls, paired σ ++ [endLexeme] = l :: ls := by
      cases paired σ <;> exact ⟨_, _, rfl⟩
    have hsees := (h.whole hx).2
    rw [hl] at hsees
    rw [ahead_one_of_sees hsees, (hsees.next x.lexeme_kind).head]
  have hkind : (c.ahead 1).kind = (c.next.ahead 0).lexeme.kind := congrArg Lexeme.kind hone
  rw [hkind]
  refine hnext.ahead_zero hsplit nofun nofun fun y hy => ?_
  cases y with
  | scope => exact absurd rfl (hσ _ hy)
  | word text =>
    simp only [TypeSign.lexeme, wordKind]
    split <;> rintro ⟨⟩
  | _ => rintro ⟨⟩

/-- There are no more signs than tokens in front of the first closing bracket. -/
theorem length_le (h : c.Shows (front ++ σ) n) (hfront : ∀ x ∈ front, x ≠ .closing) :
    front.length ≤ c.size := by
  rcases h.sees with ⟨-, hsees⟩ | ⟨-, σ', heq, -⟩
  · have hlen := hsees.length_le
    rw [paired_append hfront, List.length_append, List.length_append, List.length_map] at hlen
    omega
  · cases front with
    | nil => exact Nat.zero_le _
    | cons x front =>
      cases heq
      exact absurd rfl (hfront _ List.mem_cons_self)

theorem count_comma_le (h : c.Shows σ n) : σ.count .comma ≤ c.size := by
  have hcnt : ∀ σ, (paired σ).count ⟨.delimiter, ","⟩ = σ.count .comma := by
    intro σ
    fun_induction paired σ with
    | case1 => rfl
    | case2 σ ih => simp [ih]
    | case3 x σ _ ih =>
      have hx : x.lexeme = ⟨.delimiter, ","⟩ ↔ x = .comma := by
        cases x with
        | word text => simp only [TypeSign.lexeme, wordKind]; split <;> simp
        | _ => simp [TypeSign.lexeme]
      simp [List.count_cons, ih, hx]
  have hle : ∀ σ, c.Sees (paired σ ++ [endLexeme]) → σ.count .comma ≤ c.size := by
    intro σ hsees
    have hlen := hsees.length_le
    rw [List.length_append] at hlen
    have := List.count_le_length (a := ⟨.delimiter, ","⟩) (l := paired σ)
    rw [hcnt] at this
    omega
  rcases h.sees with ⟨-, hsees⟩ | ⟨-, σ', rfl, hsees⟩
  · exact hle σ hsees
  · exact hle σ' hsees

/-- What is ahead does not depend on the number of open lists. -/
theorem withOpen (h : c.Shows σ n) (m : Nat) : Cursor.Shows { c with openGenerics := m } σ m :=
  ⟨rfl, h.sees.imp (fun ⟨hsplit, hsees⟩ => ⟨hsplit, ⟨hsees.lexemes, hsees.within⟩⟩)
    fun ⟨hsplit, σ', heq, hsees⟩ => ⟨hsplit, σ', heq, ⟨hsees.lexemes, hsees.within⟩⟩⟩

end Cursor.Shows

def closers : List TypeSign → Nat
  | .closing :: σ => closers σ + 1
  | _ => 0

/-- A list is closed by its bracket, however the brackets are paired. -/
theorem closeGeneric_signs (h : c.Shows (.closing :: σ) (n + 1)) (hσ : closers σ ≤ n) :
    ∃ c', closeGeneric c = .ok () c' ∧ c'.Shows σ n := by
  rcases h.sees with ⟨hsplit, hsees⟩ | ⟨hsplit, σ', heq, hsees⟩
  · by_cases hnext : σ.head? = some .closing
    · obtain ⟨σ, rfl⟩ := List.head?_eq_some_iff.mp hnext
      have hopen : 2 ≤ c.openGenerics := by
        rw [h.openGenerics]
        simp only [closers] at hσ
        omega
      refine ⟨{ c.next with splitCloser := true, openGenerics := c.next.openGenerics - 1 },
        ?_, ?_, ?_⟩
      · rw [closeGeneric, run_get]
        simp [hsplit, isOperator_of_lexeme hsees.head, is_of_lexeme hsees.head, hopen]
        rfl
      · simp [next_openGenerics, h.openGenerics]
      · have hnext := hsees.next nofun
        exact Or.inr ⟨rfl, σ, rfl, ⟨hnext.lexemes, hnext.within⟩⟩
    · rw [paired_closing hnext] at hsees
      refine ⟨{ c.next with openGenerics := c.next.openGenerics - 1 }, ?_, ?_, ?_⟩
      · rw [closeGeneric, run_get]
        simp [hsplit, isOperator_of_lexeme hsees.head, TypeSign.lexeme]
        rfl
      · simp [next_openGenerics, h.openGenerics]
      · have hnext := hsees.next nofun
        exact Or.inl ⟨by simp [next_splitCloser, hsplit], ⟨hnext.lexemes, hnext.within⟩⟩
  · cases heq
    refine ⟨{ c with splitCloser := false, openGenerics := c.openGenerics - 1 }, ?_, ?_, ?_⟩
    · rw [closeGeneric, run_get, if_pos hsplit]
      rfl
    · simp [h.openGenerics]
    · exact Or.inl ⟨rfl, ⟨hsees.lexemes, hsees.within⟩⟩

theorem modifierList_signs {modifiers : List Modifier}
    (h : c.Shows (modifiers.map .modifier ++ .word w :: σ) n) (hw : w ≠ "const" ∧ w ≠ "static") :
    ∃ c', modifierList c = .ok modifiers c' ∧ c'.Shows (.word w :: σ) n := by
  have hlen : modifiers.length ≤ c.size := by
    have hle := h.length_le (by simp)
    rwa [List.length_map] at hle
  have hreads : Reads (∀ m ∈ modifiers, True) modifierList c fun ms c' =>
      ms.map id = modifiers.map id ∧ c'.Shows (.word w :: σ) n := by
    refine Reads.repeatWhile (fun ms c => c.Shows (ms.map .modifier ++ .word w :: σ) n) _ _ _ _ ?_
      ?_ h hlen
    · intro c hc
      refine ⟨c, ?_, hc⟩
      have hkw : (c.ahead 0).isKeyword ["const", "static"] = false := by
        rw [isKeyword_of_lexeme (hc.head nofun)]
        simp [TypeSign.lexeme, hw]
      exact congrArg (EStateM.Result.ok · c) hkw
    · intro m ms c hc
      have hhead := hc.head nofun
      refine ⟨c, ?_, (Reads.of_ok rfl ⟨?_, (hc.next nofun).1⟩)⟩
      · have hkw : (c.ahead 0).isKeyword ["const", "static"] = true := by
          rw [isKeyword_of_lexeme hhead]
          cases m <;> rfl
        exact congrArg (EStateM.Result.ok · c) hkw
      · have htext : (c.ahead 0).text = m.keyword := congrArg Lexeme.text hhead
        rw [htext]
        cases m <;> rfl
  obtain ⟨ms, c', hrun, hms, hc'⟩ := hreads.1 fun _ _ => trivial
  rw [List.map_id, List.map_id] at hms
  exact ⟨c', hms ▸ hrun, hc'⟩

/-- The signs behind a base are read, unless they belong to the type around it. -/
theorem typeSigns_signs {pointers : Nat} {isReference : Bool}
    (h : c.Shows (endSigns pointers isReference ++ σ) n) (hσ : Follows σ) :
    ∃ c', typeSigns c = .ok (pointers, isReference) c' ∧ c'.Shows σ n := by
  have hsigns : ∀ x ∈ endSigns pointers isReference, x = .pointer ∨ x = .reference := by
    intro x hx
    rcases List.mem_append.mp hx with hx | hx
    · exact Or.inl (List.eq_of_mem_replicate hx)
    · cases isReference with
      | true => exact Or.inr (List.mem_singleton.mp hx)
      | false => cases hx
  -- every sign is one token, so the bound of the loop is not reached
  have hlen : (endSigns pointers isReference).length ≤ c.size := by
    refine h.length_le ?_
    intro x hx
    rcases hsigns x hx with rfl | rfl <;> exact nofun
  let more : Parser Bool := do
    return !(← get).splitCloser && (← peekOperator ["*", "&"])
  have hreads : Reads (∀ x ∈ endSigns pointers isReference, True) (repeatWhile more advance) c
      fun ts c' => ts.map Token.text = (endSigns pointers isReference).map
      (fun x => x.lexeme.text) ∧
        c'.Shows σ n := by
    refine Reads.repeatWhile
      (fun s c => c.Shows (s ++ σ) n ∧ ∀ x ∈ s, x = TypeSign.pointer ∨ x = TypeSign.reference)
      _ _ _ _ ?_ ?_ ⟨h, hsigns⟩ hlen
    · rintro c ⟨hc, -⟩
      refine ⟨c, ?_, hc⟩
      have hstop : (!c.splitCloser && (c.ahead 0).isOperator ["*", "&"]) = false := by
        cases hsplit : c.splitCloser with
        | true => rfl
        | false =>
          rw [isOperator_of_lexeme rfl]
          refine hc.ahead_zero hsplit rfl rfl fun x hx => ?_
          rcases hσ x hx with rfl | rfl <;> rfl
      exact congrArg (EStateM.Result.ok · c) hstop
    · rintro x s c ⟨hc, hs⟩
      rw [List.forall_mem_cons] at hs
      have hx : x ≠ .closing := by rcases hs.1 with rfl | rfl <;> exact nofun
      refine ⟨c, ?_, Reads.of_ok rfl ⟨congrArg Lexeme.text (hc.head hx), (hc.next hx).1, hs.2⟩⟩
      have hgo : (!c.splitCloser && (c.ahead 0).isOperator ["*", "&"]) = true := by
        rw [(hc.whole hx).1, isOperator_of_lexeme (hc.head hx)]
        rcases hs.1 with rfl | rfl <;> rfl
      exact congrArg (EStateM.Result.ok · c) hgo
  obtain ⟨ts, c', hrun, hts, hc'⟩ := hreads.1 fun _ _ => trivial
  have hres : typeSigns c =
      .ok ((ts.filter fun t => t.text == "*").length, ts.any fun t => t.text != "*") c' :=
    run_bind_ok hrun
  -- the signs are counted by their texts
  have hptrs : (ts.filter fun t => t.text == "*").length = pointers := by
    have hfilter : ((ts.map Token.text).filter (· == "*")).length = pointers := by
      rw [hts]
      cases isReference <;> simp [endSigns, TypeSign.lexeme]
    rwa [List.filter_map, List.length_map] at hfilter
  have href : (ts.any fun t => t.text != "*") = isReference := by
    have hany : (ts.map Token.text).any (· != "*") = isReference := by
      rw [hts]
      cases isReference <;> simp [endSigns, TypeSign.lexeme]
    rwa [List.any_map] at hany
  rw [hptrs, href] at hres
  exact ⟨c', hres, hc'⟩

theorem length_le_count_moreSigns (args : List TypeExpr) :
    args.length ≤ (TypeExpr.moreSigns args).count .comma := by
  induction args with
  | nil => exact Nat.zero_le _
  | cons a args ih =>
    rw [TypeExpr.moreSigns, List.count_cons_self, List.count_append, List.length_cons]
    omega

def ReadsType (depth : Nat) (t : TypeExpr) : Prop :=
  ∀ (σ : List TypeSign) (n : Nat) (c : Cursor), Follows σ → closers σ ≤ n →
    c.Shows (t.signs ++ σ) n → ∃ c', typeExpr depth c = .ok t c' ∧ c'.Shows σ n

def ReadsArgs (depth : Nat) (args : List TypeExpr) : Prop :=
  ∃ d, depth = d + 1 ∧ ∀ b ∈ args, ReadsType d b

/-- The arguments of a container are read, with their brackets. -/
theorem genericArgs_signs (hargs : ∀ b ∈ a :: args, ReadsType depth b)
    (h : c.Shows (TypeExpr.argSigns (a :: args) ++ σ) n) (hσ : closers σ ≤ n) :
    ∃ c', genericArgs (depth + 1) c = .ok (a :: args) c' ∧ c'.Shows σ n := by
  rw [TypeExpr.argSigns, List.cons_append, List.append_assoc] at h
  obtain ⟨hnext, -⟩ := h.next nofun
  let more : Parser Bool := do
    if (← get).splitCloser then return false else matchDelimiter ","
  let start : Cursor := { c.next with openGenerics := c.next.openGenerics + 1 }
  have hrun : genericArgs (depth + 1) c = (typeExpr depth >>= fun first =>
      repeatWhile more (typeExpr depth) >>= fun others =>
        closeGeneric >>= fun _ => pure (first :: others)) start := by
    rw [genericArgs, run_discard_advance]
    rfl
  have hstart : start.Shows (a.signs ++ (TypeExpr.moreSigns args ++ σ)) (n + 1) :=
    hnext.openGenerics ▸ hnext.withOpen (c.next.openGenerics + 1)
  have hclosers : ∀ args, closers (TypeExpr.moreSigns args ++ σ) ≤ n + 1 := by
    intro args
    cases args with
    | nil => exact Nat.succ_le_succ hσ
    | cons a args => exact Nat.zero_le _
  obtain ⟨c₁, hfirst, hc₁⟩ :=
    hargs a (by simp) _ _ _ (follows_moreSigns args σ) (hclosers args) hstart
  -- a comma stands before each further argument, so the bound of the loop is not reached
  have hlen : args.length ≤ c₁.size := by
    refine Nat.le_trans ?_ hc₁.count_comma_le
    rw [List.count_append]
    exact Nat.le_add_right_of_le (length_le_count_moreSigns args)
  have hmore : ∀ c, more c = if c.splitCloser = true then .ok false c else matchDelimiter
      "," c := by
    intro c
    refine (run_get _ c).trans ?_
    split <;> rfl
  have hreads : Reads (∀ b ∈ args, True) (repeatWhile more (typeExpr depth)) c₁ fun others c' =>
      others.map id = args.map id ∧ c'.Shows (.closing :: σ) (n + 1) := by
    -- before each round the rest of the arguments is ahead
    refine Reads.repeatWhile (fun bs c => c.Shows (TypeExpr.moreSigns bs ++ σ) (n + 1) ∧
      ∀ b ∈ bs, ReadsType depth b) _ _ _ _ ?_ ?_ ⟨hc₁, fun b hb => hargs b (by simp [hb])⟩ hlen
    · rintro c ⟨hc, -⟩
      refine ⟨c, ?_, hc⟩
      rw [hmore]
      cases hsplit : c.splitCloser with
      | true => rfl
      | false =>
        have hnot : (c.ahead 0).isDelimiter "," = false := by
          rw [isDelimiter_of_lexeme rfl]
          exact hc.ahead_zero hsplit rfl rfl fun x hx => by cases hx; rfl
        simp [run_matchDelimiter, hnot]
    · rintro b bs c ⟨hc, hbs⟩
      rw [TypeExpr.moreSigns, List.cons_append, List.append_assoc] at hc
      rw [List.forall_mem_cons] at hbs
      obtain ⟨c', hread, hc'⟩ :=
        hbs.1 _ _ _ (follows_moreSigns bs σ) (hclosers bs) (hc.next nofun).1
      refine ⟨c.next, ?_, (Reads.of_ok hread ⟨rfl, hc', hbs.2⟩)⟩
      have hcomma : (c.ahead 0).isDelimiter "," = true := isDelimiter_of_lexeme (hc.head nofun) ","
      rw [hmore, (hc.whole nofun).1, run_matchDelimiter, hcomma]
      rfl
  obtain ⟨others, c₂, hothers, hsame, hc₂⟩ := hreads.1 fun _ _ => trivial
  rw [List.map_id, List.map_id] at hsame
  obtain ⟨c₃, hclose, hc₃⟩ := closeGeneric_signs hc₂ hσ
  refine ⟨c₃, ?_, hc₃⟩
  rw [hrun, run_bind_ok hfirst, run_bind_ok hothers, run_bind_ok hclose, hsame]
  rfl

/-- The arguments of a base are read if there are any; only containers have arguments. -/
theorem optionalArgs_signs {allowed : Bool}
    (hargs : args = [] ∨ allowed = true ∧ ReadsArgs depth args)
    (h : c.Shows (TypeExpr.argSigns args ++ σ) n) (hsplit : c.splitCloser = false)
    (hσ : closers σ ≤ n)
    (hhead : EndsBase σ) :
    ∃ c', optionalArgs (genericArgs depth) allowed c = .ok args c' ∧ c'.Shows σ n := by
  have hrun : optionalArgs (genericArgs depth) allowed c =
      (if allowed && (c.ahead 0).isOperator ["<"] then genericArgs depth else pure []) c := rfl
  cases args with
  | nil =>
    have hnot : (c.ahead 0).isOperator ["<"] = false := by
      rw [isOperator_of_lexeme rfl]
      refine h.ahead_zero hsplit rfl rfl fun x hx => ?_
      rcases hhead x hx with rfl | rfl | rfl | rfl <;> rfl
    refine ⟨c, ?_, h⟩
    rw [hrun, hnot, Bool.and_false]
    rfl
  | cons a args =>
    obtain hnil | ⟨rfl, d, rfl, hread⟩ := hargs
    · cases hnil
    · obtain ⟨c', hc', hshows⟩ := genericArgs_signs hread h hσ
      refine ⟨c', ?_, hshows⟩
      have hopening : (c.ahead 0).isOperator ["<"] = true :=
        isOperator_of_lexeme (h.head nofun) ["<"]
      rw [hrun, hopening]
      exact hc'

theorem wordKind_cases (w : String) : wordKind w = .keyword ∨ wordKind w = .identifier := by
  unfold wordKind
  split
  · exact Or.inl rfl
  · exact Or.inr rfl

section Base

variable (hbase : IsBaseName qualified base)
  (hargs : args = [] ∨ base.name ∈ containerKeywords ∧ ReadsArgs depth args)
  (h : c.Shows (nameSigns qualified base ++ (TypeExpr.argSigns args ++ σ)) n) (hσ : closers σ ≤ n)
  (hhead : EndsBase σ)

include hbase hargs h hσ hhead

/-- A base in the standard namespace is read with its arguments. -/
theorem typeBase_qualified (hqualified : qualified = true) :
    ∃ c', typeBase (genericArgs depth) c = .ok (base, true, args) c' ∧ c'.Shows σ n := by
  subst hqualified
  have hstd : (c.ahead 0).lexeme = ⟨.identifier, "std"⟩ := h.head nofun
  have hsecond : (c.ahead 1).lexeme = ⟨.scope, "::"⟩ := ahead_one_of_sees (h.whole nofun).2
  have hscope : (c.ahead 1).kind = .scope := congrArg Lexeme.kind hsecond
  obtain ⟨h₁, -⟩ := h.next nofun
  obtain ⟨h₂, -⟩ := h₁.next nofun
  obtain ⟨h₃, hsplit⟩ := h₂.next nofun
  have hname : (c.next.next.ahead 0).lexeme = ⟨wordKind base.name, base.name⟩ := h₂.head nofun
  have hkind : (c.next.next.ahead 0).kind = wordKind base.name := congrArg Lexeme.kind hname
  have htext : (c.next.next.ahead 0).text = base.name := congrArg Lexeme.text hname
  have hrun : typeBase (genericArgs depth) c =
      (optionalArgs (genericArgs depth) (containerKeywords.contains base.name) >>= fun args =>
        pure (BaseType.ofName base.name, true, args)) c.next.next.next := by
    rw [typeBase, run_peek, run_peekStd, isKeyword_of_lexeme hstd, is_of_lexeme hstd, hscope]
    simp only [beq_self_eq_true, Bool.and_self, if_true]
    rw [if_neg (by decide), run_discard_advance, run_discard_advance, run_advance, if_neg, htext]
    rcases wordKind_cases base.name with hword | hword <;> simp [hkind, hword]
  have hallowed : args = [] ∨ containerKeywords.contains base.name = true ∧ ReadsArgs depth args :=
    hargs.imp_right fun ⟨hmem, hread⟩ => ⟨by simpa using hmem, hread⟩
  obtain ⟨c', hopt, hc'⟩ := optionalArgs_signs hallowed h₃ hsplit hσ hhead
  refine ⟨c', ?_, hc'⟩
  rw [hrun, run_bind_ok hopt, hbase.ofName]
  rfl

theorem typeBase_unqualified (hqualified : qualified = false) :
    ∃ c', typeBase (genericArgs depth) c = .ok (base, false, args) c' ∧ c'.Shows σ n := by
  subst hqualified
  have hname : (c.ahead 0).lexeme = ⟨wordKind base.name, base.name⟩ := h.head nofun
  have hkind : (c.ahead 0).kind = wordKind base.name := congrArg Lexeme.kind hname
  have htext : (c.ahead 0).text = base.name := congrArg Lexeme.text hname
  obtain ⟨h₁, hsplit⟩ := h.next nofun
  -- what may follow a base name is no scope sign, so the name is not qualified
  have hscope : ((c.ahead 1).kind == .scope) = false := by
    rw [beq_eq_false_iff_ne]
    refine h.ahead_one nofun ?_
    intro y hy
    cases args with
    | nil => rcases hhead y hy with rfl | rfl | rfl | rfl <;> exact nofun
    | cons a args => cases hy; exact nofun
  by_cases hcont : base.name ∈ containerKeywords
  · have hword : wordKind base.name = .keyword := by
      have hall : ∀ w ∈ containerKeywords, wordKind w = .keyword := by decide
      exact hall _ hcont
    have hrun : typeBase (genericArgs depth) c =
      (optionalArgs (genericArgs depth) true >>= fun args =>
        pure (BaseType.ofName base.name, false, args)) c.next := by
      rw [typeBase, run_peek, run_peekStd, isKeyword_of_lexeme hname, hword,
        if_pos (by simpa), htext]
      rfl
    obtain ⟨c', hopt, hc'⟩ := optionalArgs_signs (hargs.imp_right fun ⟨_, hread⟩ => ⟨rfl, hread⟩) h₁
      hsplit hσ hhead
    refine ⟨c', ?_, hc'⟩
    rw [hrun, run_bind_ok hopt, hbase.ofName]
    rfl
  · obtain rfl : args = [] := hargs.resolve_right fun ⟨hmem, _⟩ => hcont hmem
    have hrun : typeBase (genericArgs depth) c = .ok (BaseType.ofName base.name, false, [])
        c.next := by
      rw [typeBase, run_peek, run_peekStd, isKeyword_of_lexeme hname,
        isKeyword_of_lexeme hname, hscope]
      rw [if_neg (by simp [hcont]), if_neg (by simp)]
      rcases hbase.isBase with hno | hno | hkw | ⟨hnot, halias⟩
      · cases hno
      · exact absurd hno hcont
      · have hall : ∀ w ∈ baseKeywords, wordKind w = .keyword := by decide
        rw [if_pos (by simp [hall _ hkw, hkw]), htext]
        rfl
      · have hword : wordKind base.name = .identifier := if_neg hnot
        rw [if_neg (by simp [hword]), if_neg (by simp [isIntegerAlias, hkind, htext, halias]),
          if_pos (by simp [hkind, hword]), htext]
        rfl
    exact ⟨c.next, by rw [hrun, hbase.ofName], h₁⟩

end Base

theorem closers_endSigns_le (pointers : Nat) (isReference : Bool) (σ : List TypeSign) :
    closers (endSigns pointers isReference ++ σ) ≤ closers σ := by
  cases pointers with
  | succ n => exact Nat.zero_le _
  | zero =>
    cases isReference with
    | true => exact Nat.zero_le _
    | false => exact Nat.le_refl _

theorem exists_nameSigns (h : IsBaseName qualified base) (σ : List TypeSign) :
    ∃ w τ, nameSigns qualified base ++ σ = .word w :: τ ∧
      w ≠ "const" ∧ w ≠ "static" := by
  cases qualified with
  | true => exact ⟨"std", _, rfl, by decide, by decide⟩
  | false =>
    have hnot : ∀ w ∈ ["const", "static"], w ∉ containerKeywords ∧ w ∉ baseKeywords ∧
        w ∈ keywords := by
      decide
    have hname : base.name ∉ ["const", "static"] := by
      intro hmem
      obtain ⟨hcont, hbase, hkw⟩ := hnot _ hmem
      rcases h.isBase with hno | hno | hno | ⟨hno, -⟩
      · cases hno
      · exact hcont hno
      · exact hbase hno
      · exact hno hkw
    simp only [List.mem_cons, List.not_mem_nil, or_false, not_or] at hname
    exact ⟨base.name, σ, rfl, hname⟩

theorem readsType_of_args (hbase : IsBaseName qualified base)
    (hargs : args = [] ∨ base.name ∈ containerKeywords ∧ ReadsArgs depth args)
    (modifiers : List Modifier) (pointers : Nat) (isReference : Bool) :
    ReadsType (depth + 1) ⟨base, qualified, modifiers, args, pointers, isReference⟩ := by
  intro σ n c hσ hn h
  simp only [TypeExpr.signs, List.append_assoc] at h
  obtain ⟨w, τ, hτ, hw⟩ := exists_nameSigns hbase
    (TypeExpr.argSigns args ++ (endSigns pointers isReference ++ σ))
  rw [hτ] at h
  obtain ⟨c₁, hmodifiers, h₁⟩ := modifierList_signs h hw
  rw [← hτ] at h₁
  have hclosers := Nat.le_trans (closers_endSigns_le pointers isReference σ) hn
  have hhead := endsBase_endSigns pointers isReference hσ
  have hname : ∃ c₂, typeBase (genericArgs depth) c₁ = .ok (base, qualified, args) c₂ ∧
      c₂.Shows (endSigns pointers isReference ++ σ) n := by
    cases qualified with
    | true => exact typeBase_qualified hbase hargs h₁ hclosers hhead rfl
    | false => exact typeBase_unqualified hbase hargs h₁ hclosers hhead rfl
  obtain ⟨c₂, hbaseRun, h₂⟩ := hname
  obtain ⟨c₃, hsigns, h₃⟩ := typeSigns_signs h₂ hσ
  refine ⟨c₃, ?_, h₃⟩
  rw [typeExpr_succ, run_bind_ok hmodifiers, run_bind_ok hbaseRun, run_bind_ok hsigns]
  rfl

/-- **A readable type is read from its signs**, however its brackets are paired. -/
theorem readsType_of_readable (h : Readable depth t) : ReadsType depth t := by
  induction h with
  | plain hbase modifiers pointers isReference =>
    exact readsType_of_args hbase (Or.inl rfl) modifiers pointers isReference
  | generic hbase hcont modifiers hargs pointers isReference ih =>
    exact readsType_of_args hbase (Or.inr ⟨hcont, _, rfl, ih⟩) modifiers pointers isReference

/-! ### What is read -/

theorem gives_modifierList : Gives modifierList fun _ => True :=
  (Ensures.repeatWhile (Q := fun _ => True) (.look fun _ => rfl)
    (Gives.advance.bind fun _ _ => .pure trivial)).mono fun _ _ => trivial

theorem gives_typeSigns : Gives typeSigns fun _ => True :=
  (Ensures.repeatWhile (Ensures.look fun _ => rfl) Gives.advance).bind fun _ _ => .pure trivial

theorem gives_closeGeneric : Gives closeGeneric fun _ => True := by
  refine Ensures.get fun c hc => .ite (fun _ => Ensures.set hc) fun _ => ?_
  refine .ite (fun _ => ?_) fun _ => .ite (fun _ => ?_) fun _ => .throw
  · exact Gives.advance.discard.bind fun _ _ => Gives.modify fun _ => rfl
  · exact Gives.advance.discard.bind fun _ _ => Gives.modify fun _ => rfl

theorem gives_skipIntegerAlias : Gives skipIntegerAlias fun _ => True :=
  (Ensures.repeatWhile (Ensures.look fun _ => rfl) Gives.advance).bind fun _ _ =>
    (Ensures.matchKeyword _).discard

theorem name_ofName (w : String) : (BaseType.ofName w).name = w := by
  by_cases hknown : w ∈ ["int", "float", "double", "char", "bool", "void", "auto", "string",
    "vector",
      "map", "pair"]
  · have hall : ∀ w ∈ ["int", "float", "double", "char", "bool", "void", "auto", "string", "vector",
        "map", "pair"], (BaseType.ofName w).name = w := by decide
    exact hall w hknown
  · have hnamed : BaseType.ofName w = .named w := by
      simp only [List.mem_cons, List.not_mem_nil, or_false, not_or, ← beq_eq_false_iff_ne] at hknown
      simp only [BaseType.ofName, hknown, Bool.false_eq_true, if_false]
    rw [hnamed]
    rfl

theorem isBaseName_ofName (hword : IsWord w.toList)
    (hbase : qualified = true ∨ w ∈ containerKeywords ∨ w ∈ baseKeywords ∨
      w ∉ keywords ∧ w ∉ integerAliases) : IsBaseName qualified (BaseType.ofName w) := by
  refine ⟨?_, ?_, ?_⟩ <;> rw [name_ofName]
  · exact hword
  · exact hbase

/-- What the rule for generic arguments gives. -/
def ReadableArgs (depth : Nat) (args : List TypeExpr) : Prop :=
  ∃ d a as, depth = d + 1 ∧ args = a :: as ∧ ∀ b ∈ a :: as, Readable d b

theorem gives_optionalArgs (hargs : Gives (genericArgs depth) (ReadableArgs depth))
    (allowed : Bool) :
    Gives (optionalArgs (genericArgs depth) allowed) fun args =>
      args = [] ∨ allowed = true ∧ ReadableArgs depth args := by
  refine (Ensures.look fun _ => rfl).bind fun b _ => .ite (fun hb => ?_) fun _ => .pure (Or.inl rfl)
  exact hargs.mono fun args h => Or.inr ⟨(Bool.and_eq_true_iff.mp hb).1, h⟩

theorem gives_typeBase (hargs : Gives (genericArgs depth) (ReadableArgs depth)) :
    Gives (typeBase (genericArgs depth)) fun x => IsBaseName x.2.1 x.1 ∧
      (x.2.2 = [] ∨ x.1.name ∈ containerKeywords ∧ ReadableArgs depth x.2.2) := by
  unfold typeBase
  refine Gives.peek.bind fun t ht => (Ensures.look fun _ => rfl).bind fun std _ => ?_
  refine .ite (fun hcont => ?_) fun _ => .ite (fun _ => ?_) fun _ =>
    .ite (fun hkw => ?_) fun _ => .ite (fun _ => ?_) fun halias =>
    .ite (fun hid => ?_) fun _ => Ensures.failHere _
  · simp only [Token.isKeyword, Bool.and_eq_true, beq_iff_eq, List.contains_iff_mem] at hcont
    refine Gives.advance.discard.bind fun _ _ =>
      (gives_optionalArgs hargs true).bind fun args has => ?_
    refine .pure ⟨isBaseName_ofName (ht.isWord (Or.inr hcont.1)) (Or.inr (Or.inl hcont.2)),
      has.imp_right fun h => ⟨?_, h.2⟩⟩
    rw [name_ofName]
    exact hcont.2
  -- behind a scope sign any word may be the name, also a keyword
  · refine Gives.advance.discard.bind fun _ _ => Gives.advance.discard.bind fun _ _ =>
      Gives.advance.bind fun q hq => .ite (fun _ => .throw) fun hkind => ?_
    have hword : q.kind = .identifier ∨ q.kind = .keyword := by
      by_cases hid : q.kind = .identifier
      · exact Or.inl hid
      · exact Or.inr (by simpa [hid] using hkind)
    refine (gives_optionalArgs hargs _).bind fun args has => ?_
    refine .pure ⟨isBaseName_ofName (hq.isWord hword) (Or.inl rfl), has.imp_right fun h =>
      ⟨?_, h.2⟩⟩
    rw [name_ofName]
    simpa using h.1
  · simp only [Token.isKeyword, Bool.and_eq_true, beq_iff_eq, List.contains_iff_mem] at hkw
    refine Gives.advance.discard.bind fun _ _ => .pure ⟨?_, Or.inl rfl⟩
    exact isBaseName_ofName (ht.isWord (Or.inr hkw.1)) (Or.inr (Or.inr (Or.inl hkw.2)))
  · refine gives_skipIntegerAlias.bind fun _ _ => .pure ⟨⟨rfl, ?_, ?_⟩, Or.inl rfl⟩
    · decide
    · exact Or.inr (Or.inr (Or.inl (by decide)))
  · have hkind : t.kind = .identifier := by simpa using hid
    refine Gives.advance.discard.bind fun _ _ => .pure ⟨?_, Or.inl rfl⟩
    refine isBaseName_ofName (ht.isWord (Or.inl hkind)) (Or.inr (Or.inr (Or.inr ⟨?_, ?_⟩)))
    · exact (ht.identifier hkind).2
    · simpa [isIntegerAlias, hkind] using halias

theorem gives_typeExpr (depth : Nat) :
    Gives (typeExpr depth) (Readable depth) ∧ Gives (genericArgs depth) (ReadableArgs depth) := by
  induction depth with
  | zero => exact ⟨.throw, .throw⟩
  | succ depth ih =>
    refine ⟨?_, ?_⟩
    · rw [typeExpr_succ]
      refine gives_modifierList.bind fun modifiers _ => (gives_typeBase ih.2).bind fun x hx =>
        gives_typeSigns.bind fun y _ => .pure ?_
      obtain ⟨base, qualified, args⟩ := x
      obtain ⟨hbase, rfl | ⟨hcont, d, a, as, rfl, rfl, hread⟩⟩ := hx
      · exact .plain hbase modifiers y.1 y.2
      · exact .generic hbase hcont modifiers hread y.1 y.2
    · rw [genericArgs]
      refine Gives.advance.discard.bind fun _ _ => Ensures.bind (Gives.modify ?_) fun _ _ => ?_
      · exact fun _ => rfl
      refine ih.1.bind fun a ha => (Ensures.repeatWhile ?_ ih.1).bind fun as has =>
        gives_closeGeneric.bind fun _ _ => .pure ?_
      · exact Ensures.get fun _ _ => .ite (fun _ => .pure trivial) fun _ => Ensures.matchDelimiter _
      · exact ⟨depth, a, as, rfl, rfl, List.forall_mem_cons.mpr ⟨ha, has⟩⟩

end Parse

/-- **The text of a type that was read is read as the same type**, up to the end, wherever in a
source the type was read, and with no more rules in progress than it took there. -/
theorem typeExpr_roundtrip {text file : String} {tokens : List Token}
    (htoks : (Source.ofText text file).tokenize = .ok tokens) {c c' : Cursor}
    (hc : c.rest <:+ tokens) {depth : Nat} {t : TypeExpr} (hread : typeExpr depth c = .ok t c')
    (file' : String) {depth' : Nat} (hdepth : depth ≤ depth') :
    ∃ last, (Source.ofText t.text file').parseWith (typeExpr depth') = .ok (t, last) ∧
      last.kind = .endOfInput := by
  have hcut := Source.cut_of_tokenize htoks
  have hreadable : Readable depth' t :=
    ((gives_typeExpr depth).1 c t c' (fun u hu => hcut u (hc.subset hu)) hread).2.mono hdepth
  have hprint : Printable t.signs := by
    have happend := hreadable.printable [] follows_nil trivial
    rwa [List.append_nil] at happend
  have hchars : (Source.ofText t.text file').chars = t.signs.flatMap TypeSign.chars := by
    rw [← t.toList_text]
    refine Source.normalize_of_isClean fun u hu => ?_
    rw [t.toList_text] at hu
    exact hprint.isClean u hu
  have hlexes : Lexes (Source.ofText t.text file').chars (paired t.signs) [] :=
    hchars ▸ lexes_signs hprint
  obtain ⟨tokens', htoks', hsees⟩ := exists_sees hlexes
  have hshows : (Cursor.start tokens').Shows (t.signs ++ []) 0 := by
    rw [List.append_nil]
    exact ⟨rfl, Or.inl ⟨rfl, hsees⟩⟩
  obtain ⟨c'', hrun, hend⟩ :=
    readsType_of_readable hreadable [] 0 (Cursor.start tokens') follows_nil (Nat.le_refl 0) hshows
  refine ⟨c''.ahead 0, ?_, ?_⟩
  · simp only [Source.parseWith, htoks', runOn, hrun]
  · rcases hend.sees with ⟨-, hsees⟩ | ⟨-, _, hno, -⟩
    · exact congrArg Lexeme.kind hsees.head
    · cases hno

/-- The three closing brackets are a pair and a single one, and the alias is written as an
integer. -/
theorem typeExpr_roundtrip_nested :
    let t :
      TypeExpr := ⟨.map, true, [.const], [.of .int [], .of .vector [.of .pair [.of (.named "T") [],
      { TypeExpr.of .int [] with pointers := 1 }]]], 0, true⟩
    ∃ tokens c, (Source.ofText "const std::map<long, vector<pair<T, int*>>>&" "<input>").tokenize =
    .ok tokens ∧
      typeExpr 7 (Cursor.start tokens) = .ok t c ∧
      t.text = "const std::map<int, vector<pair<T, int*>>>&" ∧
      ∃ last, (Source.ofText t.text "<input>").parseWith (typeExpr 7) = .ok (t, last) ∧
        last.kind = .endOfInput := by
  intro t
  obtain ⟨tokens, c, htoks, hrest, hread⟩ : ∃ tokens c,
      (Source.ofText "const std::map<long, vector<pair<T, int*>>>&" "<input>").tokenize =
      .ok tokens ∧
        (Cursor.start tokens).rest = tokens ∧ typeExpr 7 (Cursor.start tokens) = .ok t c :=
    ⟨_, _, rfl, rfl, rfl⟩
  have hsuf : (Cursor.start tokens).rest <:+ tokens := ⟨[], hrest⟩
  exact ⟨tokens, c, htoks, hread, rfl, typeExpr_roundtrip htoks hsuf hread "<input>"
    (Nat.le_refl 7)⟩

end SmallCpp
