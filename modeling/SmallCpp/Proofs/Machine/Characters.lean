import SmallCpp.Proofs.Machine.StorageTyping

/-!
# Locations of characters

Conversions to the type of characters, its default and the tokens that are read for it are
characters.  The locations with that type do not keep them: a character may be subscripted like a
text, and an assignment to the subscript stores the changed text, which no conversion makes a
character again.  Nor is a character always one code point: the subscript of a brace list gives the
text of its element, whatever its length, and a conversion leaves that as it is.  What a run does
keep is that these locations hold characters or texts.

## Main results

* `character_locations_spelled` — **the states of a run are spelled, and conversions to characters,
  their default and their tokens are characters.**
-/

namespace SmallCpp

variable {t : TypeExpr}

/-! ### Conversions to characters -/

/-- The type is that of characters and not of a pointer. -/
def TypeExpr.isCharacter (t : TypeExpr) : Bool :=
  t.base == .char && !t.isPointer

theorem TypeExpr.isCharacter_iff : t.isCharacter = true ↔ t.base = .char ∧ t.isPointer = false := by
  simp [isCharacter]

def Value.isCharacter (v : Value) : Bool :=
  v matches .char _

/-- The value is a character of one code point. -/
def Value.isCodePoint (v : Value) : Bool :=
  v matches .char [_]

/-- The braces around a value that is converted do not matter, and lists of several values are not
converted.  Only what is a character already is left as it is. -/
theorem answers_coerce_character (ht : t.isCharacter = true) (v : Value) :
    Answers (fun w => w.isCharacter = true ∧ (w.isCodePoint = true ∨ unwrap? v = some w))
    (coerce t v) := by
  obtain ⟨hbase, hp⟩ := TypeExpr.isCharacter_iff.mp ht
  rw [coerce_of_scalar hp (by rw [hbase]; rfl), hbase]
  cases hw : unwrap? v with
  | none => exact .failure _
  | some w =>
    refine answers_toCharacter_of_single (fun _ => ⟨rfl, .inl rfl⟩) fun s hs => ⟨?_, .inr rfl⟩
    rw [hs]
    rfl

theorem defaultOf_character (ht : t.isCharacter = true) : defaultOf t = pure (.char [0]) := by
  obtain ⟨hbase, hp⟩ := TypeExpr.isCharacter_iff.mp ht
  rw [defaultOf_eq, if_neg (Bool.eq_false_iff.mp hp), hbase]

theorem answers_readToken_character (token : String) :
    Answers (fun w => w.isCodePoint = true) (readToken token (some .char)) := by
  rw [readToken]
  cases token.toList with
  | nil => exact .failure _
  | cons c cs => exact .value rfl

/-! ### Runs -/

/-- Every location of characters holds a character or a text. -/
def State.Spelled (s : State) : Prop :=
  ∀ l ∈ s.locations, l.1.any TypeExpr.isCharacter = true → l.2.asText? ≠ none

theorem asText?_of_tolerates {v : Value} (hv : tolerates (some t) v = true)
    (ht : t.isCharacter = true) :
    v.asText? ≠ none := by
  obtain ⟨hbase, hp⟩ := TypeExpr.isCharacter_iff.mp ht
  rw [tolerates, hp, hbase] at hv
  cases v with
  | char | text => exact Option.some_ne_none _
  | _ => cases hv

theorem Custody.Guarded.spelled {C : Custody} {s : State} (hs : C.Guarded s) : s.Spelled := by
  rintro ⟨_ | t, v⟩ hl ht
  · cases ht
  · exact asText?_of_tolerates (hs.kind_of_mem _ hl).1 ht

/-- **Locations of characters.**  Whatever a program does, each variable, element, key, value and
field with the type of characters holds a character or a text, at every moment of a run and when it
ends.  What a conversion to the type gives is a character, of one code point if the value was not a
character before; the default and the tokens of input are of one code point. -/
theorem character_locations_spelled (p : Program) (input : List String) (limits : Limits)
    (lines : Array String) :
    (∀ a, Visits ⟨p.link, limits⟩ (fun _ => True) ⟨.start limits input, []⟩ a → a.state.Spelled) ∧
      (p.run input limits lines).state.Spelled ∧
      ∀ t : TypeExpr, t.isCharacter = true →
        (∀ v, Answers (fun w => w.isCharacter = true ∧ (w.isCodePoint = true ∨ unwrap? v = some w))
          (coerce t v)) ∧
          defaultOf t = pure (.char [0]) ∧
          ∀ token, Answers (fun w => w.isCodePoint = true) (readToken token (some t.base)) := by
  have hp : p.Every (Custody.since 0 0).Permits (Custody.since 0 0).frees :=
    fun stmt _ => stmt.every_of_forall Custody.permits_since Custody.frees_since
  have hstart : (Custody.since 0 0).Guarded (.start limits input) :=
    Custody.guarded_start (fun _ => Nat.zero_le _) (fun _ => Nat.zero_le _) (fun _ => id)
    limits input
  refine ⟨fun a ha => ha.guarded_since.spelled, (Custody.guarded_run hp hstart lines).spelled,
    fun t ht => ?_⟩
  · refine ⟨answers_coerce_character ht, defaultOf_character ht, fun token => ?_⟩
    rw [(TypeExpr.isCharacter_iff.mp ht).1]
    exact answers_readToken_character token

/-- The programs `char c = 'a'; c[0] = 'b';`, after which a text is in the place of a character, and
`string* p = "abc"; char& c = p[0]; p = {"xyz", "b"}; char d = c;`, after which a variable holds a
character of three code points. -/
theorem character_locations_spelled_subscripted :
    let pos : Position := ⟨1, 1⟩
    let char (c : Char) : Expr := .literal pos (.char c "")
    let text (s : String) : Expr := .literal pos (.string s "")
    let name (x : String) : Expr := .name pos x
    let element (x : String) : Expr := .index pos (name x) (.literal pos (.int 0 "0"))
    let declared (type : TypeExpr) (x : String) (e : Expr) :
      Stmt := .declare ⟨pos, type, x, some e, .single⟩
    let p : Program := ⟨"", [declared { base := .char } "c" (char 'a'),
      .evaluate pos (.assign pos .assign (element "c") (char 'b'))]⟩
    let q : Program := ⟨"", [declared { base := .string, pointers := 1 } "p" (text "abc"),
      declared { base := .char, isReference := true } "c" (element "p"),
      .evaluate pos (.assign pos .assign (name "p") (.braces pos [text "xyz", text "b"])),
      declared { base := .char } "d" (name "c")]⟩
    let final (p : Program) : State := (p.run [] ⟨100, 10⟩ #[]).state
    (∃ l ∈ (final p).locations, l.1.any TypeExpr.isCharacter = true ∧ l.2.isCharacter = false) ∧
      (∃ l ∈ (final q).locations, l.1.any TypeExpr.isCharacter = true ∧ l.2.isCharacter = true ∧
        l.2.isCodePoint = false) ∧
      (final p).Spelled ∧ (final q).Spelled := by
  intro pos char text name element declared p q final
  exact ⟨by decide +kernel, by decide +kernel, (character_locations_spelled p [] ⟨100, 10⟩ #[]).2.1,
    (character_locations_spelled q [] ⟨100, 10⟩ #[]).2.1⟩

end SmallCpp
