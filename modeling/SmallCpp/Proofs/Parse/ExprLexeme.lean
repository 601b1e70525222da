import SmallCpp.Expr.Text
import SmallCpp.Proofs.Number.Numeral
import SmallCpp.Proofs.Parse.Reading
import SmallCpp.Proofs.Syntax.Every

/-!
# Lexemes of expressions

The text of an expression has a bracket, a comma, a blank or an operator behind every part of it,
and no part begins with an operator or a blank.  So no part runs into the next one, and the lexemes
of the text are those of the parts.  The one exception is an integer before a point, which is a
decimal number.

## Main results

* `Expr.printed_of_writable` — **the text of such an expression has its lexemes.**
-/

namespace SmallCpp

open Lexical Parse

variable {e o : Expr} {c : Char} {rest cs : List Char} {es : List Expr}

/-! ### Conditions on the nodes -/

/-- The value and the text of a literal are those of a token. -/
def Literal.Spelled : Literal → Prop
  | int value _ => ∃ n : Nat, value = n ∧ n < 10 ^ digitLimit
  | string value text => (∀ c ∈ text.toList, Source.IsClean c) ∧ text.toList ≠ [] ∧
    stringLength text.toList = text.toList.length ∧
    value = String.ofList (decodeEscapes (inner text))
  | char value text => (∀ c ∈ text.toList, Source.IsClean c) ∧ text.toList ≠ [] ∧
    charLength text.toList = text.toList.length ∧ value = (decodeEscapes (inner text)).headD '\x00'
  | real _ _ | bool _ => True

namespace Expr

/-- The words and literals of the node are those of tokens. -/
def Spelled : Expr → Prop
  | literal _ value => value.Spelled
  | name _ id => IsWord id.toList ∧ id ∉ keywords
  | member _ _ access field => IsWord field.toList ∧ (access ≠ .scope → field ∉ keywords)
  | _ => True

/-- The expression is an integer literal. -/
def isInteger : Expr → Bool
  | literal _ (.int _ _) => true
  | _ => false

/-- The node is neither an allocation nor a decimal number, and not a member of an integer, whose
point would belong to the number. -/
def Plain : Expr → Prop
  | literal _ (.real _ _) | new _ _ | newArray _ _ _ => False
  | member _ object access _ => ¬ (object.isInteger = true ∧ access = .dot)
  | _ => True

/-- Both conditions: the text of such nodes is read back. -/
def Writable (e : Expr) : Prop :=
  e.Spelled ∧ e.Plain

end Expr

/-- The node of an operator between two operands. -/
def Parse.Joint.node (p : Position) : Joint → Expr → Expr → Expr
  | assign op, left, right => .assign p op left right
  | binary op, left, right => .binary p op left right

/-- Induction on writable expressions. -/
theorem Expr.writable_induction {P : Expr → Prop}
    (literal : ∀ p value, value.Spelled → (∀ x text, value ≠ .real x text) → P (.literal p value))
    (name : ∀ p id, IsWord id.toList → id ∉ keywords → P (.name p id)) (endl : ∀ p, P (.endl p))
    (unary : ∀ p op e, P e → P (.unary p op e)) (step : ∀ p op e, P e → P (.step p op e))
    (joint : ∀ p joint left right, P left → P right → P (Joint.node p joint left right))
    (call : ∀ p callee args, P callee → (∀ a ∈ args, P a) → P (.call p callee args))
    (member : ∀ p object access field, IsWord field.toList → (access ≠ .scope → field ∉ keywords) →
      ¬ (object.isInteger = true ∧ access = .dot) → P object → P (.member p object access field))
    (index : ∀ p object subscript, P object → P subscript → P (.index p object subscript))
    (braces : ∀ p elements, (∀ e ∈ elements, P e) → P (.braces p elements)) (h : e.Every Writable) :
    P e := by
  revert h
  induction e using Expr.rec (motive_2 := fun es => EveryOf Writable es → ∀ e ∈ es, P e) with
  | literal p value =>
    intro h
    refine literal p value h.1 ?_
    rintro x text rfl
    exact h.2
  | name p id => exact fun h => name p id h.1.1 h.1.2
  | unary p op e ih => exact fun h => unary p op e (ih h.2)
  | step p op e ih => exact fun h => step p op e (ih h.2)
  | binary p op l r ihl ihr => exact fun h => joint p (.binary op) l r (ihl h.2.1) (ihr h.2.2)
  | assign p op l r ihl ihr => exact fun h => joint p (.assign op) l r (ihl h.2.1) (ihr h.2.2)
  | call p f args ihf ihargs => exact fun h => call p f args (ihf h.2.1) (ihargs h.2.2)
  | member p o access field ih =>
    exact fun h => member p o access field h.1.1.1 h.1.1.2 h.1.2 (ih h.2)
  | index p o i iho ihi => exact fun h => index p o i (iho h.2.1) (ihi h.2.2)
  | new p t => exact fun h => h.2.elim
  | newArray p t size => exact fun h => h.1.2.elim
  | braces p es ih => exact fun h => braces p es (ih h.2)
  | endl p => exact fun _ => endl p
  | nil _ e he => cases he
  | cons e es ihe ihes h e' he =>
    rcases List.mem_cons.mp he with rfl | he
    · exact ihe h.1
    · exact ihes h.2 e' he

/-! ### Lexemes -/

def Literal.kind : Literal → TokenKind
  | int _ _ | real _ _ => .number
  | string _ _ => .string
  | char _ _ => .char
  | bool _ => .keyword

def Literal.lexeme (value : Literal) : Lexeme :=
  ⟨value.kind, value.shown⟩

/-- The lexeme of a sign of member access. -/
def Access.lexeme (access : Access) : Lexeme :=
  ⟨if access = .scope then .scope else .operator, access.symbol⟩

/-- The lexeme of a bracket or a comma. -/
def bracket (text : String) : Lexeme :=
  ⟨.delimiter, text⟩

namespace Expr

mutual

/-- The lexemes of the text of an expression without allocations. -/
@[simp]
def lexemes : Expr → List Lexeme
  | literal _ value => [value.lexeme]
  | name _ id => [⟨.identifier, id⟩]
  | unary _ op e => bracket "(" :: ⟨.operator, op.symbol⟩ :: (lexemes e ++ [bracket ")"])
  | step _ op e => bracket "(" :: (lexemes e ++ [⟨.operator, op.symbol⟩, bracket ")"])
  | binary _ op left right =>
    bracket "(" :: (lexemes left ++ (Joint.binary op).lexeme :: (lexemes right ++ [bracket ")"]))
  | assign _ op left right =>
    bracket "(" :: (lexemes left ++ (Joint.assign op).lexeme :: (lexemes right ++ [bracket ")"]))
  | call _ callee args => lexemes callee ++ bracket "(" :: (listLexemes args ++ [bracket ")"])
  | member _ object access field => lexemes object ++ [access.lexeme, ⟨wordKind field, field⟩]
  | index _ object subscript =>
    lexemes object ++ bracket "[" :: (lexemes subscript ++ [bracket "]"])
  | braces _ elements => bracket "\x7b" :: (listLexemes elements ++ [bracket "\x7d"])
  | endl _ => [⟨.keyword, "endl"⟩]
  | new _ _ | newArray _ _ _ => []

/-- The lexemes of several expressions, with commas between them. -/
def listLexemes : List Expr → List Lexeme
  | [] => []
  | e :: es => lexemes e ++ moreLexemes es

/-- The lexemes of several expressions, with a comma before each. -/
def moreLexemes : List Expr → List Lexeme
  | [] => []
  | e :: es => bracket "," :: (lexemes e ++ moreLexemes es)

end

/-! ### Where texts begin and end -/

theorem toList_shown_int (n : Nat) (text : String) :
    (Literal.int n text).shown.toList = Nat.toDigits 10 n := by
  change (toString n).toList = _
  rw [Nat.toString_eq_ofList_toDigits, String.toList_ofList]

/-- The text begins with neither an operator nor a blank. -/
def Begins (cs : List Char) : Prop :=
  ∃ c ∈ cs.head?, c ∉ shortOperators ∧ Text.isBlank c = false

theorem Begins.append (h : Begins cs) (cs' : List Char) : Begins (cs ++ cs') := by
  obtain ⟨c, hc, hfacts⟩ := h
  obtain ⟨cs, rfl⟩ := List.head?_eq_some_iff.mp hc
  exact ⟨c, rfl, hfacts⟩

theorem Begins.forall (h : Begins cs) :
    ∀ c ∈ cs.head?, c ∉ shortOperators ∧ Text.isBlank c = false := by
  obtain ⟨c, hc, hfacts⟩ := h
  intro d hd
  rw [Option.mem_def.mp hc] at hd
  cases hd
  exact hfacts

theorem begins_of_isWordChar (h : isWordChar c = true) (cs : List Char) : Begins (c :: cs) := by
  refine ⟨c, rfl, fun hmem => ?_, not_isBlank_of_isWordChar h⟩
  have hnot : ∀ a ∈ shortOperators, isWordChar a = false := forall_mem_of_all (by decide)
  rw [hnot c hmem] at h
  cases h

theorem begins_of_isWord {w : List Char} (h : IsWord w) : Begins w := by
  obtain ⟨c, cs, rfl⟩ := List.exists_cons_of_ne_nil h.1
  exact begins_of_isWordChar (h.2.2 c List.mem_cons_self) cs

/-- The characters that can stand behind an expression in a text. -/
def followers : List Char :=
  [' ', '(', ')', '[', ']', '\x7d', ',', '.', '-', '+', ':']

/-- The text of the expression ends before `more`. -/
def EndsBefore (e : Expr) (more : List Char) : Prop :=
  ∀ c ∈ more.head?, c ∈ followers ∧ (e.isInteger = true → c ≠ '.')

theorem endsBefore_cons (hc : c ∈ followers) (hdot : c ≠ '.') (more : List Char) :
    e.EndsBefore (c :: more) := by
  intro d hd
  cases hd
  exact ⟨hc, fun _ => hdot⟩

theorem EndsBefore.not_isWordChar {more : List Char} (h : e.EndsBefore more) :
    ∀ c ∈ more.head?, isWordChar c = false := by
  have hall : ∀ c ∈ followers, isWordChar c = false := forall_mem_of_all (by decide)
  exact fun c hc => hall c (h c hc).1

/-! ### Operators -/

theorem lexes_unaryOp (op : UnaryOp) (hrest : Begins rest) :
    Lexes (op.symbol.toList ++ rest) [⟨.operator, op.symbol⟩] rest := by
  have hshort : ∀ a ∈ shortOperators, Lexes (a :: rest) [⟨.operator, String.ofList [a]⟩] rest :=
    fun a ha => lexes_shortOperator ha fun c hc => apart_of_not_mem (hrest.forall c hc).1
  cases op with
  | negate => exact hshort '-' (by decide)
  | plus => exact hshort '+' (by decide)
  | not => exact hshort '!' (by decide)
  | complement => exact hshort '~' (by decide)
  | increment => exact lexes_longOperator (a := '+') (b := '+') (by decide) rest
  | decrement => exact lexes_longOperator (a := '-') (b := '-') (by decide) rest

theorem lexes_stepOp (op : StepOp) (rest : List Char) :
    Lexes (op.symbol.toList ++ rest) [⟨.operator, op.symbol⟩] rest := by
  cases op with
  | increment => exact lexes_longOperator (a := '+') (b := '+') (by decide) rest
  | decrement => exact lexes_longOperator (a := '-') (b := '-') (by decide) rest

theorem lexes_access (access : Access) (hrest : Begins rest) :
    Lexes (access.symbol.toList ++ rest) [access.lexeme] rest := by
  cases access with
  | dot =>
    exact lexes_shortOperator (a := '.') (by decide) fun c hc =>
      apart_of_not_mem (hrest.forall c hc).1
  | arrow => exact lexes_longOperator (a := '-') (b := '>') (by decide) rest
  | scope => exact lexes_scope rest

/-- An operator between operands is a stream arrow, or an operator of two characters or of one. -/
theorem joint_lexeme_mem (joint : Joint) :
    joint.lexeme ∈ ['<', '>'].map (fun c => ⟨.stream, String.ofList [c, c]⟩) ++
      (longOperators.map (fun p => ⟨.operator, String.ofList [p.1, p.2]⟩) ++
        shortOperators.map fun a => ⟨.operator, String.ofList [a]⟩) := by
  cases joint with
  | assign op => cases op <;> decide
  | binary op => cases op <;> decide

theorem lexes_space_cons (hc : Text.isBlank c = false) (rest : List Char) :
    Lexes (' ' :: c :: rest) [] (c :: rest) := by
  refine lexes_space fun d hd => ?_
  cases hd
  exact hc

theorem lexes_joint (joint : Joint) (hrest : Begins rest) :
    Lexes (' ' :: (joint.lexeme.text.toList ++ ' ' :: rest)) [joint.lexeme] rest := by
  have hspace : Lexes (' ' :: rest) [] rest := lexes_space fun c hc => (hrest.forall c hc).2
  have hmem := joint_lexeme_mem joint
  rw [List.mem_append, List.mem_append, List.mem_map, List.mem_map, List.mem_map] at hmem
  rcases hmem with ⟨c, hc, heq⟩ | ⟨⟨a, b⟩, hab, heq⟩ | ⟨a, ha, heq⟩ <;>
    simp only [← heq, String.toList_ofList, List.cons_append, List.nil_append]
  · have hblank : ∀ c ∈ ['<', '>'], Text.isBlank c = false := forall_mem_of_all (by decide)
    have hc' : c = '<' ∨ c = '>' := by simpa using hc
    exact ((lexes_space_cons (hblank c hc) _).append (lexes_stream hc' _)).append hspace
  · have hblank : ∀ p ∈ longOperators, Text.isBlank p.1 = false := by decide
    exact ((lexes_space_cons (hblank _ hab) _).append (lexes_longOperator hab _)).append hspace
  · have hfacts : ∀ a ∈ shortOperators, Text.isBlank a = false ∧ Apart a ' ' :=
      forall_mem_of_all (by decide)
    have hsign : Lexes (a :: ' ' :: rest) [⟨.operator, String.ofList [a]⟩] (' ' :: rest) := by
      refine lexes_shortOperator ha fun c hc => ?_
      cases hc
      exact (hfacts a ha).2
    exact ((lexes_space_cons (hfacts a ha).1 _).append hsign).append hspace

/-! ### Texts -/

/-- The text is normalized, begins with neither an operator nor a blank, and has the lexemes of the
expression, whatever stands behind it. -/
structure Printed (e : Expr) : Prop where
  begins : Begins e.text.toList
  clean : ∀ c ∈ e.text.toList, Source.IsClean c
  lexes : ∀ more, e.EndsBefore more → Lexes (e.text.toList ++ more) e.lexemes more

section Atoms

variable {w : String}

theorem printed_word (hw : IsWord w.toList) (htext : e.text = w)
    (hlexemes : e.lexemes = [⟨wordKind w, w⟩]) : e.Printed where
  begins := htext ▸ begins_of_isWord hw
  clean := fun c hc => isClean_of_isWordChar (hw.2.2 c (htext ▸ hc))
  lexes := by
    intro more hmore
    have hword := lexes_word hw hmore.not_isWordChar
    rw [String.ofList_toList] at hword
    rwa [htext, hlexemes]

theorem printed_integer (p : Position) (n : Nat) (text : String) :
    (literal p (.int n text)).Printed := by
  have htext : (literal p (.int n text)).text.toList = Nat.toDigits 10 n := by
    rw [Expr.text, toList_shown_int]
  have hdigit : ∀ d ∈ Nat.toDigits 10 n, d.isDigit = true :=
    fun d hd => Nat.isDigit_of_mem_toDigits (by decide) (by decide) hd
  have hword : ∀ d ∈ Nat.toDigits 10 n, isWordChar d = true :=
    fun d hd => by simp [isWordChar, Char.isAlphanum, hdigit d hd]
  have hlexemes : (literal p (.int n text)).lexemes =
      [⟨.number, String.ofList (Nat.toDigits 10 n)⟩] := by
    rw [← Nat.toString_eq_ofList_toDigits, lexemes]
    rfl
  refine ⟨?_, ?_, ?_⟩
  · obtain ⟨d, ds, hds⟩ := List.exists_cons_of_ne_nil (Nat.toDigits_ne_nil (n := n) (b := 10))
    rw [htext, hds]
    exact begins_of_isWordChar (hword d (hds ▸ List.mem_cons_self)) ds
  · rw [htext]
    exact fun c hc => isClean_of_isWordChar (hword c hc)
  · intro more hmore
    have hfollow : ∀ c ∈ followers, Text.isDigit c = false ∧ (c ≠ '.' → isDecimalMark c = false) :=
      forall_mem_of_all (by decide)
    have hnum : IsNumber (Nat.toDigits 10 n) :=
      ⟨_, [], [], by simp, Nat.toDigits_ne_nil, fun d hd => isDigit_of_ascii (hdigit d hd),
      Or.inl rfl, Or.inl rfl⟩
    rw [htext, hlexemes]
    exact lexes_number hnum fun c hc =>
      ⟨(hfollow c (hmore c hc).1).1, (hfollow c (hmore c hc).1).2 ((hmore c hc).2 rfl)⟩

theorem printed_literal (p : Position) {value : Literal} (h : value.Spelled)
    (hreal : ∀ x text, value ≠ .real x text) : (literal p value).Printed := by
  cases value with
  | int value text =>
    obtain ⟨n, rfl, -⟩ := h
    exact printed_integer p n text
  | real x text => exact absurd rfl (hreal x text)
  | string value text =>
    obtain ⟨hclean, hne, hlen, -⟩ := h
    obtain ⟨cs, hcs⟩ := eq_cons_of_stringLength hne hlen
    refine ⟨?_, ?_, ?_⟩ <;> rw [Expr.text]
    · exact ⟨'"', by rw [Literal.shown, hcs]; rfl, by decide⟩
    · exact hclean
    · intro more _
      have hlexes := lexes_string hne hlen more
      rwa [String.ofList_toList] at hlexes
  | char value text =>
    obtain ⟨hclean, hne, hlen, -⟩ := h
    obtain ⟨cs, hcs⟩ := eq_cons_of_charLength hne hlen
    refine ⟨?_, ?_, ?_⟩ <;> rw [Expr.text]
    · exact ⟨'\'', by rw [Literal.shown, hcs]; rfl, by decide⟩
    · exact hclean
    · intro more _
      have hlexes := lexes_char hne hlen more
      rwa [String.ofList_toList] at hlexes
  | bool value =>
    cases value with
    | true => exact printed_word (w := "true") (by decide) rfl rfl
    | false => exact printed_word (w := "false") (by decide) rfl rfl

end Atoms

theorem printed_between (opening closing : Char) (inside : List Char) (ls : List Lexeme)
    (h : (opening, closing) ∈ [('(', ')'), ('\x7b', '\x7d')])
    (htext : e.text.toList = opening :: (inside ++ [closing]))
    (hlexemes : e.lexemes = bracket (String.ofList [opening]) ::
      (ls ++ [bracket (String.ofList [closing])]))
    (hclean : ∀ c ∈ inside, Source.IsClean c)
    (hinside : ∀ more, Lexes (inside ++ closing :: more) ls (closing :: more)) : e.Printed := by
  have hall : ∀ p ∈ [('(', ')'), ('\x7b', '\x7d')],
      (p.1 ∉ shortOperators ∧ Text.isBlank p.1 = false) ∧ Source.IsClean p.1 ∧ Source.IsClean p.2 ∧
      p.1 ∈ ['[', ']', '(', ')', '\x7b', '\x7d', ';', ','] ∧
      p.2 ∈ ['[', ']', '(', ')', '\x7b', '\x7d', ';', ','] := by decide
  obtain ⟨hbegins, hopening, hclosing, hfirst, hlast⟩ := hall _ h
  refine ⟨?_, ?_, ?_⟩ <;> rw [htext]
  · exact ⟨opening, rfl, hbegins⟩
  · simp only [List.forall_mem_cons, List.forall_mem_append]
    exact ⟨hopening, hclean, hclosing, nofun⟩
  · intro more _
    rw [List.cons_append, List.append_assoc, hlexemes]
    exact (lexes_delimiter hfirst _).append ((hinside more).append (lexes_delimiter hlast more))

theorem printed_suffix (suffix : List Char) (ls : List Lexeme) (ho : o.Printed)
    (htext : e.text.toList = o.text.toList ++ suffix) (hlexemes : e.lexemes = o.lexemes ++ ls)
    (hends : ∀ more, o.EndsBefore (suffix ++ more)) (hclean : ∀ c ∈ suffix, Source.IsClean c)
    (hsuffix : ∀ more, e.EndsBefore more → Lexes (suffix ++ more) ls more) : e.Printed := by
  refine ⟨?_, ?_, ?_⟩ <;> rw [htext]
  · exact ho.begins.append suffix
  · exact List.forall_mem_append.mpr ⟨ho.clean, hclean⟩
  · intro more hmore
    rw [List.append_assoc, hlexemes]
    exact (ho.lexes _ (hends more)).append (hsuffix more hmore)

theorem printed_unary (p : Position) (op : UnaryOp) (h : e.Printed) : (unary p op e).Printed := by
  have hclean : ∀ c ∈ op.symbol.toList, Source.IsClean c := by
    cases op <;> exact forall_mem_of_all (by decide)
  refine printed_between '(' ')' (op.symbol.toList ++ e.text.toList)
    (⟨.operator, op.symbol⟩ :: e.lexemes) (by decide) (by simp [text]) (by rw [lexemes]; rfl) ?_ ?_
  · exact List.forall_mem_append.mpr ⟨hclean, h.clean⟩
  · intro more
    have hoperand := h.lexes _ (endsBefore_cons (c := ')') (by decide) (by decide) more)
    rw [List.append_assoc]
    exact (lexes_unaryOp op (h.begins.append _)).append hoperand

theorem printed_step (p : Position) (op : StepOp) (h : e.Printed) : (step p op e).Printed := by
  have hclean : ∀ c ∈ op.symbol.toList, Source.IsClean c := by
    cases op <;> exact forall_mem_of_all (by decide)
  have hends : ∀ more, e.EndsBefore (op.symbol.toList ++ more) := by
    intro more
    cases op <;> exact endsBefore_cons (by decide) (by decide) _
  refine printed_between '(' ')' (e.text.toList ++ op.symbol.toList)
    (e.lexemes ++ [⟨.operator, op.symbol⟩]) (by decide) (by simp [text])
    (by rw [lexemes, List.append_assoc]; rfl) ?_ ?_
  · exact List.forall_mem_append.mpr ⟨h.clean, hclean⟩
  · intro more
    rw [List.append_assoc]
    exact (h.lexes _ (hends _)).append (lexes_stepOp op _)

theorem text_node (p : Position) (joint : Joint) (l r : Expr) :
    (joint.node p l r).text = "(" ++ l.text ++ " " ++ joint.lexeme.text ++ " " ++ r.text ++
    ")" := by
  cases joint <;> rw [Joint.node, text, Joint.lexeme]

theorem lexemes_node (p : Position) (joint : Joint) (l r : Expr) :
    (joint.node p l r).lexemes =
      bracket "(" :: (l.lexemes ++ joint.lexeme :: (r.lexemes ++ [bracket ")"])) := by
  cases joint <;> rw [Joint.node, lexemes]

theorem printed_node (p : Position) (joint : Joint) {l r : Expr} (hl : l.Printed) (hr : r.Printed) :
    (joint.node p l r).Printed := by
  have hclean : ∀ c ∈ joint.lexeme.text.toList, Source.IsClean c := by
    cases joint with
    | assign op => cases op <;> exact forall_mem_of_all (by decide)
    | binary op => cases op <;> exact forall_mem_of_all (by decide)
  refine printed_between '(' ')'
    (l.text.toList ++ ' ' :: (joint.lexeme.text.toList ++ ' ' :: r.text.toList))
    (l.lexemes ++ joint.lexeme :: r.lexemes) (by decide) (by simp [text_node])
    (by rw [lexemes_node, List.append_assoc]; rfl) ?_ ?_
  · simp only [List.forall_mem_append, List.forall_mem_cons]
    exact ⟨hl.clean, by decide, hclean, by decide, hr.clean⟩
  · intro more
    have hleft := hl.lexes
      (' ' :: (joint.lexeme.text.toList ++ ' ' :: (r.text.toList ++ ')' :: more)))
      (endsBefore_cons (by decide) (by decide) _)
    have hright := hr.lexes _ (endsBefore_cons (c := ')') (by decide) (by decide) more)
    have hboth := hleft.append ((lexes_joint joint (hr.begins.append _)).append hright)
    simpa using hboth

theorem printed_member (p : Position) (access : Access) {field : String}
    (hfield : IsWord field.toList) (hdot : ¬ (o.isInteger = true ∧ access = .dot))
    (ho : o.Printed) :
    (member p o access field).Printed := by
  have hclean : ∀ c ∈ access.symbol.toList, Source.IsClean c := by
    cases access <;> exact forall_mem_of_all (by decide)
  have hends : ∀ more, o.EndsBefore (access.symbol.toList ++ more) := by
    intro more
    cases access with
    | dot =>
      intro c hc
      cases hc
      exact ⟨by decide, fun hint => absurd ⟨hint, rfl⟩ hdot⟩
    | arrow | scope => exact endsBefore_cons (by decide) (by decide) _
  refine printed_suffix (access.symbol.toList ++ field.toList)
    [access.lexeme, ⟨wordKind field, field⟩] ho (by simp [text]) (by rw [lexemes]) ?_ ?_ ?_
  · intro more
    rw [List.append_assoc]
    exact hends _
  · exact List.forall_mem_append.mpr ⟨hclean, fun c hc => isClean_of_isWordChar (hfield.2.2 c hc)⟩
  · intro more hmore
    have hword := lexes_word hfield hmore.not_isWordChar
    rw [String.ofList_toList] at hword
    rw [List.append_assoc]
    exact (lexes_access access ((begins_of_isWord hfield).append more)).append hword

theorem printed_index (p : Position) {i : Expr} (ho : o.Printed) (hi : i.Printed) :
    (index p o i).Printed := by
  refine printed_suffix ('[' :: (i.text.toList ++ [']']))
    (bracket "[" :: (i.lexemes ++ [bracket "]"]))
    ho (by simp [text]) (by rw [lexemes]) ?_ ?_ ?_
  · exact fun more => endsBefore_cons (by decide) (by decide) _
  · simp only [List.forall_mem_cons, List.forall_mem_append]
    exact ⟨by decide, hi.clean, by decide, nofun⟩
  · intro more _
    have hsubscript := hi.lexes _ (endsBefore_cons (c := ']') (by decide) (by decide) more)
    have hclose := lexes_delimiter (c := ']') (by decide) more
    rw [List.cons_append, List.append_assoc]
    exact (lexes_delimiter (c := '[') (by decide) _).append (hsubscript.append hclose)

/-! ### Lists -/

/-- The text of several expressions, with a comma and a blank before each. -/
def moreChars (es : List Expr) : List Char :=
  es.flatMap fun e => ',' :: ' ' :: e.text.toList

theorem toList_intercalate_texts (e : Expr) (es : List Expr) :
    (", ".intercalate (texts (e :: es))).toList = e.text.toList ++ moreChars es := by
  induction es generalizing e with
  | nil => simp [texts, moreChars]
  | cons e' es ih =>
    have htail := ih e'
    rw [texts] at htail
    rw [texts, texts, String.intercalate_cons_cons, String.toList_append,
      String.toList_append, htail,
      moreChars, moreChars, List.flatMap_cons]
    simp

theorem isClean_moreChars (h : ∀ e ∈ es, e.Printed) : ∀ c ∈ moreChars es, Source.IsClean c := by
  intro c hc
  obtain ⟨e, he, hmem⟩ := List.mem_flatMap.mp hc
  rcases List.mem_cons.mp hmem with rfl | hmem
  · decide
  rcases List.mem_cons.mp hmem with rfl | hmem
  · decide
  · exact (h e he).clean c hmem

theorem isClean_list (h : ∀ e ∈ es, e.Printed) :
    ∀ c ∈ (", ".intercalate (texts es)).toList, Source.IsClean c := by
  cases es with
  | nil => exact nofun
  | cons e es =>
    rw [List.forall_mem_cons] at h
    rw [toList_intercalate_texts]
    exact List.forall_mem_append.mpr ⟨h.1.clean, isClean_moreChars h.2⟩

section Lists

variable {closing : Char} (hclosing : closing ∈ [')', '\x7d'])

include hclosing

theorem endsBefore_moreChars (es : List Expr) (more : List Char) :
    e.EndsBefore (moreChars es ++ closing :: more) := by
  have hall : ∀ c ∈ [')', '\x7d'], c ∈ followers ∧ c ≠ '.' := forall_mem_of_all (by decide)
  cases es with
  | nil => exact endsBefore_cons (hall closing hclosing).1 (hall closing hclosing).2 more
  | cons e' es => exact endsBefore_cons (by decide) (by decide) _

theorem lexes_moreChars (h : ∀ e ∈ es, e.Printed) (more : List Char) :
    Lexes (moreChars es ++ closing :: more) (moreLexemes es) (closing :: more) := by
  induction es with
  | nil => exact Lexes.refl _
  | cons e es ih =>
    rw [List.forall_mem_cons] at h
    have hitem := h.1.lexes _ (endsBefore_moreChars hclosing es more)
    have hspace := lexes_space fun c hc =>
      ((h.1.begins.append (moreChars es ++ closing :: more)).forall c hc).2
    have hcomma := lexes_delimiter (c := ',') (by decide)
      (' ' :: (e.text.toList ++ (moreChars es ++ closing :: more)))
    rw [moreChars, List.flatMap_cons, moreLexemes, List.append_assoc]
    exact (hcomma.append hspace).append (hitem.append (ih h.2))

theorem lexes_list (h : ∀ e ∈ es, e.Printed) (more : List Char) :
    Lexes ((", ".intercalate (texts es)).toList ++ closing :: more) (listLexemes es)
      (closing :: more) := by
  cases es with
  | nil => exact Lexes.refl _
  | cons e es =>
    rw [List.forall_mem_cons] at h
    rw [toList_intercalate_texts, List.append_assoc, listLexemes]
    exact (h.1.lexes _ (endsBefore_moreChars hclosing es more)).append
      (lexes_moreChars hclosing h.2 more)

end Lists

theorem printed_call (p : Position) {f : Expr} {args : List Expr} (hf : f.Printed)
    (hargs : ∀ a ∈ args, a.Printed) : (call p f args).Printed := by
  refine printed_suffix ('(' :: ((", ".intercalate (texts args)).toList ++ [')']))
    (bracket "(" :: (listLexemes args ++ [bracket ")"])) hf (by simp [text])
    (by rw [lexemes]) ?_ ?_ ?_
  · exact fun more => endsBefore_cons (by decide) (by decide) _
  · simp only [List.forall_mem_cons, List.forall_mem_append]
    exact ⟨by decide, isClean_list hargs, by decide, nofun⟩
  · intro more _
    have hlist := lexes_list (show ')' ∈ _ by decide) hargs more
    have hclose := lexes_delimiter (c := ')') (by decide) more
    rw [List.cons_append, List.append_assoc]
    exact (lexes_delimiter (c := '(') (by decide) _).append (hlist.append hclose)

/-- **The text of a writable expression has its lexemes.** -/
theorem printed_of_writable (h : e.Every Writable) : e.Printed := by
  refine writable_induction ?_ ?_ ?_ ?_ ?_ ?_ ?_ ?_ ?_ ?_ h
  · exact fun p _ hvalue hreal => printed_literal p hvalue hreal
  · intro p id hword hkeyword
    have hkind : wordKind id = .identifier := if_neg hkeyword
    exact printed_word hword (by rw [text]) (by rw [lexemes, hkind])
  · exact fun p => printed_word (w := "endl") (by decide) (by rw [text]) (by rw [lexemes]; rfl)
  · exact fun p op _ ih => printed_unary p op ih
  · exact fun p op _ ih => printed_step p op ih
  · exact fun p joint _ _ ihl ihr => printed_node p joint ihl ihr
  · exact fun p _ _ ihf ihargs => printed_call p ihf ihargs
  · exact fun p _ access _ hfield _ hdot ih => printed_member p access hfield hdot ih
  · exact fun p _ _ iho ihi => printed_index p iho ihi
  · intro p es ih
    exact printed_between '\x7b' '\x7d' (", ".intercalate (texts es)).toList (listLexemes es)
      (by decide) (by simp [text]) (by rw [lexemes]) (isClean_list ih) (lexes_list (by decide) ih)

end Expr

end SmallCpp
