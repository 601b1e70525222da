import SmallCpp.Proofs.Parse.ExtendedStmt
import SmallCpp.Proofs.Parse.Progress
import SmallCpp.Proofs.Parse.Words

/-!
# The parts of a print statement

The sign before a part of a print statement is an operator as well.  Parts are read as expressions
of operators that bind more tightly, so a sign outside brackets belongs to no part: the parts of the
statement are its tokens, taken apart at these signs.  A part is read no further than the next sign
or the end of the statement, where nothing goes on with an expression; so it is what is read from
its tokens alone, and since nothing is left of them then, operators that bind less tightly change
nothing.

## Main results

* `expression_alone` — **an operand is read from its tokens alone.**
* `print_operands` — **the parts of a print statement are its operands**, one for each sign.
-/

namespace SmallCpp.Parse

variable {c c' d : Cursor} {t : Token} {e : Expr} {depth least : Nat} {ts : List Token}
  {word : String}

/-! ### An operand alone -/

/-- The same tokens are ahead, before `follow` in one state and before the end in the other. -/
structure Alone (follow : List Token) (c c' : Cursor) : Prop where
  rest : ∃ used last, c.rest = used ++ follow ∧ c'.rest = used ++ [last] ∧ last.kind = .endOfInput ∧
    ∀ t ∈ used, t.kind ≠ .endOfInput
  lists : c'.lists = c.lists
  within : c'.rest.length ≤ c'.size

theorem ahead_of_rest (h : c.rest = t :: ts) : c.ahead 0 = t := by
  simp [Cursor.ahead, h]

theorem rest_next_of_rest (h : c.rest = t :: ts) (ht : t.kind ≠ .endOfInput) :
    c.next.rest = ts ∧ c.next.size = c.size := by
  simp [Cursor.next, h, ht]

namespace Alone

variable {follow : List Token}

theorem ended (h : Alone follow c c') : c'.Ended := by
  obtain ⟨used, last, -, hrest, hkind, hused⟩ := h.rest
  exact ⟨⟨used, last, hrest, hkind, hused⟩, h.within⟩

/-- A token that is ahead of the follow is ahead of both states. -/
theorem head (h : Alone follow c c') (hinner : follow.length < c.rest.length) :
    c'.ahead 0 = c.ahead 0 ∧ Alone follow c.next c'.next := by
  obtain ⟨used, last, hrest, hrest', hkind, hused⟩ := h.rest
  cases used with
  | nil =>
    rw [hrest] at hinner
    exact absurd hinner (Nat.lt_irrefl _)
  | cons t used =>
    have ht := hused t List.mem_cons_self
    obtain ⟨hnext, -⟩ := rest_next_of_rest hrest ht
    obtain ⟨hnext', hsize⟩ := rest_next_of_rest hrest' ht
    have hlists : ∀ c : Cursor, c.next.lists = c.lists := fun c => congrArg Prod.fst c.books_next
    refine ⟨(ahead_of_rest hrest').trans (ahead_of_rest hrest).symm,
      ⟨used, last, hnext, hnext', hkind, ?_⟩, ?_, ?_⟩
    · exact fun t ht => hused t (List.mem_cons_of_mem _ ht)
    · rw [hlists, hlists, h.lists]
    · have hwithin := h.within
      rw [hrest', List.cons_append, List.length_cons] at hwithin
      rw [hnext', hsize]
      exact Nat.le_of_succ_le hwithin

/-- States from which the same operand is read, whatever number of rules is in progress besides. -/
def twins (stop : Stops t) (ts : List Token) (more : Nat) : Twins where
  Pair := Alone (t :: ts)
  Need c := ts.length < c.rest.length
  Inner c := ts.length + 1 < c.rest.length
  keep := true
  more := more
  exact := False
  ended h _ := h.ended
  head h _ hinner := (h.head hinner).1
  next h _ hinner := (h.head hinner).2
  lists h := h.lists
  withLists k h := ⟨h.rest, rfl, h.within⟩
  back hsuf hneed := Nat.lt_of_lt_of_le hneed hsuf.length_le
  inner _ hlen hneed := by omega
  stops {c c'} h _ _ := by
    obtain ⟨used, last, hrest, hrest', hkind, -⟩ := h.rest
    cases used with
    | nil => exact .inr ⟨by rwa [ahead_of_rest hrest], by rwa [ahead_of_rest hrest']⟩
    | cons u used =>
      left
      simp only [hrest, List.length_append, List.length_cons]
      omega
  further {c} hc hinner _ := by
    by_cases hend : (c.ahead 0).kind = .endOfInput
    · rw [Cursor.next_eq_self hc hend]
      omega
    · have hlen := (hc.next hend).length
      rw [List.length_singleton] at hlen
      omega
  always := False.elim
  more_eq := False.elim

end Alone

theorem rest_start_of_plain (h : ∀ t ∈ ts, t.kind ≠ .endOfInput) :
    ∃ last, (Cursor.start ts).rest = ts ++ [last] ∧ last.kind = .endOfInput := by
  rw [Cursor.start, ended]
  cases hlast : ts.getLast? with
  | none =>
    rw [List.getLast?_eq_none_iff] at hlast
    exact ⟨endToken 0, by rw [hlast]; rfl, rfl⟩
  | some t =>
    have ht : (t.kind == .endOfInput) = false := by simpa using h t (List.mem_of_getLast? hlast)
    exact ⟨endToken (t.offset + t.text.length), by simp [ht], rfl⟩

/-- At the end of the tokens it does not matter which operators would have gone on. -/
theorem operators_of_end {operand : Nat → Parser Expr} {least' : Nat} (hleast : least' ≤ least)
    (bound : Nat) :
    ∀ {left : Expr} {c : Cursor}, stepUpTo (operatorStep operand least) bound left c = .ok e c' →
    (c'.ahead 0).kind = .endOfInput →
      stepUpTo (operatorStep operand least') bound left c = .ok e c' := by
  induction bound with
  | zero => exact fun h _ => h
  | succ bound ih =>
    intro left c hrun hend
    cases htoken : Joint.ofToken? (c.ahead 0) with
    | error fault =>
      rw [stepUpTo, operatorStep, bind_assoc, run_peek, htoken] at hrun
      cases hrun
    | ok joint =>
      cases joint with
      | none =>
        rw [operators_of_none htoken] at hrun ⊢
        exact hrun
      | some joint =>
        by_cases hpow : joint.power < least
        · rw [operators_of_lower htoken hpow] at hrun
          cases hrun
          exact absurd hend (kind_of_joint htoken)
        · rw [run_operators htoken hpow] at hrun
          rw [run_operators htoken (by omega)]
          obtain ⟨right, d, hright, hclimb⟩ := run_bind_eq_ok hrun
          exact (run_bind_ok hright).trans (ih hclimb hend)

theorem expression_of_end {least' : Nat} (hleast : least' ≤ least)
    (hread : expression depth least c = .ok e c')
    (hend : (c'.ahead 0).kind = .endOfInput) : expression depth least' c = .ok e c' := by
  cases depth with
  | zero => exact nomatch hread
  | succ depth =>
    rw [expression] at hread ⊢
    obtain ⟨left, d, hleft, hclimb⟩ := run_bind_eq_ok hread
    rw [run_bind_ok hleft]
    rw [climb, run_get] at hclimb ⊢
    exact operators_of_end hleast _ hclimb hend

theorem Stops.not_end (h : Stops t) : t.kind ≠ .endOfInput := by
  simp only [Stops, Token.isDelimiter, Token.is, Bool.and_eq_true, beq_iff_eq] at h
  rcases h with h | h <;> simp [h.1]

/-- **An operand is read from its tokens alone**, if the reading has stopped before a sign or the
end of a statement.  The reading of the tokens alone may begin with all operators. -/
theorem expression_alone (hleast : Tight least) (hc : c.Ended) (hbal : c.Balanced)
    (hread : expression depth least c = .ok e c') (hstops : Stops (c'.ahead 0)) :
    ∃ used, c.rest = used ++ c'.rest ∧ Moves 0 used 0 ∧
      ∀ room, depth ≤ room → ∃ d, expression room assignPower (Cursor.start used) = .ok e d ∧
        (d.ahead 0).kind = .endOfInput := by
  obtain ⟨used, hrest, hspells⟩ := (spellsRules depth).expression least c e c' hread
  have honward := (Keeps.ok (inside_expression (q := .nothing 0 none) depth least) hc hread).1
  obtain ⟨ts, hts⟩ := honward.ended.rest_eq
  refine ⟨used, hrest, hspells.moves 0 fun _ => hleast, fun room hroom => ?_⟩
  obtain ⟨more, rfl⟩ := Nat.exists_eq_add_of_le' hroom
  have hplain : ∀ t ∈ used, t.kind ≠ .endOfInput := by
    obtain ⟨ts, a, hts, -, hplain⟩ := hc.split
    obtain ⟨us, b, hus, -⟩ := honward.ended.split
    rw [hrest, hus, ← List.append_assoc] at hts
    obtain ⟨rfl, -⟩ := List.append_inj' hts rfl
    exact fun t ht => hplain t (List.mem_append_left us ht)
  obtain ⟨last, hstart, hlast⟩ := rest_start_of_plain hplain
  have hpair : Alone (c'.ahead 0 :: ts) c (Cursor.start used) := by
    refine ⟨⟨used, last, hts ▸ hrest, hstart, hlast, hplain⟩, ?_, Nat.le_refl _⟩
    rw [Cursor.lists, Cursor.lists, hbal.closed, hbal.whole]
    rfl
  have hneed : ts.length < c'.rest.length := by
    rw [hts]
    exact Nat.lt_succ_self _
  obtain ⟨d, hread', hd⟩ :=
    (Keeps.ok ((insideExpr (Alone.twins hstops ts more) depth).expression least) hc hread).2 _
    hpair hneed
  have hdone : (d.ahead 0).kind = .endOfInput := by
    obtain ⟨us, last, hus, hd, hkind, -⟩ := hd.rest
    have hnil : us = [] := List.append_left_eq_self.mp (hus.symm.trans hts)
    rw [hnil] at hd
    rwa [ahead_of_rest hd]
  exact ⟨d, expression_of_end (Nat.zero_le _) hread' hdone, hdone⟩

/-! ### Stream words -/

/-- The tokens are the word of a stream, plain or in the standard namespace. -/
def isStreamWord (word : String) : List Token → Bool
  | [t] => t.isKeyword [word]
  | [t, u, v] => t.is .identifier "std" && u.kind == .scope && v.text == word
  | _ => false

/-- A word is consumed if it is there. -/
theorem streamWord_of_match (hword : word ∈ ["cout", "endl"]) (hc : c.Ended)
    (h : matchStream word c = .ok (some t) d) (hd : (d.ahead 0).kind ≠ .endOfInput) :
    ∃ us, c.rest = t :: us ++ d.rest ∧ isStreamWord word (t :: us) = true ∧
    Moves 0 (t :: us) 0 := by
  have hnext : c.Onward True c.next := .next hc
  rw [run_matchStream] at h
  split at h
  · next hkw =>
    cases h
    have hquiet := quiet_of_isKeyword hkw
    exact ⟨[], c.rest_eq hquiet.kind_ne, hkw,
      moves_of_flat (List.forall_mem_singleton.mpr hquiet.flat)⟩
  split at h
  · next hstd =>
    cases h
    have hstd' := hstd
    simp only [Token.is, Bool.and_eq_true, beq_iff_eq] at hstd'
    obtain ⟨⟨⟨hfirst, -⟩, hscope⟩, htext⟩ := hstd'
    have hone : (c.ahead 0).kind ≠ .endOfInput := by simp [hfirst]
    rw [hc.ahead_succ hone 0] at hscope hstd
    have htwo : (c.next.ahead 0).kind ≠ .endOfInput := by simp [hscope]
    have hlast := (hnext.trans (.next hnext.ended)).ended
    rw [hc.ahead_succ hone 1, hnext.ended.ahead_succ htwo 0] at htext hstd
    -- the class of the third token is not tested, but behind the end there would be no more
    have hthree : (c.next.next.ahead 0).kind ≠ .endOfInput := fun hend => by
      rw [Cursor.next_eq_self hlast hend] at hd
      exact hd hend
    have hflat : Flat (c.next.next.ahead 0) := by
      have htexts : ∀ word ∈ ["cout", "endl"], word ∉ ["(", "[", "\x7b"] ∧
          word ∉ [")", "]", "\x7d"] ∧ word ≠ "<<" := by
        decide
      simp [Flat, isOpening, isClosing, Token.is, htext, htexts word hword]
    refine ⟨[c.next.ahead 0, c.next.next.ahead 0], ?_, hstd, moves_of_flat ?_⟩
    · rw [c.rest_eq hone, c.next.rest_eq htwo, c.next.next.rest_eq hthree]
      rfl
    · simp only [List.forall_mem_cons]
      exact ⟨(quiet_of_kind (.inr (.inl hfirst))).flat, (quiet_of_kind (.inr (.inr hscope))).flat,
        hflat, List.forall_mem_nil _⟩
  · cases h

theorem not_streamWord_of_match {used us : List Token} (h : matchStream word c = .ok none d)
    (hrest : c.rest = used ++ us) : isStreamWord word used = false := by
  rw [run_matchStream] at h
  split at h
  · exact nomatch h
  next hkw =>
  split at h
  · exact nomatch h
  next hstd =>
  rw [Bool.not_eq_true] at hkw hstd
  unfold isStreamWord
  split
  · rwa [ahead_of_rest hrest] at hkw
  · simpa [Cursor.ahead, hrest] using hstd
  · rfl

/-! ### Parts -/

/-- The part that an operand is: the mark of a line end, or what is read from its tokens alone. -/
def IsPart (depth : Nat) (operand : List Token) (part : Expr) : Prop :=
  if isStreamWord "endl" operand then part = .endl ((operand.head?.map Token.position).getD {})
  else ∀ room, depth ≤ room → ∃ d, expression room assignPower (Cursor.start operand) = .ok part d ∧
    (d.ahead 0).kind = .endOfInput

/-- A part behind its sign. -/
theorem printPart_operand (hc : c.Ended) (hbal : c.Balanced)
    (hsign : (c.ahead 0).is .stream "<<" = true)
    (hread : printPart depth c = .ok e c') (hstops : Stops (c'.ahead 0)) :
    ∃ operand, c.rest = c.ahead 0 :: operand ++ c'.rest ∧ Moves 0 operand 0 ∧
    IsPart depth operand e := by
  have hkind := Stops.not_end (.inr hsign)
  have hnext : c.Onward True c.next := .next hc
  obtain ⟨_, d, hadvance, hread⟩ := run_bind_eq_ok hread
  cases hadvance
  obtain ⟨endl, d, hmatch, hread⟩ := run_bind_eq_ok hread
  cases endl with
  | some t =>
    cases hread
    obtain ⟨us, hus, hendl, hmoves⟩ :=
      streamWord_of_match (by decide) hnext.ended hmatch hstops.not_end
    refine ⟨t :: us, ?_, hmoves, ?_⟩
    · rw [c.rest_eq hkind, hus]
      rfl
    · rw [IsPart, if_pos hendl]
      rfl
  | none =>
    obtain rfl := matchStream_eq_none hmatch
    obtain ⟨used, hused, hmoves, halone⟩ :=
      expression_alone (Nat.lt_succ_self _) hnext.ended (hnext.balanced trivial hbal) hread hstops
    refine ⟨used, ?_, hmoves, ?_⟩
    · rw [c.rest_eq hkind, hused]
      rfl
    · rw [IsPart, not_streamWord_of_match hmatch hused]
      exact halone

/-- The parts up to the end of the statement.  Each one is followed by a sign or the end. -/
theorem parts_operands (bound : Nat) : ∀ {c : Cursor} {parts : List Expr}, c.Ended → c.Balanced →
    repeatUpTo (do return (← peek).is .stream "<<") (printPart depth) bound c = .ok parts c' →
    (c'.ahead 0).isDelimiter ";" = true → Stops (c.ahead 0) ∧
      ∃ body operands, c.rest = body ++ c'.rest ∧ shiftParts 0 body = [] :: operands ∧
        List.Forall₂ (IsPart depth) operands parts := by
  induction bound with
  | zero =>
    intro c parts _ _ hrun hend
    cases hrun
    exact ⟨.inl hend, [], [], rfl, rfl, .nil⟩
  | succ bound ih =>
    intro c parts hc hbal hrun hend
    rw [repeatUpTo] at hrun
    change (if (c.ahead 0).is .stream "<<" = true then _ else _ : Parser (List Expr)) c = _ at hrun
    split at hrun
    · next hsign =>
      obtain ⟨part, d, hpart, hrun⟩ := run_bind_eq_ok hrun
      obtain ⟨others, d', hothers, hrun⟩ := run_bind_eq_ok hrun
      cases hrun
      have honward := (Keeps.ok (inside_printPart (q := .nothing 0 none) depth) hc hpart).1
      obtain ⟨hstops, body, operands, hbody, hparts, hall⟩ :=
        ih honward.ended (honward.balanced trivial hbal) hothers hend
      obtain ⟨operand, hoperand, hmoves, hpart⟩ := printPart_operand hc hbal hsign hpart hstops
      have hkind : (c.ahead 0).kind = .stream := by
        simp only [Token.is, Bool.and_eq_true, beq_iff_eq] at hsign
        exact hsign.1
      refine ⟨.inr hsign, c.ahead 0 :: (operand ++ body), operand :: operands, ?_, ?_,
        .cons hpart hall⟩
      · rw [hoperand, hbody, List.cons_append, List.cons_append, List.append_assoc]
      · rw [shiftParts, if_neg (by simp [isOpening, hkind]), if_neg (by simp [isClosing, hkind]),
          if_pos (by simp [hsign]),
          hmoves, hparts, List.modifyHead_cons, List.append_nil]
    · cases hrun
      exact ⟨.inl hend, [], [], rfl, rfl, .nil⟩

/-- A statement that begins with the word of the output is a print statement. -/
theorem statement_of_cout (h : matchStream "cout" c = .ok (some t) d) :
    statement (depth + 1) c = printStmt depth t d := by
  obtain ⟨hkind, hdeclares⟩ : ((c.ahead 0).kind = .keyword ∨ (c.ahead 0).kind = .identifier) ∧
    c.declares = false := by
    rw [run_matchStream] at h
    split at h
    · next hkw =>
      have hword : (c.ahead 0).kind = .keyword ∧ (c.ahead 0).text = "cout" := by
        simpa [Token.isKeyword] using hkw
      refine ⟨.inl hword.1, ?_⟩
      simp [Cursor.declares, Token.isKeyword, Token.is, hword, declarationKeywords,
        containerKeywords]
    split at h
    · next hstd =>
      simp only [Token.is, Bool.and_eq_true, beq_iff_eq] at hstd
      obtain ⟨⟨⟨hkind, htext⟩, hscope⟩, hword⟩ := hstd
      refine ⟨.inr hkind, ?_⟩
      simp [Cursor.declares, Token.isKeyword, Token.is, Token.isOperator, hkind, htext, hscope,
        hword, containerKeywords,
        integerAliases]
    · cases h
  have hdel : ∀ text, (c.ahead 0).isDelimiter text = false := fun text => by
    rcases hkind with hkind | hkind <;> simp [Token.isDelimiter, Token.is, hkind]
  have hdirective : ((c.ahead 0).kind == .directive) = false := by
    rcases hkind with hkind | hkind <;> rw [hkind] <;> rfl
  rw [statement_succ, run_peek, hdel, hdel, hdirective]
  change (startsDeclaration >>= _) c = _
  rw [run_startsDeclaration, hdeclares]
  exact run_bind_ok h

theorem expectDelimiter_eq_ok {text : String} {u : Unit}
    (h : discard (expectDelimiter text) c = .ok u c') :
    (c.ahead 0).isDelimiter text = true ∧ c' = c.next := by
  by_cases hhead : (c.ahead 0).isDelimiter text = true
  · rw [run_discard (run_expectDelimiter hhead)] at h
    cases h
    exact ⟨hhead, rfl⟩
  · obtain ⟨_, _, hexpect, -⟩ := run_bind_eq_ok h
    change (if (c.ahead 0).isDelimiter text = true then advance else failHere _ : Parser Token) c =
      _ at hexpect
    rw [if_neg hhead] at hexpect
    exact nomatch hexpect

theorem loop_of_printParts {parts : List Expr} (h : printParts depth c = .ok parts c') :
    repeatWhile (do return (← peek).is .stream "<<") (printPart depth) c = .ok parts c' := by
  obtain ⟨parts, d, hloop, hsome⟩ := run_bind_eq_ok h
  rw [hloop]
  split at hsome
  · exact nomatch hsome
  · exact hsome

theorem IsPart.mono {room : Nat} {operand : List Token} (h : IsPart depth operand e)
    (hroom : depth ≤ room) :
    IsPart room operand e := by
  unfold IsPart at h ⊢
  by_cases hendl : isStreamWord "endl" operand = true
  · rwa [if_pos hendl] at h ⊢
  · rw [if_neg hendl] at h ⊢
    exact fun room' hroom' => h room' (hroom.trans hroom')

/-- **The parts of a print statement are its operands.**  Wherever in a source a statement begins
with the word of the output and is read, it goes up to the next `;`.  It has as many parts as signs
`<<` outside brackets, and the parts are those of the tokens behind the word and between the signs:
the mark of a line end for the bare word, and otherwise the expression that is read from the tokens
alone, if at least as many rules may be in progress. -/
theorem print_operands {source : Source} {tokens : List Token}
    (htoks : source.tokenize = .ok tokens)
    {c c' d : Cursor} (hc : c.Within tokens) (hbal : c.Balanced) {cout : Token}
    (hcout : matchStream "cout" c = .ok (some cout) d) {depth : Nat} {s : Stmt}
    (hread : statement depth c = .ok s c') :
    ∃ parts body last word operands, s = .print cout.position parts ∧
    c.rest = body ++ last :: c'.rest ∧
      last.isDelimiter ";" = true ∧ topShifts 0 body = parts.length ∧
      shiftParts 0 body = word :: operands ∧
      isStreamWord "cout" word = true ∧ List.Forall₂ (IsPart depth) operands parts := by
  have hended := hc.ended (endsOnce_of_tokenize htoks)
  have honward := (Keeps.ok (inside_matchStream (q := .nothing 0 none) "cout") hended hcout).1
  cases depth with
  | zero => exact nomatch hread
  | succ depth =>
    rw [statement_of_cout hcout] at hread
    cases depth with
    | zero => exact nomatch hread
    | succ depth =>
      rw [printStmt] at hread
      obtain ⟨parts, d₁, hparts, hread⟩ := run_bind_eq_ok hread
      obtain ⟨_, d₂, hexpect, hdone⟩ := run_bind_eq_ok hread
      cases hdone
      obtain ⟨hlast, rfl⟩ := expectDelimiter_eq_ok hexpect
      have hloop := loop_of_printParts hparts
      obtain ⟨hstops, body, operands, hbody, hoperands, hall⟩ :=
        parts_operands _ honward.ended (honward.balanced trivial hbal) hloop hlast
      obtain ⟨us, hus, hword, hmoves⟩ := streamWord_of_match (by decide) hended hcout hstops.not_end
      -- the stream word has no arrows, so it stands before the first one
      have hshift : shiftParts 0 (cout :: us ++ body) = (cout :: us) :: operands := by
        rw [hmoves, hoperands, List.modifyHead_cons, List.append_nil]
      have hcnt := length_shiftParts (cout :: us ++ body) 0
      rw [hshift, List.length_cons, hall.length_eq] at hcnt
      refine ⟨parts, cout :: us ++ body, d₁.ahead 0, cout :: us, operands, rfl, ?_, hlast,
        (Nat.succ.inj hcnt).symm,
        hshift, hword, hall.imp fun _ _ hpart => hpart.mono (by omega)⟩
      rw [hus, hbody, d₁.rest_eq (ordinary_of_isDelimiter hlast).not_end, List.append_assoc]

/-- Three signs stand outside brackets, and two inside. -/
theorem print_operands_mixed :
    ∃ tokens c' p parts body last word operands,
      (Source.ofText "std::cout << (a << b) << endl << -f(c << d);" "<input>").tokenize =
      .ok tokens ∧
      statement 20 (Cursor.start tokens) = .ok (.print p parts) c' ∧
      (Cursor.start tokens).rest = body ++ last :: c'.rest ∧ last.isDelimiter ";" = true ∧
      topShifts 0 body = parts.length ∧ parts.length = 3 ∧ shiftParts 0 body = word :: operands ∧
      isStreamWord "cout" word = true ∧ List.Forall₂ (IsPart 20) operands parts := by
  obtain ⟨tokens, cout, d, p, parts, c', htoks, hcout, hread, hlen⟩ : ∃ tokens cout d p parts c',
      (Source.ofText "std::cout << (a << b) << endl << -f(c << d);" "<input>").tokenize =
      .ok tokens ∧
      matchStream "cout" (Cursor.start tokens) = .ok (some cout) d ∧
      statement 20 (Cursor.start tokens) = .ok (.print p parts) c' ∧ parts.length = 3 :=
    ⟨_, _, _, _, _, _, rfl, rfl, rfl, rfl⟩
  obtain ⟨parts', body, last, word, operands, hparts, hrest, hlast, hcnt, hothers⟩ :=
    print_operands htoks (within_start (endsOnce_of_tokenize htoks)) ⟨rfl, rfl⟩ hcout hread
  cases hparts
  exact ⟨tokens, c', _, parts, body, last, word, operands, htoks, hread, hrest, hlast, hcnt, hlen,
    hothers⟩

end SmallCpp.Parse
