import SmallCpp.Proofs.Token.Joined
import SmallCpp.Proofs.Parse.Progress
import SmallCpp.Proofs.Parse.ExtendedStmt

/-!
# Sources put together

Two sources that are programs make a program when they are put together, each on lines of its own:
its statements are those of the first and then those of the second, at other places.  A template
header in the first source is the exception, since the names that it declares are types from there
on.

The first source reads as before because a program holds the ends of its statements, so that the
second source is only behind it; the second reads as before because the state behind a program
without template headers is the state that a program starts in.  No program begins with the second
branch of an `if`, which is the one way to go on with a statement that has ended.

## Main results

* `parse_append` — **parsing takes sources put together to programs put together**, up to places.
-/

namespace SmallCpp.Parse

variable {c d : Cursor} {body : List Stmt} {ts : List Token} {a : Token}

/-! ### The statements of a program, one by one -/

theorem statements_of_end (h : (c.ahead 0).kind = .endOfInput) : statements c = .ok [] c := by
  have hmore : (do return !(← atEnd) : Parser Bool) c =
    .ok (!((c.ahead 0).kind == .endOfInput)) c := rfl
  have hlist : statements c = repeatUpTo (do return !(← atEnd)) (statement deepest)
    (c.size + 1) c := rfl
  rw [hlist, repeatUpTo, run_bind_ok hmore, h]
  rfl

theorem statements_of_ne_end (hc : c.Ended) (h : (c.ahead 0).kind ≠ .endOfInput) :
    statements c = (do
      let s ← statement deepest
      let ss ← statements
      return s :: ss) c := by
  have hmore : (do return !(← atEnd) : Parser Bool) c =
    .ok (!((c.ahead 0).kind == .endOfInput)) c := rfl
  have hgoes : (!((c.ahead 0).kind == .endOfInput)) = true := by simp [h]
  exact (round_program _ deepest _).repeatWhile_eq hc.stands (hmore.trans (by rw [hgoes]))

/-- The keyword of a second branch begins no statement. -/
theorem statement_ne_ok_of_else (h : (c.ahead 0).lexeme = ⟨.keyword, "else"⟩) (depth : Nat)
    (s : Stmt)
    (d : Cursor) : statement depth c ≠ .ok s d := by
  cases depth with
  | zero => exact nofun
  | succ depth =>
    obtain ⟨hkind, htext⟩ := Lexeme.mk.inj h
    have hkw : ∀ words, (c.ahead 0).isKeyword words = words.contains "else" := fun words => by
      simp [Token.isKeyword, hkind, htext]
    have hdel : ∀ text, (c.ahead 0).isDelimiter text = false := fun text => by
      simp [Token.isDelimiter, Token.is, hkind]
    have hdeclares : c.declares = false := by
      simp [Cursor.declares, hkw, Token.is, hkind, declarationKeywords, containerKeywords]
    have hstr : ∀ word, word ≠ "else" → matchStream word c = .ok none c := fun word hword => by
      have hother : [word].contains "else" = false := by simpa using Ne.symm hword
      rw [run_matchStream, hkw, hother]
      simp [Token.is, hkind]
    intro hrun
    rw [statement_succ, run_peek, hdel, hdel, hkind] at hrun
    change (startsDeclaration >>= _) c = _ at hrun
    rw [run_startsDeclaration, hdeclares] at hrun
    change (matchStream "cout" >>= _) c = _ at hrun
    rw [run_bind_ok (hstr "cout" (by decide))] at hrun
    change (matchStream "cin" >>= _) c = _ at hrun
    rw [run_bind_ok (hstr "cin" (by decide))] at hrun
    have hfails : keywordStmt depth (c.ahead 0) = failUnsupported "else" (c.ahead 0) := by
      simp [keywordStmt, hkw, hkind, htext, expressionKeywords]
    dsimp only at hrun
    rw [hfails] at hrun
    cases hrun

/-! ### More tokens behind a program -/

variable {q : Sequel}

/-- **A program is read as before when more tokens are behind it**, up to places.  The reading goes
on where the program ended. -/
theorem statements_before (hq : ∀ l ∈ q.tail.head?, l ≠ ⟨.keyword, "else"⟩) (hc : c.Ended)
    (hrun : statements c = .ok body d) : c.Onward True d ∧ (d.ahead 0).kind = .endOfInput ∧
      ∀ more e, statements (d.before q) = .ok more e →
        statements (c.before q) = .ok (body.map Stmt.unplaced ++ more) e := by
  -- The induction is on the tokens ahead, of which each statement consumes one.
  induction hlen : c.rest.length using Nat.strong_induction_on generalizing c body with
  | h k ih =>
    by_cases hend : (c.ahead 0).kind = .endOfInput
    · rw [statements_of_end hend] at hrun
      cases hrun
      exact ⟨.refl hc, hend, fun _ _ hmore => hmore⟩
    · rw [statements_of_ne_end hc hend] at hrun
      obtain ⟨s, c₁, hs, hrest⟩ := run_bind_eq_ok hrun
      obtain ⟨ss, d₁, hss, hdone⟩ := run_bind_eq_ok hrest
      cases hdone
      have hfirm := (concludesStmt hq deepest).statement.firm
      obtain ⟨honward, -⟩ := Keeps.ok hfirm hc hs
      have hshorter : c₁.rest.length < c.rest.length := by
        have hconsumes := (eatsStmt _ deepest).statement _ c hc.stands
        rw [hs] at hconsumes
        obtain ⟨used, hused, hpart⟩ := hconsumes
        have hpos := hpart.length_pos
        have hsum := hused.length
        omega
      obtain ⟨honward', hend', hgoes⟩ := ih _ (hlen ▸ hshorter) honward.ended hss rfl
      refine ⟨honward.trans honward', hend', fun more e hmore => ?_⟩
      have hne : ((c.before q).ahead 0).kind ≠ .endOfInput := by
        rw [hc.head_before (.inr hend)]
        exact hend
      rw [statements_of_ne_end (hc.before q) hne, run_bind_ok (Keeps.before hfirm hc hs trivial),
        run_bind_ok (hgoes more e hmore)]
      rfl

/-- If nothing is behind a program, both readings return the same, and fail together. -/
theorem inside_statements (hq : q.tail = []) :
    Inside True q (List.map Stmt.unplaced) statements statements :=
  inside_repeatWhile (fun ts n => round_program ts deepest n)
    (inside_atEnd.bind fun _ => Keeps.pure rfl)
    (concludesStmt (by simp [hq]) deepest).statement.inside

/-- The tokens of a program begin with something other than the keyword of a second branch. -/
theorem ne_else_of_statements (hc : c.Ended) (hrun : statements c = .ok body d) :
    ∀ l ∈ (c.rest.dropLast.map Token.lexeme).head?, l ≠ ⟨.keyword, "else"⟩ := by
  rintro l hl rfl
  obtain ⟨us, hus⟩ := hc.rest_eq
  have hhead : (c.ahead 0).lexeme = ⟨.keyword, "else"⟩ := by
    rw [hus] at hl
    cases us with
    | nil => cases hl
    | cons u us => exact Option.some.inj hl
  have hne : (c.ahead 0).kind ≠ .endOfInput := by
    rw [show (c.ahead 0).kind = .keyword from congrArg Lexeme.kind hhead]
    exact nofun
  rw [statements_of_ne_end hc hne] at hrun
  obtain ⟨s, c₁, hs, -⟩ := run_bind_eq_ok hrun
  exact statement_ne_ok_of_else hhead deepest s c₁ hs

/-! ### The tokens of two programs -/

theorem ended_start {tokens : List Token} (h : EndsOnce tokens) : (Cursor.start tokens).Ended :=
  (within_start h).ended h

/-- No division sign of a program stands right before a star, so no comment opens where two of its
tokens meet. -/
theorem isChain_of_statements (h : EndsOnce (ts ++ [a]))
    (hrun : statements (Cursor.start (ts ++ [a])) = .ok body d) :
    ts.IsChain fun t u => ¬ Lexical.OpensComment t.lexeme u.lexeme := by
  have hconsumes := (round_program _ deepest _).eats_repeatWhile _ (ended_start h).stands
  rw [show repeatWhile _ _ _ = _ from hrun] at hconsumes
  obtain ⟨used, hused, hplain⟩ := hconsumes
  obtain ⟨front, last, -, -, hlast⟩ := rest_of_statements h hrun
  have hrest := hused.rest
  rw [rest_start h, hlast] at hrest
  obtain ⟨rfl, -⟩ := List.append_inj' hrest rfl
  refine hplain.chain.imp fun t u hslash hopens => ?_
  obtain ⟨hdivision, hstar⟩ := hopens
  obtain ⟨hkind, htext⟩ := Lexeme.mk.inj hdivision
  refine hslash ⟨hkind, htext⟩ ?_
  rcases hstar with hstar | hstar
  · obtain ⟨hkind', htext'⟩ := Lexeme.mk.inj hstar
    exact ⟨hkind', Or.inl htext'⟩
  · obtain ⟨hkind', htext'⟩ := Lexeme.mk.inj hstar
    exact ⟨hkind', Or.inr htext'⟩

theorem before_start (h : EndsOnce (ts ++ [a])) (q : Sequel) :
    (Cursor.start (ts ++ [a])).before q =
      { rest := ts.map Token.unplaced ++ (q.tail.map Lexeme.token ++ [a.unplaced])
        previous := q.prior.map Token.unplaced
        size := ts.length + 1 + q.extra } := by
  have hrest := rest_start h
  have hsize : (Cursor.start (ts ++ [a])).size = ts.length + 1 :=
    (congrArg List.length hrest).trans List.length_append
  rw [Cursor.before, hrest, hsize, List.dropLast_concat, List.getLast?_concat]
  rfl

/-- The statements of two programs, if the first one makes no name a type. -/
theorem statements_append {us vs : List Token} {b e : Token} (hts : EndsOnce (ts ++ [a]))
    (hus : EndsOnce (us ++ [b])) (hvs : EndsOnce (vs ++ [e])) (ha : a.unplaced = e.unplaced)
    (hb : b.unplaced = e.unplaced) (hlexemes : vs.map Token.lexeme = (ts ++ us).map Token.lexeme)
    {p r : List Stmt} (hnames : c.typeNames = [])
    (hp : statements (Cursor.start (ts ++ [a])) = .ok p c)
    (hr : statements (Cursor.start (us ++ [b])) = .ok r d) :
    ∃ body c', statements (Cursor.start (vs ++ [e])) = .ok body c' ∧
      body.map Stmt.unplaced = (p ++ r).map Stmt.unplaced := by
  have hstart := ended_start hts
  have hstart' := ended_start hus
  have hends : ∀ u ∈ us, u.kind ≠ .endOfInput := by
    obtain ⟨us', b', heq, -, hus'⟩ := id hus
    exact (List.append_inj' heq rfl).1 ▸ hus'
  have helse := ne_else_of_statements hstart' hr
  rw [rest_start hus, List.dropLast_concat] at helse
  have htoks : ∀ ws : List Token, ws.map Token.unplaced = (ws.map Token.lexeme).map Lexeme.token :=
      fun ws => by
    rw [List.map_map]
    rfl
  -- The tokens put together are those of the first program before those of the second.
  let behind : Sequel :=
    ⟨us.map Token.lexeme, us.length, none, by simp, List.forall_mem_map.mpr hends⟩
  have hjoined : (Cursor.start (vs ++ [e])).before (.nothing 0 none) =
      (Cursor.start (ts ++ [a])).before behind := by
    have hlen : vs.length = ts.length + us.length := by simpa using congrArg List.length hlexemes
    rw [before_start hvs, before_start hts, htoks vs, hlexemes, hlen, ha, List.map_append,
      List.map_append,
      ← htoks ts]
    simp [Sequel.nothing, behind]
    omega
  obtain ⟨honward, hend, hgoes⟩ := statements_before (q := behind) helse hstart hp
  -- Behind the first program the state is that before the second.
  have hbal := honward.balanced trivial ⟨rfl, rfl⟩
  have hbetween : c.before behind = (Cursor.start (us ++ [b])).before
      (.nothing (c.size - 1) c.previous) := by
    have hrest : c.rest = [a] := by
      obtain ⟨used, hused⟩ := honward.behind
      have hsplit := hused.rest
      rw [rest_start hts, honward.ended.eq_end hend] at hsplit
      rw [honward.ended.eq_end hend, ← (List.append_inj' hsplit rfl).2]
    have hwithin := honward.ended.within
    rw [hrest, List.length_singleton] at hwithin
    have hsize : c.size + us.length = us.length + 1 + (c.size - 1) := by omega
    rw [before_start hus, Cursor.before, hrest, hbal.closed, hbal.whole, hnames, hb, ← ha, htoks us]
    simp [Sequel.nothing, behind, hsize]
  have hmirror := Keeps.before (inside_statements (q := .nothing (c.size - 1) c.previous) rfl)
    hstart' hr (.inl rfl)
  have hwhole := hgoes _ _ ((congrArg statements hbetween).trans hmirror)
  rw [← hjoined] at hwhole
  have hkeeps := inside_statements (q := .nothing 0 none) rfl
  cases hbody : statements (Cursor.start (vs ++ [e])) with
  | error f c' =>
    obtain ⟨f', d', hfails⟩ := hkeeps.error (ended_start hvs) hbody rfl rfl
    cases hwhole.symm.trans hfails
  | ok body c' =>
    have hbody' := hkeeps.before (ended_start hvs) hbody (.inl rfl)
    refine ⟨body, c', rfl, ?_⟩
    rw [List.map_append]
    exact (EStateM.Result.ok.inj (hbody'.symm.trans hwhole)).1

end SmallCpp.Parse

namespace SmallCpp

open Parse

/-- There is a template header in the program: each has parameters, and only there names are made
types. -/
def Source.hasTemplateHeader (source : Source) : Bool :=
  match source.tokenize with
  | .ok tokens =>
    match statements (Cursor.start tokens) with
    | .ok _ c => !c.typeNames.isEmpty
    | .error _ _ => false
  | .error _ => false

theorem exists_tokenize_of_parse {source : Source} {program : Program}
    (h : source.parse = .ok program) : ∃ tokens, source.tokenize = .ok tokens := by
  cases htoks : source.tokenize with
  | ok tokens => exact ⟨tokens, rfl⟩
  | error e =>
    rw [Source.parse, Source.parseWith, htoks] at h
    cases h

theorem parse_of_statements {source : Source} {tokens : List Token}
    (h : source.tokenize = .ok tokens)
    (hrun : statements (Cursor.start tokens) = .ok body c) :
    source.parse = .ok ⟨source.file, body⟩ := by
  rw [Source.parse, Source.parseWith, h]
  dsimp only
  rw [runOn, hrun]
  rfl

/-- **Parsing takes sources put together to programs put together.**  If two sources are programs
and the first has no template header, the two with a line feed between them are a program, whose
statements are those of the first and then those of the second, up to places. -/
theorem parse_append {a b fileA fileB : String} {p q : Program}
    (ha : (Source.ofText a fileA).parse = .ok p) (hb : (Source.ofText b fileB).parse = .ok q)
    (hplain : (Source.ofText a fileA).hasTemplateHeader = false) (file : String) :
    ∃ body, (Source.ofText (a ++ "\n" ++ b) file).parse = .ok ⟨file, body⟩ ∧
      body.map Stmt.unplaced = p.body.map Stmt.unplaced ++ q.body.map Stmt.unplaced := by
  obtain ⟨tokens, htoks⟩ := exists_tokenize_of_parse ha
  obtain ⟨tokens', htoks'⟩ := exists_tokenize_of_parse hb
  obtain ⟨c, hp⟩ := statements_of_parse htoks ha
  obtain ⟨d, hq⟩ := statements_of_parse htoks' hb
  have honce := endsOnce_of_tokenize htoks
  have honce' := endsOnce_of_tokenize htoks'
  have hnames : c.typeNames = [] := by
    simpa [Source.hasTemplateHeader, htoks, hp] using hplain
  obtain ⟨ts, rfl, -⟩ := Source.split_of_tokenize htoks
  obtain ⟨us, rfl, -⟩ := Source.split_of_tokenize htoks'
  obtain ⟨vs, v, hjoined, -, hlexemes⟩ :=
    Source.tokenize_append htoks htoks' (isChain_of_statements honce hp) file
  obtain ⟨ws, hws, -⟩ := Source.split_of_tokenize hjoined
  obtain ⟨rfl, hv⟩ := List.append_inj' hws rfl
  cases hv
  obtain ⟨body, e, hbody, hunplaced⟩ :=
    statements_append honce honce' (endsOnce_of_tokenize hjoined) rfl rfl
    hlexemes hnames hp hq
  exact ⟨body, parse_of_statements hjoined hbody, by rw [hunplaced, List.map_append]⟩

/-- The first source ends with an `if` and a comment, the second one begins with a directive and has
a template. -/
theorem parse_append_template :
    let a := "int f(int x) \x7b return x / x; \x7d if (f(y) >= f(x)) cout << x; // end */"
    let b := "#include <map>\ntemplate <typename T> vector<map<T, int>> g(T* t);"
    (Source.ofText a "a").hasTemplateHeader = false ∧
    ∃ p q body, (Source.ofText a "a").parse = .ok p ∧ (Source.ofText b "b").parse = .ok q ∧
      (Source.ofText (a ++ "\n" ++ b) "ab").parse = .ok ⟨"ab", body⟩ ∧
      body.map Stmt.unplaced = p.body.map Stmt.unplaced ++ q.body.map Stmt.unplaced := by
  intro a b
  have hplain : (Source.ofText a "a").hasTemplateHeader = false := by decide +kernel
  have hfirst : (Source.ofText a "a").parse.isOk = true := by decide +kernel
  have hsecond : (Source.ofText b "b").parse.isOk = true := by decide +kernel
  obtain ⟨p, hp⟩ := exists_of_isOk hfirst
  obtain ⟨q, hq⟩ := exists_of_isOk hsecond
  obtain ⟨body, hbody, hunplaced⟩ := parse_append hp hq hplain "ab"
  exact ⟨hplain, p, q, body, hp, hq, hbody, hunplaced⟩

end SmallCpp
