import SmallCpp.Text.CodePoint

/-!
# Control sequences of terminals

Output that does not go to a terminal is written without the sequences that set colours and move the
cursor: an escape character, an opening bracket, parameters, and a letter that says what to do. All
other text stays, also what only begins like such a sequence.
-/

namespace SmallCpp.Text

def escapeChar : CodePoint := .ofChar '\x1b'

/-- A character of the parameters of a control sequence. -/
def isParameter (p : CodePoint) : Bool :=
  p == .ofChar ';' || p == .ofChar '?' || (48 ≤ p.val && p.val ≤ 57)

def isCommand (p : CodePoint) : Bool :=
  (65 ≤ p.val && p.val ≤ 90) || (97 ≤ p.val && p.val ≤ 122)

/-- A text after `pending`, which may be the beginning of a control sequence and is held in
reverse. -/
def dropSequences (pending : CodeText) : CodeText → CodeText
  | [] => pending.reverse
  | p :: t =>
    if p == escapeChar then pending.reverse ++ dropSequences [p] t
    else
      match pending with
      | [] => p :: dropSequences [] t
      | [_] =>
        if p == .ofChar '[' then dropSequences (p :: pending) t
        else pending.reverse ++ p :: dropSequences [] t
      | _ =>
        if isParameter p then dropSequences (p :: pending) t
        else if isCommand p then dropSequences [] t
        else pending.reverse ++ p :: dropSequences [] t

def withoutSequences (t : CodeText) : CodeText :=
  dropSequences [] t

end SmallCpp.Text
