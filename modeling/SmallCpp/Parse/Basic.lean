import SmallCpp.Stack
import SmallCpp.Token.Lexer

/-!
# Reading tokens

The state of reading a program and the operations on it that the grammar rules share. Rules read
tokens from the front of a list that ends with a token of class `endOfInput`; that token is never
consumed.
-/

namespace SmallCpp.Parse

/-- The state of reading a program. -/
structure Cursor where
  rest : List Token
  previous : Option Token := none
  /-- The number of generic argument lists that are open. -/
  openGenerics : Nat := 0
  /-- The last closing sign was double and has closed the inner of two lists; the outer one is
  still to be told. -/
  splitCloser : Bool := false
  typeNames : List String := []
  /-- The number of tokens at the start; no loop has more rounds. -/
  size : Nat
deriving Repr, Inhabited

/-- Why reading stopped. -/
inductive Failure where
  | error (cause : Cause) (position : Position)
  | fault (fault : Fault)
  | tooDeep
deriving Repr, Inhabited

/-- A computation that consumes tokens. -/
abbrev Parser := EStateM Failure Cursor

/-- The number of rules that may be in progress at once: each takes one frame of the stack. -/
def deepest : Nat := Stack.room

/-- The token that stands for the end. -/
def endToken (offset : Nat) : Token :=
  ⟨.endOfInput, "", offset, {}⟩

/-- A list of tokens with an end: if it has none, one is added after its last token. -/
def ended (tokens : List Token) : List Token :=
  match tokens.getLast? with
  | none => [endToken 0]
  | some t =>
    if t.kind == .endOfInput then tokens
    else tokens ++ [endToken (t.offset + t.text.length)]

def Cursor.start (tokens : List Token) : Cursor :=
  { rest := ended tokens, size := (ended tokens).length }

/-! ### Looking at tokens -/

/-- The token at a distance, the last one beyond the end. -/
def Cursor.ahead (c : Cursor) (distance : Nat) : Token :=
  match c.rest[distance]? with
  | some t => t
  | none => c.rest.getLast?.getD (endToken 0)

def peek : Parser Token := do
  return (← get).ahead 0

def peekAhead (distance : Nat) : Parser Token := do
  return (← get).ahead distance

def atEnd : Parser Bool := do
  return (← peek).kind == .endOfInput

def peekDelimiter (text : String) : Parser Bool := do
  return (← peek).isDelimiter text

def peekOperator (texts : List String) : Parser Bool := do
  return (← peek).isOperator texts

def peekKeyword (words : List String) : Parser Bool := do
  return (← peek).isKeyword words

/-- The scope sign of the standard namespace starts here. -/
def peekStd : Parser Bool := do
  let c ← get
  return (c.ahead 0).is .identifier "std" && (c.ahead 1).kind == .scope

/-! ### Consuming tokens -/

/-- Behind a token; the end is never passed. -/
def Cursor.next (c : Cursor) : Cursor :=
  match c.rest with
  | [] => c
  | t :: rest => if t.kind == .endOfInput then c else { c with rest, previous := some t }

/-- Consumes the current token and returns it; the end stays. -/
def advance : Parser Token := do
  let t ← peek
  modify Cursor.next
  return t

def matchDelimiter (text : String) : Parser Bool := do
  if ← peekDelimiter text then
    discard advance
    return true
  else return false

def matchOperator (texts : List String) : Parser Bool := do
  if ← peekOperator texts then
    discard advance
    return true
  else return false

def matchKeyword (words : List String) : Parser Bool := do
  if ← peekKeyword words then
    discard advance
    return true
  else return false

/-- Consumes a stream word, plain or in the standard namespace, and returns its first token. -/
def matchStream (word : String) : Parser (Option Token) := do
  let c ← get
  let t := c.ahead 0
  if t.isKeyword [word] then
    discard advance
    return some t
  else if (← peekStd) && (c.ahead 2).text == word then
    discard advance
    discard advance
    discard advance
    return some t
  else return none

/-! ### Failing -/

/-- Fails at a token because something else was expected. -/
def failAt {α : Type} (expected : String) (t : Token) : Parser α :=
  throw (.error (.unexpected expected t.described (some t.offset) none) t.position)

/-- Fails at the current token because something else was expected. -/
def failHere {α : Type} (expected : String) : Parser α := do
  failAt expected (← peek)

def failUnsupported {α : Type} (keyword : String) (t : Token) : Parser α :=
  throw (.error (.unsupported keyword (some t.offset)) t.position)

def inQuotes (text : String) : String :=
  "'" ++ text ++ "'"

def expectDelimiter (text : String) : Parser Token := do
  if ← peekDelimiter text then advance else failHere (inQuotes text)

def expectKeyword (word : String) : Parser Token := do
  if ← peekKeyword [word] then advance else failHere (inQuotes word)

def expectIdentifier (description : String) : Parser Token := do
  if (← peek).kind == .identifier then advance else failHere description

/-! ### Repetition -/

/-- Repeats `step` until it is done, at most `bound` times. -/
def stepUpTo {σ : Type} (step : σ → Parser (ForInStep σ)) : Nat → σ → Parser σ
  | 0, s => pure s
  | bound + 1, s => do
    match ← step s with
    | .done s' => return s'
    | .yield s' => stepUpTo step bound s'

/-- A list of at most `bound` items, ended as soon as `more` refuses. -/
def repeatUpTo {α : Type} (more : Parser Bool) (item : Parser α) : Nat → Parser (List α)
  | 0 => pure []
  | bound + 1 => do
    if ← more then
      let a ← item
      let as ← repeatUpTo more item bound
      return a :: as
    else return []

/-- A list of items, ended as soon as `more` refuses. Each round consumes a token, so the number of
tokens bounds the rounds. -/
def repeatWhile {α : Type} (more : Parser Bool) (item : Parser α) : Parser (List α) := do
  repeatUpTo more item ((← get).size + 1)

def commaSeparated {α : Type} (item : Parser α) : Parser (List α) := do
  let first ← item
  let others ← repeatWhile (matchDelimiter ",") item
  return first :: others

/-- Consumes a comma; one that stands right before the closing delimiter ends a list. -/
def moreBefore (close : String) : Parser Bool := do
  if ← matchDelimiter "," then return !(← peekDelimiter close) else return false

/-- Items between commas up to a closing delimiter, which is not consumed; there may be none, and a
comma may follow the last. -/
def commaTerminated {α : Type} (close : String) (item : Parser α) : Parser (List α) := do
  if ← peekDelimiter close then return []
  let first ← item
  let others ← repeatWhile (moreBefore close) item
  return first :: others

end SmallCpp.Parse
