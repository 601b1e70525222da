import SmallCpp.Parse.Expr
import SmallCpp.Stmt.Basic

/-!
# Reading statements and programs

A statement is recognized by its first token. Declarations and functions are read as statements, so
a program is a list of statements up to the end of the tokens.
-/

namespace SmallCpp.Parse

/-! ### Directives and heads of declarations -/

def directive : Parser Stmt := do
  let t ← advance
  let target := Text.trimBoth Text.isBlank (t.text.toList.drop 8)
  let header := Text.trimBoth Text.isBlank ((target.drop 1).dropLast)
  return .directive t.position (String.ofList header) (target.head? == some '<')

/-- Fails at the current token if the test does. -/
def require (test : Parser Bool) (expected : String) : Parser Unit := do
  if !(← test) then failHere expected else return ()

/-- Consumes the keyword behind the token `t` of a using directive. -/
def namespaceKeyword (t : Token) : Parser Unit := do
  if !(← peekKeyword ["namespace"]) then failUnsupported "using" t else discard advance

def usingDirective : Parser Stmt := do
  let t ← advance
  namespaceKeyword t
  let name ← expectIdentifier "namespace name"
  discard (expectDelimiter ";")
  return .usingNamespace t.position name.text

/-- Reads a template parameter and makes its name a type name. -/
def templateParam : Parser String := do
  require (matchKeyword ["typename", "class"]) "'typename'"
  let name ← expectIdentifier "template parameter name"
  modify fun c => { c with typeNames := name.text :: c.typeNames }
  return name.text

def templateHeader : Parser (List String) := do
  discard (expectKeyword "template")
  require (matchOperator ["<"]) "'<'"
  let names ← commaSeparated templateParam
  require (matchOperator [">"]) "'>'"
  return names

/-- The head of a template, if one stands here. -/
def templatePart : Parser (List String) := do
  if ← peekKeyword ["template"] then templateHeader else pure []

/-- The name of a parameter, if it has one. -/
def paramName : Parser String := do
  if (← peek).kind == .identifier then do pure (← advance).text else pure ""

/-- A parameter without or with brackets behind its name; with them it is a reference to a
vector. -/
def paramBrackets (position : Position) (type : TypeExpr) (name : String) : Parser Param := do
  if ← matchDelimiter "[" then
    discard (expectDelimiter "]")
    return ⟨position, { base := .vector, args := [type], isReference := true }, name⟩
  else return ⟨position, type, name⟩

def param (depth : Nat) : Parser Param := do
  let t ← peek
  let type ← typeExpr depth
  let name ← paramName
  paramBrackets t.position type name

/-- Consumes the keyword that stands for no parameters. -/
def skipVoid : Parser Unit := do
  if (← peekKeyword ["void"]) && (← peekAhead 1).isDelimiter ")" then discard advance else return ()

/-- Reads the parameters of a function, with the parentheses. -/
def params : Nat → Parser (List Param)
  | 0 => throw .tooDeep
  | depth + 1 => do
    discard (expectDelimiter "(")
    skipVoid
    let ps ← commaTerminated ")" (param depth)
    discard (expectDelimiter ")")
    return ps

/-- A size between brackets, of which the first one is consumed, or none. -/
def sizePart (depth : Nat) : Parser Extent := do
  if ← peekDelimiter "]" then return .inferred else return .sized (← expression depth assignPower)

/-- The brackets behind the name of a declared variable. -/
def extentPart (depth : Nat) : Parser Extent := do
  if ← matchDelimiter "[" then
    let extent ← sizePart depth
    discard (expectDelimiter "]")
    return extent
  else return .single

/-- The initializer of a declared variable. -/
def initializerPart (depth : Nat) : Parser (Option Expr) := do
  if ← matchOperator ["="] then return some (← expression depth assignPower) else return none

/-- Reads what follows the name of a declared variable: brackets and an initializer. -/
def declarator : Nat → TypeExpr → Token → Parser Declarator
  | 0, _, _ => throw .tooDeep
  | depth + 1, type, name => do
    let extent ← extentPart depth
    let initializer ← initializerPart depth
    return { position := name.position, type, name := name.text, initializer, extent }

/-- Reads a further variable of a declaration: its own signs, its name and what follows. -/
def furtherDeclarator (depth : Nat) (type : TypeExpr) : Parser Declarator := do
  let signs ← repeatWhile (peekOperator ["*", "&"]) advance
  let pointers := (signs.filter fun t => t.text == "*").length
  let isReference := signs.any fun t => t.text != "*"
  let name ← expectIdentifier "declaration name"
  declarator depth { type with pointers, isReference } name

/-- Reads the variables of a declaration, of which the first one's name is consumed. -/
def declarators (depth : Nat) (position : Position) (type : TypeExpr) (name : Token) :
    Parser Stmt := do
  let first ← declarator depth type name
  let others ← repeatWhile (matchDelimiter ",") (furtherDeclarator depth type)
  discard (expectDelimiter ";")
  return if others.isEmpty then .declare first else .declareAll position (first :: others)

/-! ### Statements of streams and jumps -/

def printPart (depth : Nat) : Parser Expr := do
  discard advance
  match ← matchStream "endl" with
  | some t => return .endl t.position
  | none => expression depth additivePower

/-- Reads the parts of a print statement, of which there is at least one. -/
def printParts (depth : Nat) : Parser (List Expr) := do
  let parts ← repeatWhile (do return (← peek).is .stream "<<") (printPart depth)
  if parts.isEmpty then failHere "'<<'" else return parts

/-- Reads a print statement, of which the stream word is consumed. -/
def printStmt : Nat → Token → Parser Stmt
  | 0, _ => throw .tooDeep
  | depth + 1, cout => do
    let parts ← printParts depth
    discard (expectDelimiter ";")
    return .print cout.position parts

def readTarget (depth : Nat) : Parser Expr := do
  discard advance
  expression depth additivePower

/-- Reads a read statement, of which the stream word is consumed. -/
def readStmt : Nat → Token → Parser Stmt
  | 0, _ => throw .tooDeep
  | depth + 1, cin => do
    let targets ← repeatWhile (do return (← peek).is .stream ">>") (readTarget depth)
    discard (expectDelimiter ";")
    return .read cin.position targets

def condition : Nat → Parser Expr
  | 0 => throw .tooDeep
  | depth + 1 => do
    discard (expectDelimiter "(")
    let e ← expression depth assignPower
    discard (expectDelimiter ")")
    return e

/-- An expression, unless the closing delimiter stands here. -/
def unlessAt (close : String) (depth : Nat) : Parser (Option Expr) := do
  if ← peekDelimiter close then return none else return some (← expression depth assignPower)

def leaveStmt : Nat → Parser Stmt
  | 0 => throw .tooDeep
  | depth + 1 => do
    let t ← advance
    let value ← unlessAt ";" depth
    discard (expectDelimiter ";")
    return .leave t.position value

def jumpStmt (build : Position → Stmt) : Parser Stmt := do
  let position := (← advance).position
  discard (expectDelimiter ";")
  return build position

def expressionStmt : Nat → Parser Stmt
  | 0 => throw .tooDeep
  | depth + 1 => do
    let position := (← peek).position
    let e ← expression depth assignPower
    discard (expectDelimiter ";")
    return .evaluate position e

/-! ### Statements that hold statements -/

/-- Keywords that an expression may start with. -/
def expressionKeywords : List String :=
  ["true", "false", "new", "endl"]

def isFunction : Stmt → Bool
  | .prototype _ | .define _ _ _ => true
  | _ => false

/-- A further statement of a block, which must be closed. -/
def moreStmts : Parser Bool := do
  if ← peekDelimiter "\x7d" then return false
  else if ← atEnd then failHere "'\x7d'"
  else return true

/-- What follows the parameters of a function. -/
def functionBody (block : Parser (Position × List Stmt)) (signature : Signature) : Parser Stmt := do
  if ← peekDelimiter "\x7b" then
    let (bodyPosition, body) ← block
    return .define signature bodyPosition body
  else if ← matchDelimiter ";" then return .prototype signature
  else failHere "'\x7b' or ';'"

/-- What follows the type and the name of a declaration; a parenthesis makes it a function. -/
def declarationRest (depth : Nat) (block : Parser (Position × List Stmt)) (position : Position)
    (templateParams : List String) (type : TypeExpr) (name : Token) : Parser Stmt := do
  if ← peekDelimiter "(" then
    let ps ← params depth
    functionBody block
      { position, returns := type, name := name.text, params := ps, templateParams }
  else if !templateParams.isEmpty then failHere "'('"
  else declarators depth position type name

/-- The statement behind the second keyword of a conditional statement. -/
def elsePart (statement : Parser Stmt) : Parser (Option Stmt) := do
  if ← matchKeyword ["else"] then return some (← statement) else return none

/-- A declaration of variables at the start of a loop. -/
def startDeclaration (declaration : Parser Stmt) : Parser Stmt := do
  let start ← declaration
  if isFunction start then failAt "variable declaration" ((← get).previous.getD (endToken 0))
  else return start

mutual

/-- Reads a statement; `depth` bounds the number of rules in progress. -/
def statement : Nat → Parser Stmt
  | 0 => throw .tooDeep
  | depth + 1 => do
    let t ← peek
    if t.isDelimiter "\x7b" then
      let (position, body) ← block depth
      return .block position body
    else if t.kind == .directive then directive
    else if t.isDelimiter ";" then
      discard advance
      return .block t.position []
    else if ← startsDeclaration then declaration depth
    else if let some cout ← matchStream "cout" then printStmt depth cout
    else if let some cin ← matchStream "cin" then readStmt depth cin
    else if t.isKeyword ["if"] then branchStmt depth
    else if t.isKeyword ["while"] then whileStmt depth
    else if t.isKeyword ["do"] then doStmt depth
    else if t.isKeyword ["for"] then forStmt depth
    else if t.isKeyword ["return"] then leaveStmt depth
    else if t.isKeyword ["break"] then jumpStmt Stmt.breakLoop
    else if t.isKeyword ["continue"] then jumpStmt Stmt.continueLoop
    else if t.isKeyword ["using"] then usingDirective
    else if t.kind == .keyword && !expressionKeywords.contains t.text then
      failUnsupported t.text t
    else expressionStmt depth

/-- Reads statements between braces: where they start, and the statements. -/
def block : Nat → Parser (Position × List Stmt)
  | 0 => throw .tooDeep
  | depth + 1 => do
    let t ← expectDelimiter "\x7b"
    let body ← repeatWhile moreStmts (statement depth)
    discard advance
    return (t.position, body)

/-- Reads a declaration of variables or a function. -/
def declaration : Nat → Parser Stmt
  | 0 => throw .tooDeep
  | depth + 1 => do
    let t ← peek
    let templateParams ← templatePart
    let type ← typeExpr depth
    let name ← expectIdentifier "declaration name"
    declarationRest depth (block depth) t.position templateParams type name

def branchStmt : Nat → Parser Stmt
  | 0 => throw .tooDeep
  | depth + 1 => do
    let t ← advance
    let c ← condition depth
    let positive ← statement depth
    let negative ← elsePart (statement depth)
    return .branch t.position c positive negative

def whileStmt : Nat → Parser Stmt
  | 0 => throw .tooDeep
  | depth + 1 => do
    let position := (← advance).position
    let c ← condition depth
    let body ← statement depth
    return .whileLoop position c body

def doStmt : Nat → Parser Stmt
  | 0 => throw .tooDeep
  | depth + 1 => do
    let position := (← advance).position
    let body ← statement depth
    discard (expectKeyword "while")
    let c ← condition depth
    discard (expectDelimiter ";")
    return .doLoop position body c

/-- Reads the start of a counting loop, with its semicolon. -/
def forStart : Nat → Parser (Option Stmt)
  | 0 => throw .tooDeep
  | depth + 1 => do
    if ← matchDelimiter ";" then return none
    else if ← startsDeclaration then return some (← startDeclaration (declaration depth))
    else return some (← expressionStmt depth)

/-- Reads a loop with a start, a condition and an update. -/
def forStmt : Nat → Parser Stmt
  | 0 => throw .tooDeep
  | depth + 1 => do
    let t ← advance
    discard (expectDelimiter "(")
    let start ← forStart depth
    let c ← unlessAt ";" depth
    discard (expectDelimiter ";")
    let update ← unlessAt ")" depth
    discard (expectDelimiter ")")
    let body ← statement depth
    return .forLoop t.position start c update body

end

/-! ### Programs -/

def statements : Parser (List Stmt) :=
  repeatWhile (do return !(← atEnd)) (statement deepest)

/-- Why a list of tokens denotes no program. -/
inductive Rejection where
  | error (error : Error)
  | fault (fault : Fault)
deriving Repr, Inhabited

/-- An error at a position of a source with the given lines. -/
def errorAt (file : String) (lines : Array String) (cause : Cause) (position : Position) :
    Error where
  cause := cause
  location := some (position.inFile file)
  sourceLine := Source.lineAt? lines position.line

/-- Runs a rule on a list of tokens, and returns its result and the first token that it did not
consume. -/
def runOn {α : Type} (rule : Parser α) (tokens : List Token) (file : String)
    (lines : Array String) : Except Rejection (α × Token) :=
  match rule (Cursor.start tokens) with
  | .ok a c => .ok (a, c.ahead 0)
  | .error (.error cause position) _ => .error (.error (errorAt file lines cause position))
  | .error (.fault fault) _ => .error (.fault fault)
  | .error .tooDeep c =>
    let t := c.ahead 0
    .error (.error (errorAt file lines (.nestingTooDeep t.described t.offset) t.position))

end SmallCpp.Parse

namespace SmallCpp

open Parse

def Program.ofTokens? (tokens : List Token) (file : String) (lines : Array String) :
    Except Rejection Program :=
  (runOn statements tokens file lines).map fun (body, _) => ⟨file, body⟩

def Source.parseWith {α : Type} (rule : Parser α) (source : Source) :
    Except Rejection (α × Token) :=
  match source.tokenize with
  | .error e => .error (.error e)
  | .ok tokens => runOn rule tokens source.file source.texts

/-- The program that a text is read as. -/
def Source.parse (source : Source) : Except Rejection Program :=
  (source.parseWith statements).map fun (body, _) => ⟨source.file, body⟩

end SmallCpp
