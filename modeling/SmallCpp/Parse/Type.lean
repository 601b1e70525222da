import SmallCpp.Parse.Basic
import SmallCpp.TypeExpr

/-!
# Reading types

A type is read as modifiers, a base, generic arguments for the containers, and signs. The sign `>>`
closes two generic argument lists at once: when the inner list is closed by it, the outer list is
closed too, and the signs that follow belong to the outer type.
-/

namespace SmallCpp.Parse

def containerKeywords : List String :=
  ["vector", "map", "pair"]

def baseKeywords : List String :=
  ["int", "float", "double", "char", "bool", "void", "auto", "string"]

def integerAliases : List String :=
  ["long", "short", "unsigned", "signed", "size_t"]

def isIntegerAlias (t : Token) : Bool :=
  t.kind == .identifier && integerAliases.contains t.text

def modifierList : Parser (List Modifier) := do
  let item : Parser Modifier := do
    let t ← advance
    return if t.text == "const" then .const else .static
  repeatWhile (peekKeyword ["const", "static"]) item

/-- Consumes the names that stand for the integers, and the plain name after them. -/
def skipIntegerAlias : Parser Unit := do
  let _ ← repeatWhile (do return isIntegerAlias (← peek)) advance
  discard (matchKeyword ["int"])

/-- Closes a generic argument list: with `>`, with a `>>` that closes the list around it as well,
or with the `>>` that has closed a list inside it. -/
def closeGeneric : Parser Unit := do
  let c ← get
  if c.splitCloser then
    set { c with splitCloser := false, openGenerics := c.openGenerics - 1 }
  else
    let t := c.ahead 0
    if t.isOperator [">"] then
      discard advance
      modify fun c => { c with openGenerics := c.openGenerics - 1 }
    else if t.is .stream ">>" && 2 ≤ c.openGenerics then
      discard advance
      modify fun c => { c with splitCloser := true, openGenerics := c.openGenerics - 1 }
    else
      throw (.error (.unbalancedGenerics t.described (some t.offset)) t.position)

/-- The pointer and reference signs after a type, unless they belong to the type around it. -/
def typeSigns : Parser (Nat × Bool) := do
  let more : Parser Bool := do
    return !(← get).splitCloser && (← peekOperator ["*", "&"])
  let signs ← repeatWhile more advance
  return ((signs.filter fun t => t.text == "*").length, signs.any fun t => t.text != "*")

/-- Reads the arguments of a container with `args`, if it may have some and they stand here. -/
def optionalArgs (args : Parser (List TypeExpr)) (allowed : Bool) : Parser (List TypeExpr) := do
  if allowed && (← peekOperator ["<"]) then args else pure []

/-- Reads the base of a type, whether it is in the standard namespace, and its arguments. -/
def typeBase (args : Parser (List TypeExpr)) : Parser (BaseType × Bool × List TypeExpr) := do
  let t ← peek
  let std ← peekStd
  if t.isKeyword containerKeywords then do
    discard advance
    let args ← optionalArgs args true
    return (BaseType.ofName t.text, false, args)
  else if std then do
    discard advance
    discard advance
    let q ← advance
    if q.kind != .identifier && q.kind != .keyword then failAt "type name" q
    else do
      let args ← optionalArgs args (containerKeywords.contains q.text)
      return (BaseType.ofName q.text, true, args)
  else if t.isKeyword baseKeywords then do
    discard advance
    return (BaseType.ofName t.text, false, [])
  else if isIntegerAlias t then do
    skipIntegerAlias
    return (BaseType.int, false, [])
  else if t.kind == .identifier then do
    discard advance
    return (BaseType.ofName t.text, false, [])
  else failHere "type"

/-- Consumes the comma before a further argument, unless a double sign has closed the list. -/
def moreArgs : Parser Bool := do
  if (← get).splitCloser then return false else matchDelimiter ","

mutual

/-- Reads a type; `depth` bounds the number of rules in progress. -/
def typeExpr : Nat → Parser TypeExpr
  | 0 => throw .tooDeep
  | depth + 1 => do
    let modifiers ← modifierList
    let (base, qualified, args) ← typeBase (genericArgs depth)
    let (pointers, isReference) ← typeSigns
    return { base, qualified, modifiers, args, pointers, isReference }

/-- Reads the arguments of a container, with the brackets. -/
def genericArgs : Nat → Parser (List TypeExpr)
  | 0 => throw .tooDeep
  | depth + 1 => do
    discard advance
    modify fun c => { c with openGenerics := c.openGenerics + 1 }
    let first ← typeExpr depth
    let others ← repeatWhile moreArgs (typeExpr depth)
    closeGeneric
    return first :: others

end

def declarationKeywords : List String :=
  ["int", "float", "double", "char", "bool", "void", "const", "static", "auto", "template",
    "string",
   "vector", "map", "pair"]

/-- The tokens ahead begin a declaration: with a keyword, with a type of the standard namespace,
with a name of the integers, or with a template parameter before a name or a sign. -/
def Cursor.declares (c : Cursor) : Bool :=
  let t := c.ahead 0
  t.isKeyword declarationKeywords ||
  (t.is .identifier "std" && (c.ahead 1).kind == .scope &&
    (c.ahead 2).isKeyword ("string" :: containerKeywords)) ||
  t.kind == .identifier && (integerAliases.contains t.text || c.typeNames.contains t.text &&
    ((c.ahead 1).kind == .identifier || (c.ahead 1).isOperator ["&", "*"]))

def startsDeclaration : Parser Bool := do
  return (← get).declares

end SmallCpp.Parse
