import SmallCpp.Expr.Text
import SmallCpp.Stmt.Basic

/-!
# Outlines of programs

An outline lists the statements of a program, one to a line, each indented by two blanks per level.
-/

namespace SmallCpp

def outlineLine (level : Nat) (text : String) : String :=
  "".pushn ' ' (2 * level) ++ text

def Signature.text (s : Signature) : String :=
  let header :=
    if s.templateParams.isEmpty then ""
    else "template<" ++ ", ".intercalate s.templateParams ++ "> "
  let params := s.params.map fun p => p.type.text ++ " " ++ p.name
  header ++ s.returns.text ++ " " ++ s.name ++ "(" ++ ", ".intercalate params ++ ")"

def Extent.text : Extent → String
  | single => ""
  | inferred => "[]"
  | sized size => "[" ++ size.text ++ "]"

def Declarator.text (d : Declarator) : String :=
  let start :=
    match d.initializer with
    | none => ""
    | some e => " = " ++ e.text
  d.type.text ++ " " ++ d.name ++ d.extent.text ++ start

namespace Stmt

mutual

def outline (level : Nat) : Stmt → List String
  | directive _ header system =>
    [outlineLine level (if system then s!"Include <{header}>" else s!"Include \"{header}\"")]
  | usingNamespace _ name => [outlineLine level s!"Using namespace {name}"]
  | declare d => [outlineLine level ("Declare: " ++ d.text)]
  | declareAll _ ds => ds.map fun d => outlineLine level ("Declare: " ++ d.text)
  | prototype s => [outlineLine level ("Prototype: " ++ s.text)]
  | define s _ body =>
    outlineLine level ("Function: " ++ s.text) :: outlineLine (level + 1) "Block"
      :: outlines (level + 2) body
  | block _ body => outlineLine level "Block" :: outlines (level + 1) body
  | branch _ condition positive negative =>
    outlineLine level ("If (" ++ condition.text ++ ")") :: outlineLine (level + 1) "Then:"
      :: outline (level + 2) positive ++ outlineUnder (level + 1) "Else:" negative
  | whileLoop _ condition body =>
    outlineLine level ("While (" ++ condition.text ++ ")") :: outline (level + 1) body
  | doLoop _ body condition =>
    outlineLine level ("DoWhile (" ++ condition.text ++ ")") :: outline (level + 1) body
  | forLoop _ start condition update body =>
    outlineLine level
        ("For (; " ++ Expr.optionalText condition ++ "; " ++ Expr.optionalText update ++ ")")
      :: outlineUnder (level + 1) "Init:" start
      ++ outlineLine (level + 1) "Body:" :: outline (level + 2) body
  | leave _ none => [outlineLine level "Return"]
  | leave _ (some value) => [outlineLine level ("Return " ++ value.text)]
  | breakLoop _ => [outlineLine level "Break"]
  | continueLoop _ => [outlineLine level "Continue"]
  | read _ targets => [outlineLine level ("Input: " ++ ", ".intercalate (Expr.texts targets))]
  | print _ parts => [outlineLine level ("Print: " ++ ", ".intercalate (Expr.texts parts))]
  | evaluate _ e => [outlineLine level ("Expr: " ++ e.text)]

def outlines (level : Nat) : List Stmt → List String
  | [] => []
  | s :: ss => outline level s ++ outlines level ss

/-- The lines of a statement that may be absent, under a label. -/
def outlineUnder (level : Nat) (label : String) : Option Stmt → List String
  | none => []
  | some s => outlineLine level label :: outline (level + 1) s

end

end Stmt

def Program.outline (p : Program) : String :=
  "\n".intercalate ("Program" :: Stmt.outlines 1 p.body)

end SmallCpp
