import SmallCpp.Stmt.Basic

/-!
# Nodes of a program

The nodes of a program in source order of their parts: a node comes before its parts, and the parts
of a node come in the order in which the node holds them.
-/

namespace SmallCpp

/-- A node of a program: the name of its kind and where it starts. -/
structure Node where
  kind : String
  position : Position
deriving DecidableEq, Repr, Inhabited

def Node.shown (n : Node) : String :=
  s!"{n.kind}@{n.position.line}:{n.position.column}"

def Expr.kindName : Expr → String
  | literal .. => "Literal"
  | name .. => "Identifier"
  | unary .. => "Unary"
  | step .. => "Postfix"
  | binary .. => "Binary"
  | assign .. => "Assignment"
  | call .. => "Call"
  | member .. => "Member"
  | index .. => "Index"
  | new .. | newArray .. => "New"
  | braces .. => "InitList"
  | endl _ => "Endl"

def Expr.node (e : Expr) : Node :=
  ⟨e.kindName, e.position⟩

namespace Expr

mutual

def nodes : Expr → List Node
  | literal p value => [(literal p value).node]
  | name p id => [(name p id).node]
  | unary p op operand => (unary p op operand).node :: operand.nodes
  | step p op operand => (step p op operand).node :: operand.nodes
  | binary p op left right => (binary p op left right).node :: left.nodes ++ right.nodes
  | assign p op target value => (assign p op target value).node :: target.nodes ++ value.nodes
  | call p callee args => (call p callee args).node :: callee.nodes ++ nodesAll args
  | member p object access field => (member p object access field).node :: object.nodes
  | index p object subscript => (index p object subscript).node :: object.nodes ++ subscript.nodes
  | new p type => [(new p type).node]
  | newArray p type size => (newArray p type size).node :: size.nodes
  | braces p elements => (braces p elements).node :: nodesAll elements
  | endl p => [(endl p).node]

def nodesAll : List Expr → List Node
  | [] => []
  | e :: es => e.nodes ++ nodesAll es

end

end Expr

def Expr.nodesOf (e : Option Expr) : List Node :=
  (e.map Expr.nodes).getD []

def Declarator.nodes (d : Declarator) : List Node :=
  ⟨"VariableDeclaration", d.position⟩ :: Expr.nodesOf d.initializer ++
    match d.extent with
    | .sized size => size.nodes
    | _ => []

def Signature.paramNodes (s : Signature) : List Node :=
  s.params.map fun p => ⟨"Param", p.position⟩

def Stmt.kindName : Stmt → String
  | directive .. => "Include"
  | usingNamespace .. => "UsingDirective"
  | declare _ => "VariableDeclaration"
  | declareAll .. => "DeclarationList"
  | prototype _ => "FunctionDecl"
  | define .. => "FunctionDef"
  | block .. => "Block"
  | branch .. => "If"
  | whileLoop .. => "While"
  | doLoop .. => "DoWhile"
  | forLoop .. => "For"
  | leave .. => "Return"
  | breakLoop _ => "Break"
  | continueLoop _ => "Continue"
  | read .. => "Input"
  | print .. => "Print"
  | evaluate .. => "ExpressionStatement"

def Stmt.node (s : Stmt) : Node :=
  ⟨s.kindName, s.position⟩

namespace Stmt

mutual

def nodes : Stmt → List Node
  | declare d => d.nodes
  | declareAll p ds => (declareAll p ds).node :: ds.flatMap Declarator.nodes
  | prototype s => (prototype s).node :: s.paramNodes
  | define s p body => (define s p body).node :: s.paramNodes ++ ⟨"Block", p⟩ :: nodesAll body
  | block p body => (block p body).node :: nodesAll body
  | branch p condition positive negative =>
    (branch p condition positive negative).node :: condition.nodes ++ nodes positive
      ++ nodesOf negative
  | whileLoop p condition body => (whileLoop p condition body).node :: condition.nodes ++ nodes body
  | doLoop p body condition => (doLoop p body condition).node :: nodes body ++ condition.nodes
  | forLoop p start condition update body =>
    (forLoop p start condition update body).node :: nodesOf start ++ Expr.nodesOf condition
      ++ Expr.nodesOf update ++ nodes body
  | leave p value => (leave p value).node :: Expr.nodesOf value
  | read p targets => (read p targets).node :: Expr.nodesAll targets
  | print p parts => (print p parts).node :: Expr.nodesAll parts
  | evaluate p e => (evaluate p e).node :: e.nodes
  | directive p header system => [(directive p header system).node]
  | usingNamespace p name => [(usingNamespace p name).node]
  | breakLoop p => [(breakLoop p).node]
  | continueLoop p => [(continueLoop p).node]

def nodesAll : List Stmt → List Node
  | [] => []
  | s :: ss => nodes s ++ nodesAll ss

def nodesOf : Option Stmt → List Node
  | none => []
  | some s => nodes s

end

end Stmt

/-- All nodes of the syntax tree, each before its parts. -/
def Program.nodes (p : Program) : List Node :=
  ⟨"Program", {}⟩ :: Stmt.nodesAll p.body

end SmallCpp
