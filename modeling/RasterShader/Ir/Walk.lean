import RasterShader.Ir.Element

/-!
# Nodes in source order

Every analysis that asks whether some part of a program has a property, or how often, is a query
on the list of nodes met by a walk that visits a node before its children (`Expr.nodes`,
`Stmt.nodes`, `Element.nodes`). The initializer that a reference carries along is not part of the
expression it stands in and is not visited.
-/

namespace RasterShader

namespace Expr

mutual

/-- The expression and everything in it, each node before its operands. -/
def nodes : Expr → List Expr
  | e@(literal ..) | e@(reference ..) | e@(poison _) => [e]
  | e@(binary _ left _ right) => e :: (nodes left ++ nodes right)
  | e@(prefixed _ _ operand) | e@(postfixed _ _ operand) | e@(field _ operand _)
  | e@(swizzle _ operand _) | e@(convert _ _ operand) => e :: nodes operand
  | e@(index _ base i) => e :: (nodes base ++ nodes i)
  | e@(ternary _ test ifTrue ifFalse) => e :: (nodes test ++ nodes ifTrue ++ nodes ifFalse)
  | e@(call _ _ arguments) | e@(childCall _ _ arguments) | e@(assemble _ _ arguments) =>
    e :: nodesOfAll arguments

/-- The nodes of several expressions, one after the other. -/
def nodesOfAll : List Expr → List Expr
  | [] => []
  | e :: rest => nodes e ++ nodesOfAll rest

end

end Expr

/-- A statement or expression met by a walk. -/
inductive Node where
  | statement (s : Stmt)
  | expression (e : Expr)
deriving Inhabited

namespace Node

/-- The expression of a node. -/
def expression? : Node → Option Expr
  | expression e => some e
  | statement _ => none

/-- The nodes of an expression. -/
def ofExpr (e : Expr) : List Node := e.nodes.map .expression

/-- The nodes of an expression that may be missing. -/
def ofExpr? (e : Option Expr) : List Node := (e.map ofExpr).getD []

end Node

namespace Stmt

mutual

/-- The statement and everything in it, each node before its parts. -/
def nodes : Stmt → List Node
  | s@(block _ statements _) => .statement s :: nodesOfAll statements
  | s@(expression _ e) => .statement s :: Node.ofExpr e
  | s@(declare _ _ value) => .statement s :: Node.ofExpr? value
  | s@(branch _ test ifTrue ifFalse) =>
    .statement s :: (Node.ofExpr test ++ nodes ifTrue ++ nodesOfOption ifFalse)
  | s@(loop _ initializer test next body _) =>
    .statement s ::
      (nodesOfOption initializer ++ Node.ofExpr? test ++ Node.ofExpr? next ++ nodes body)
  | s@(doWhile _ body test) => .statement s :: (nodes body ++ Node.ofExpr test)
  | s@(switch _ value cases) => .statement s :: (Node.ofExpr value ++ nodesOfCases cases)
  | s@(returns _ value) => .statement s :: Node.ofExpr? value
  | s@(breaks _) | s@(continues _) | s@(discards _) | s@(nop _) => [.statement s]

/-- The nodes of several statements, one after the other. -/
def nodesOfAll : List Stmt → List Node
  | [] => []
  | s :: rest => nodes s ++ nodesOfAll rest

/-- The nodes of a statement that may be missing. -/
def nodesOfOption : Option Stmt → List Node
  | none => []
  | some s => nodes s

/-- The nodes of the cases of a switch. -/
def nodesOfCases : List (CaseOf Stmt) → List Node
  | [] => []
  | ⟨_, _, statements⟩ :: rest => nodesOfAll statements ++ nodesOfCases rest

end

end Stmt

/-- The nodes of a top-level element. A global variable counts as a declaration statement. -/
def Element.nodes : Element → List Node
  | .global span v value => (Stmt.declare span v value).nodes
  | .function f => f.body.nodes
  | _ => []

/-- The function an expression calls, if it is a call. -/
def Expr.callee? : Expr → Option FunctionDecl
  | .call _ f _ => some f
  | _ => none

/-- The calls of a statement with their places, in source order and with repeats. -/
def Stmt.callSites (s : Stmt) : List (Span × FunctionDecl) :=
  s.nodes.filterMap fun node => do
    let e ← node.expression?
    let f ← e.callee?
    return (e.span, f)

/-- Every function called from a statement, in source order and with repeats. -/
def Stmt.calledFunctions (s : Stmt) : List FunctionDecl := s.callSites.map (·.2)

end RasterShader
