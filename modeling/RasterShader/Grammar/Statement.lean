import RasterShader.Grammar.Declarator
import RasterShader.Typing.Statement

/-!
# The grammar of statements

As with expressions, each rule is written against the statements nested in it, and `statementAt`
ties the knot with one round for every permitted level of nesting.
-/

namespace RasterShader

namespace Grammar

open ParserM

/-! ## Declarations and expressions -/

/-- An expression and a semicolon. -/
def expressionStatement : ParserM Stmt := do
  let e ← expression
  let _ ← expect .semicolon
  return Typing.expressionStatement e

/-- The rest of a declaration of local variables. Several of them make up a block that opens no
scope. -/
def localDeclarations (start : DeclarationStart) : ParserM Stmt := do
  let declare : Declare Stmt := fun span modifiers ty name value =>
    Typing.declareVariable span modifiers ty name value .local
  match ← declarators start declare with
  | [statement] => return statement
  | statements =>
    let first := start.modifiers.span.join start.name.span
    return .block (statements.foldl (fun span s => span.join s.span) first) statements false

/-- The token can start the type of a declaration. -/
def startsType (symbols : SymbolTable) (token : Token) : Bool :=
  match token.kind with
  | .kwHighp | .kwMediump | .kwLowp => true
  | .identifier => symbols.isType token.text
  | _ => false

/-- A declaration if the tokens read as modifiers, a type and a name, otherwise an expression. Only
that much is read on trial. -/
def declarationOrExpression : ParserM Stmt := do
  let token ← peek
  if token.kind == .kwConst then localDeclarations (← declarationStart)
  else if startsType (← get).session.symbols token then
    match ← speculate declarationStart with
    | some start => localDeclarations start
    | none => expressionStatement
  else expressionStatement

/-! ## Compound statements -/

/-- Statements up to a closing brace. One that cannot be read is skipped, token by token if need
be. -/
def blockContents (statement : ParserM Stmt) (opening : Token) : ParserM Stmt :=
  loop ([] : List Stmt) fun found => do
    let token ← peek
    match token.kind with
    | .rightBrace =>
      let _ ← nextToken
      return .inr (.block (opening.spanTo token) found true)
    | .endOfFile =>
      reportFatal token.span (.expected "'\x7d'" "end of file")
      failure
    | _ =>
      let before := (← get).cursor
      let result ← attempt statement
      if (← get).fatal then failure
      match result with
      | some s => return .inl (found ++ [s])
      | none =>
        if (← get).cursor == before then
          let _ ← nextToken
        return .inl found

/-- Statements in braces, with a scope of their own. -/
def block (statement : ParserM Stmt) : ParserM Stmt := nested do
  let opening ← expect .leftBrace
  enter
  inScope (blockContents statement opening)

/-- A condition in parentheses. -/
def condition : ParserM Expr := do
  let _ ← expect .leftParen
  let test ← expression
  let _ ← expect .rightParen
  return test

/-- A branch. -/
def ifStatement (statement : ParserM Stmt) : ParserM Stmt := do
  let start ← nextToken
  let test ← condition
  let ifTrue ← statement
  let span := start.span.join ifTrue.span
  if ← accepts .kwElse then
    let ifFalse ← statement
    check (Typing.branch (← dialect) (span.join ifFalse.span) test ifTrue (some ifFalse))
  else check (Typing.branch (← dialect) span test ifTrue none)

/-- The body of a loop, in which `break` and `continue` are permitted. -/
def loopBody (statement : ParserM Stmt) : ParserM Stmt := do
  modify fun p => { p with session.loopDepth := p.session.loopDepth + 1 }
  ensuring statement fun p => { p with session.loopDepth := p.session.loopDepth - 1 }

/-- An expression, unless the given token comes first. -/
def expressionUnless (kind : TokenKind) : ParserM (Option Expr) := do
  if (← peekKind) == kind then return none else return some (← expression)

/-- A `for` loop. What its header declares has a scope of its own. -/
def forStatement (statement : ParserM Stmt) : ParserM Stmt := do
  let start ← nextToken
  let _ ← expect .leftParen
  inScope do
    let initializer ←
      if ← accepts .semicolon then pure none else some <$> declarationOrExpression
    let test ← expressionUnless .semicolon
    let _ ← expect .semicolon
    let next ← expressionUnless .rightParen
    let _ ← expect .rightParen
    let body ← loopBody statement
    check (Typing.forLoop (← dialect) (start.span.join body.span) initializer test next body)

/-- A `while` loop. -/
def whileStatement (statement : ParserM Stmt) : ParserM Stmt := do
  let start ← nextToken
  let test ← condition
  let body ← loopBody statement
  check (Typing.whileLoop (← dialect) (start.span.join body.span) test body)

/-- A `do` loop. -/
def doStatement (statement : ParserM Stmt) : ParserM Stmt := do
  let start ← nextToken
  let body ← loopBody statement
  let _ ← expect .kwWhile
  let test ← condition
  let stop ← expect .semicolon
  check (Typing.doLoop (← dialect) (start.spanTo stop) body test)

/-- The statements of a case. -/
def caseBody (statement : ParserM Stmt) : ParserM (List Stmt) :=
  loop [] fun found => do
    match ← peekKind with
    | .rightBrace | .kwCase | .kwDefault | .endOfFile => return .inr found
    | _ => return .inl (found ++ [← statement])

/-- The cases of a switch, the default last, through the closing brace. -/
def switchCases (statement : ParserM Stmt) : ParserM (List Typing.RawCase × Token) := do
  let cases ← loop ([] : List Typing.RawCase) fun found => do
    match ← accept? .kwCase with
    | none => return .inr found
    | some token =>
      let value ← expression
      let _ ← expect .colon
      return .inl (found ++ [⟨some value, token.span, ← caseBody statement⟩])
  let cases ←
    match ← accept? .kwDefault with
    | none => pure cases
    | some token =>
      let _ ← expect .colon
      pure (cases ++ [⟨none, token.span, ← caseBody statement⟩])
  return (cases, ← expect .rightBrace)

/-- A switch. -/
def switchStatement (statement : ParserM Stmt) : ParserM Stmt := do
  let start ← nextToken
  let value ← condition
  let _ ← expect .leftBrace
  modify fun p => { p with session.switchDepth := p.session.switchDepth + 1 }
  let (cases, stop) ← ensuring (inScope (switchCases statement)) fun p =>
    { p with session.switchDepth := p.session.switchDepth - 1 }
  check (Typing.switch (← dialect) (start.spanTo stop) value cases)

/-- A `return`. -/
def returnStatement : ParserM Stmt := do
  let start ← nextToken
  let value ← expressionUnless .semicolon
  let stop ← expect .semicolon
  check (Typing.returnStatement (start.spanTo stop) (← get).session.function value)

/-- A `break`, `continue` or `discard`. -/
def jumpStatement (permitted : Session → Bool) (issue : Issue) (build : Span → Stmt) :
    ParserM Stmt := do
  let start ← nextToken
  let stop ← expect .semicolon
  let span := start.spanTo stop
  check (Typing.jump (permitted (← get).session) span issue (build span))

/-- One statement, given the rule for those nested in it. -/
def statementOf (inner : ParserM Stmt) : ParserM Stmt := nested do
  enter
  let token ← peek
  match token.kind with
  | .kwIf => ifStatement inner
  | .kwFor => forStatement inner
  | .kwDo => doStatement inner
  | .kwWhile => whileStatement inner
  | .kwSwitch => switchStatement inner
  | .kwReturn => returnStatement
  | .kwBreak => jumpStatement Session.canBreak .strayBreak .breaks
  | .kwContinue => jumpStatement Session.inLoop .strayContinue .continues
  | .kwDiscard =>
    jumpStatement (fun s => s.dialect.kind.isFragment) .strayDiscard .discards
  | .leftBrace => block inner
  | .semicolon =>
    let _ ← nextToken
    return .nop token.span
  | .kwConst | .kwHighp | .kwMediump | .kwLowp | .identifier => declarationOrExpression
  | _ => expressionStatement

/-- A statement with a number of rounds of recursion. -/
def statementAt : Nat → ParserM Stmt
  | 0 => failure
  | rounds + 1 => statementOf (statementAt rounds)

/-- A statement. -/
def statement : ParserM Stmt := statementAt (Parser.maxDepth + 1)

end Grammar

end RasterShader
