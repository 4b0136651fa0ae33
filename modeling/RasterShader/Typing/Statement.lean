import RasterShader.Dialect
import RasterShader.Typing.Coerce

/-!
# Type checking of statements

A statement that is wrong becomes an empty one. The exception is a `return` whose value failed: it
still ends the path it stands on, so that nobody is told of a missing return as well.
-/

namespace RasterShader

namespace Typing

/-- An expression evaluated for its effect. -/
def expressionStatement (e : Expr) : Stmt :=
  if e.isPoison then .nop e.span else .expression e.span e

/-- Checks a branch. A literal test decides which side remains. -/
def branch (dialect : Dialect) (span : Span) (test : Expr) (ifTrue : Stmt)
    (ifFalse : Option Stmt) : Checked Stmt := do
  let test ← test.coerce .bool
  if test.isPoison then return .nop span
  else
    match if dialect.settings.optimize then test.literalValue? else none with
    | some v => return if v != 0.0 then ifTrue else ifFalse.getD (.nop span)
    | none => return .branch span test ifTrue ifFalse

/-- Checks a test that may be missing; nothing is left of one that failed. -/
def optionalTest (test : Option Expr) : Checked (Option (Option Expr)) := do
  match test with
  | none => return some none
  | some test =>
    let test ← test.coerce .bool
    return if test.isPoison then none else some (some test)

/-- Checks a `for` loop. The smaller language version only knows loops with a known number of
trips. -/
def forLoop (dialect : Dialect) (span : Span) (initializer : Option Stmt)
    (test next : Option Expr) (body : Stmt) : Checked Stmt := do
  match ← optionalTest test with
  | none => return .nop span
  | some test =>
    if next.any Expr.isPoison then return .nop span
    else
      match TripInfo.ofLoop initializer test next body with
      | .ok trips => return .loop span initializer test next body (some trips)
      | .error obstacle =>
        if dialect.strictEs2 then .refuse span (.tripCount obstacle) (.nop span)
        else return .loop span initializer test next body none

/-- Checks a `while` loop. -/
def whileLoop (dialect : Dialect) (span : Span) (test : Expr) (body : Stmt) : Checked Stmt := do
  if dialect.strictEs2 then .refuse span .whileLoop (.nop span)
  else
    let test ← test.coerce .bool
    return if test.isPoison then .nop span else .loop span none (some test) none body none

/-- Checks a `do` loop. -/
def doLoop (dialect : Dialect) (span : Span) (body : Stmt) (test : Expr) : Checked Stmt := do
  if dialect.strictEs2 then .refuse span .doLoop (.nop span)
  else
    let test ← test.coerce .bool
    return if test.isPoison then .nop span else .doWhile span body test

/-- A case of a switch before its value is checked. The default case has no value. -/
structure RawCase where
  value : Option Expr
  span : Span
  statements : List Stmt
deriving Inhabited

/-- Checks the cases of a switch over a value of type `ty`. A case whose value is wrong is left
out; a repeated value is reported and kept. -/
def switchCases (ty : Ty) (seen : List Int) : List RawCase → Checked (List SwitchCase)
  | [] => pure []
  | ⟨none, span, statements⟩ :: rest => do
    return ⟨span, none, statements⟩ :: (← switchCases ty seen rest)
  | ⟨some value, span, statements⟩ :: rest => do
    let value ← value.coerce ty
    if value.isPoison then switchCases ty seen rest
    else
      match value.constantInt? with
      | none => do
        Checked.report value.span .caseNotConstant
        switchCases ty seen rest
      | some n => do
        if seen.contains n then Checked.report span (.duplicateCase n)
        return ⟨span, some n, statements⟩ :: (← switchCases ty (n :: seen) rest)

/-- Checks a switch. -/
def switch (dialect : Dialect) (span : Span) (value : Expr) (cases : List RawCase) :
    Checked Stmt := do
  if dialect.strictEs2 then .refuse span .switchStatement (.nop span)
  else if value.isPoison then return .nop span
  else
    let value ← if value.ty.isScalar && value.ty.isInteger then pure value else value.coerce .int
    if value.isPoison then return .nop span
    else return .switch span value (← switchCases value.ty [] cases)

/-- Checks a `return` in a function. -/
def returnStatement (span : Span) (function : Option FunctionDecl) (value : Option Expr) :
    Checked Stmt := do
  match function, value with
  | none, _ => .refuse span .returnOutsideFunction (.nop span)
  | some f, some value =>
    if value.isPoison then return .returns span (some value)
    else if f.returnType.isVoid then .refuse value.span .returnFromVoid (.nop span)
    else return .returns span (some (← value.coerce f.returnType))
  | some f, none =>
    if f.returnType.isVoid then return .returns span none
    else .refuse span (.returnWithoutValue f.returnType) (.nop span)

/-- A jump, where it is permitted. -/
def jump (permitted : Bool) (span : Span) (issue : Issue) (statement : Stmt) : Checked Stmt :=
  if permitted then pure statement else .refuse span issue (.nop span)

end Typing

end RasterShader
