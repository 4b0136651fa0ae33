import RasterShader.Decimal.Reader
import RasterShader.Grammar.Parser
import RasterShader.Typing.Access
import RasterShader.Typing.Call
import RasterShader.Typing.Construct
import RasterShader.Typing.Declare
import RasterShader.Typing.Operation

/-!
# The grammar of expressions

Every rule is written against the rules it may recurse into (`ExprRules`), and `exprRules` ties
the knot. A rule recurses only after it has entered one more level of nesting, so that one round
of knots per permitted level is enough.
-/

namespace RasterShader

/-- The rules for expressions that others recurse into. -/
structure ExprRules where
  /-- Assignments separated by commas. -/
  expression : ParserM Expr
  /-- Everything that binds tighter than a comma. -/
  assignment : ParserM Expr
  /-- A prefix operation, or what binds tighter. -/
  unary : ParserM Expr

namespace Grammar

open ParserM

/-- Binary operators by level, the loosest first. -/
def binaryLevels : List (List TokenKind) :=
  [[.logicalOr], [.logicalXor], [.logicalAnd], [.bitwiseOr], [.bitwiseXor], [.bitwiseAnd],
    [.eqEq, .neq], [.lt, .gt, .ltEq, .gtEq], [.shl, .shr], [.plus, .minus],
    [.star, .slash, .percent]]

/-- What stands at the start of a postfix expression. Names of types and functions become
expressions only by a call. -/
inductive Term where
  | value (e : Expr)
  | type (ty : Ty) (span : Span)
  | functions (overloads : List FunctionDecl) (span : Span)

/-! ## Literals -/

/-- The value of a hexadecimal digit. -/
def hexDigitValue (c : Char) : Nat :=
  if c.isDigit then c.toNat - '0'.toNat
  else if 'a' ≤ c && c ≤ 'f' then c.toNat - 'a'.toNat + 10
  else c.toNat - 'A'.toNat + 10

/-- The value of an integer literal without its suffix, and whether it is hexadecimal. -/
def integerValue (digits : List Char) : Nat × Bool :=
  match digits with
  | '0' :: 'x' :: rest | '0' :: 'X' :: rest =>
    (rest.foldl (fun n c => 16 * n + hexDigitValue c) 0, true)
  | digits => (DecimalText.digitsValue digits, false)

/-- An integer literal. A hexadecimal one spells out the bits of an `int`. -/
def intLiteral (token : Token) : Checked Expr :=
  let span := token.span
  let cs := token.text.toList
  let unsigned := cs.getLast?.any fun c => c = 'u' || c = 'U'
  let (value, isHex) := integerValue (if unsigned then cs.dropLast else cs)
  if 4294967295 < value then .refuse span (.integerTooLarge token.text) (.poison span)
  else if unsigned then pure (.literal ⟨span, .uint⟩ (Float.ofNat value))
  else if value ≤ 2147483647 || isHex then
    pure (.literal ⟨span, .int⟩ (Float.ofInt (Constant.wrapSigned value)))
  else .refuse span (.intOutOfRange token.text) (.poison span)

/-- The value of a float literal, rounded to single precision, when that is finite. -/
def floatValue? (text : String) : Option Float := do
  let digits := text.toList.filter fun c => c != 'f' && c != 'F'
  let value := Double.toSingle (← DecimalText.parse? digits).toFloat
  if value.isFinite then some value else none

/-- A float literal. -/
def floatLiteral (token : Token) : Checked Expr :=
  match floatValue? token.text with
  | some value => pure (.literal ⟨token.span, .float⟩ value)
  | none => .refuse token.span (.floatTooLarge token.text) (.poison token.span)

/-! ## Postfix expressions -/

/-- Turns a term into a value. A name without a call is reported. -/
def finishTerm (term : Term) : ParserM Expr := do
  match term with
  | .value e => return e
  | .type _ span =>
    report span .bareTypeName
    return .poison span
  | .functions _ span =>
    report span .bareFunctionName
    return .poison span

/-- Arguments after an opening parenthesis, through the closing one. -/
def arguments (rules : ExprRules) : ParserM (List Expr × Token) := do
  if let some close ← accept? .rightParen then return ([], close)
  let found ← loop [] fun found => do
    let found := found ++ [← rules.assignment]
    return if ← accepts .comma then .inl found else .inr found
  return (found, ← expect .rightParen)

/-- The start of a postfix expression. -/
def term (rules : ExprRules) : ParserM Term := do
  let token ← nextToken
  let span := token.span
  match token.kind with
  | .identifier =>
    match (← get).session.symbols.lookup? token.text with
    | some (.type ty) => return .type ty span
    | some (.functions overloads) => return .functions overloads span
    | symbol => return .value (← check (Typing.identifier span token.text symbol))
  | .intLiteral => return .value (← literal (intLiteral token))
  | .floatLiteral => return .value (← literal (floatLiteral token))
  | .trueLiteral => return .value (.boolean span true)
  | .falseLiteral => return .value (.boolean span false)
  | .leftParen =>
    enter
    let e ← rules.expression
    let close ← expect .rightParen
    return .value (e.withSpan (token.spanTo close))
  | _ =>
    report span (.expected "expression" token.quoted)
    failure
where
  /-- Reports of literals are the parser's own. -/
  literal (x : Checked Expr) : ParserM Expr := do
    x.reports.forM fun r => report r.span r.issue
    return x.value

/-- The token starts a suffix. -/
def isSuffix (token : Token) : Bool :=
  match token.kind with
  | .leftBracket | .dot | .leftParen | .plusPlus | .minusMinus => true
  | .floatLiteral => token.text.startsWith "."
  | _ => false

/-- An array type named in an expression. -/
def typeSuffix (rules : ExprRules) (opening : Token) (ty : Ty) (span : Span) : ParserM Term := do
  let kind := (← dialect).kind
  match ← accept? .rightBracket with
  | some close =>
    return .type (← check (Typing.arrayType kind (opening.spanTo close) ty none))
      (span.join close.span)
  | none =>
    let size ← rules.expression
    let close ← expect .rightBracket
    return .type (← check (Typing.arrayType kind (opening.spanTo close) ty (some size)))
      (span.join close.span)

/-- An element of a value. -/
def indexSuffix (rules : ExprRules) (opening : Token) (base : Expr) : ParserM Expr := do
  match ← accept? .rightBracket with
  | some close =>
    report (opening.spanTo close) .missingIndex
    return .poison base.span
  | none =>
    let i ← rules.expression
    let close ← expect .rightBracket
    check (Typing.element base i (opening.spanTo close))

/-- A field, swizzle or method of a value. -/
def dotSuffix (rules : ExprRules) (base : Expr) : ParserM Expr := do
  let name ← expect .identifier
  if ← accepts .leftParen then
    let (args, close) ← arguments rules
    check (Typing.callMethod (base.span.join close.span) base name.text args)
  else check (Typing.member (← dialect) base name.text name.span)

/-- A swizzle whose mask starts with a digit and so was read as a float: `.0` with letters directly
after it. -/
def digitSwizzle (token : Token) (base : Expr) : ParserM Expr := do
  let digits := String.ofList (token.text.toList.drop 1)
  let raw ← nextRawToken
  if raw.kind == .identifier && raw.offset == token.stop then
    check (Typing.swizzle (← dialect) base (digits ++ raw.text) (base.span.join raw.span))
  else
    pushBack raw
    check (Typing.swizzle (← dialect) base digits (base.span.join token.span))

/-- Applies one suffix to a term. -/
def suffix (rules : ExprRules) (t : Term) : ParserM Term := do
  let token ← nextToken
  match token.kind, t with
  | .leftParen, .type ty span => do
    let (args, close) ← arguments rules
    return .value (← check (Typing.construct (← dialect) (span.join close.span) ty args))
  | .leftParen, .functions overloads span => do
    let (args, close) ← arguments rules
    return .value (← check (Typing.call (span.join close.span) overloads args))
  | .leftParen, .value base => do
    let (_, close) ← arguments rules
    let span := base.span.join close.span
    if !base.isPoison then report span (.notAFunction base.text)
    return .value (.poison span)
  | .leftBracket, .type ty span => typeSuffix rules token ty span
  | _, .type _ span => do
    pushBack token
    return .value (.poison (← finishTerm (.type .void span)).span)
  | _, .functions _ span => do
    pushBack token
    return .value (.poison (← finishTerm (.functions [] span)).span)
  | .leftBracket, .value base => return .value (← indexSuffix rules token base)
  | .dot, .value base => return .value (← dotSuffix rules base)
  | .floatLiteral, .value base => return .value (← digitSwizzle token base)
  | .plusPlus, .value base =>
    return .value (← check (Typing.postfixOperation base .plusPlus token.span))
  | .minusMinus, .value base =>
    return .value (← check (Typing.postfixOperation base .minusMinus token.span))
  | _, .value base => do
    report token.span (.unexpected token.quoted)
    return .value base

/-- A term and its suffixes. Every suffix enters a level, so that there are no more of them than
levels. -/
def postfixExpression (rules : ExprRules) : ParserM Expr := nested do
  let first ← term rules
  let step (t : Term) : ParserM (Term ⊕ Expr) := do
    if isSuffix (← peek) then
      enter
      return .inl (← suffix rules t)
    else return .inr (← finishTerm t)
  iterate step (Parser.maxDepth + 1) first

/-! ## Operations -/

/-- A prefix operation, or a postfix expression. -/
def unaryExpression (rules : ExprRules) : ParserM Expr := nested do
  let token ← peek
  match token.kind with
  | .plus | .minus | .logicalNot | .bitwiseNot | .plusPlus | .minusMinus =>
    let op ← ofOption (Operator.ofToken? token.kind)
    let _ ← nextToken
    enter
    let operand ← rules.unary
    check (Typing.prefixOperation (← dialect) token.span op operand)
  | _ => postfixExpression rules

/-- Binary operations from a level on. Operators of one level associate to the left. -/
def binaryExpression (rules : ExprRules) : List (List TokenKind) → ParserM Expr
  | [] => unaryExpression rules
  | operators :: tighter => nested do
    let first ← binaryExpression rules tighter
    loop first fun left => do
      let token ← peek
      if !operators.contains token.kind then return .inr left
      let op ← ofOption (Operator.ofToken? token.kind)
      let _ ← nextToken
      enter
      let right ← binaryExpression rules tighter
      return .inl (← check (Typing.binary (← dialect) left op right))

/-- A choice between two expressions, or a binary expression. -/
def ternaryExpression (rules : ExprRules) : ParserM Expr := nested do
  let test ← binaryExpression rules binaryLevels
  match ← accept? .question with
  | none => return test
  | some question =>
    enter
    let ifTrue ← rules.expression
    let _ ← expect .colon
    let ifFalse ← rules.assignment
    check (Typing.ternary (← dialect) test ifTrue ifFalse question.span)

/-- An assignment, which associates to the right, or a choice. -/
def assignmentExpression (rules : ExprRules) : ParserM Expr := nested do
  let left ← ternaryExpression rules
  match Operator.ofToken? (← peekKind) with
  | some op =>
    if op.isAssignment then
      let _ ← nextToken
      enter
      let right ← rules.assignment
      check (Typing.binary (← dialect) left op right)
    else return left
  | none => return left

/-- Assignments separated by commas. -/
def commaExpression (rules : ExprRules) : ParserM Expr := nested do
  let first ← assignmentExpression rules
  loop first fun left => do
    if !(← accepts .comma) then return .inr left
    enter
    let right ← assignmentExpression rules
    return .inl (← check (Typing.binary (← dialect) left .comma right))

/-- The rules for expressions with a number of rounds of recursion. -/
def exprRules : Nat → ExprRules
  | 0 => ⟨failure, failure, failure⟩
  | rounds + 1 =>
    let rules := exprRules rounds
    ⟨commaExpression rules, assignmentExpression rules, unaryExpression rules⟩

/-- The rules for expressions, with a round for every permitted level of nesting. -/
def rules : ExprRules := exprRules (Parser.maxDepth + 1)

/-- An expression. -/
def expression : ParserM Expr := rules.expression

/-- An expression without a comma at its top. -/
def assignment : ParserM Expr := rules.assignment

end Grammar

end RasterShader
