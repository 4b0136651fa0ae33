import RasterShader.Session
import RasterShader.Token.Lexer

/-!
# Parsing steps

A `ParserM` step reads tokens, changes the session, and may fail; what it changed before failing
stays changed, and the caller decides how to go on. One token may be pushed back. Nesting is
limited: every recursive construct first counts a level (`enter`), and `nested` restores the count
when the construct is done. After a fatal error nothing more is reported by the parser itself.
-/

namespace RasterShader

/-- The state of a parser. -/
structure Parser where
  /-- Characters of the whole source. -/
  size : Nat
  lexer : Lexer
  /-- A token that has been looked at and not used yet. -/
  pushback : Option Token
  session : Session
  /-- Levels of nesting entered. -/
  depth : Nat
  /-- No more errors are reported. -/
  fatal : Bool
deriving Inhabited

/-- Steps that may fail; failing keeps the changes made so far. -/
abbrev ParserM := OptionT (StateM Parser)

/-- A token that the grammar asks for, and how messages name it. -/
structure Wanted where
  kind : TokenKind
  text : String

namespace Wanted

/-- A semicolon. -/
def semicolon : Wanted := ⟨.semicolon, "';'"⟩
/-- A colon. -/
def colon : Wanted := ⟨.colon, "':'"⟩
/-- A comma. -/
def comma : Wanted := ⟨.comma, "','"⟩
/-- An equals sign. -/
def equals : Wanted := ⟨.assign, "'='"⟩
/-- An opening parenthesis. -/
def leftParen : Wanted := ⟨.leftParen, "'('"⟩
/-- A closing parenthesis. -/
def rightParen : Wanted := ⟨.rightParen, "')'"⟩
/-- A closing bracket. -/
def rightBracket : Wanted := ⟨.rightBracket, "']'"⟩
/-- An opening brace. -/
def leftBrace : Wanted := ⟨.leftBrace, "'\x7b'"⟩
/-- A closing brace. -/
def rightBrace : Wanted := ⟨.rightBrace, "'\x7d'"⟩
/-- Any identifier. -/
def identifier : Wanted := ⟨.identifier, "an identifier"⟩
/-- The name of a type. -/
def typeName : Wanted := ⟨.identifier, "a type"⟩
/-- An integer. -/
def integer : Wanted := ⟨.intLiteral, "an integer"⟩
/-- The number of a version. -/
def versionNumber : Wanted := ⟨.intLiteral, "a version number"⟩
/-- The word `while`. -/
def kwWhile : Wanted := ⟨.kwWhile, "'while'"⟩

end Wanted

/-- The next token that is not trivia, and the lexer after it. -/
def Lexer.nextSignificant (lexer : Lexer) : Token × Lexer :=
  if _h : lexer.rest.isEmpty then lexer.next
  else
    let result := lexer.next
    if result.1.kind.isTrivia then nextSignificant result.2 else result
termination_by lexer.rest.length
decreasing_by exact Lexer.length_rest_next_lt lexer (by simp_all)

namespace Parser

/-- The deepest nesting of statements, blocks and expressions. -/
def maxDepth : Nat := 50

/-- The longest source text in bytes. -/
def maxSourceLength : Nat := 8 * 1024 * 1024

/-- A parser at the start of a source text. -/
def start (source : List Char) (session : Session) : Parser :=
  ⟨source.length, ⟨source, 0⟩, none, session, 0, false⟩

/-- Offset of the next token that has not been used. -/
def cursor (p : Parser) : Nat := (p.pushback.map Token.offset).getD p.lexer.offset

end Parser

namespace ParserM

variable {α β σ : Type}

/-! ## Failing and going on -/

/-- Runs a step and gives nothing in place of failing. -/
def attempt (step : ParserM α) : ParserM (Option α) := OptionT.mk (some <$> step.run)

/-- Gives a value, or fails where there is none. -/
def ofOption (value : Option α) : ParserM α := OptionT.mk (pure value)

/-- Runs a step and then, whether or not it failed, changes the state. -/
def ensuring (step : ParserM α) (after : Parser → Parser) : ParserM α := do
  let result ← attempt step
  modify after
  ofOption result

/-- Repeats a step that gives either the next state of the loop or its result, with `fuel` rounds
at most. -/
def iterate (step : σ → ParserM (σ ⊕ α)) : (fuel : Nat) → σ → ParserM α
  | 0, _ => failure
  | fuel + 1, state => do
    match ← step state with
    | .inl next => iterate step fuel next
    | .inr result => return result

/-- Repeats a step each of whose rounds but the last reads a token. There are no more rounds than
characters in the source, one that may be pushed back, and the last. -/
def loop (state : σ) (step : σ → ParserM (σ ⊕ α)) : ParserM α := do
  iterate step ((← get).size + 2) state

/-! ## The session -/

/-- Runs a step of the session. -/
def inSession (step : SessionM α) : ParserM α :=
  modifyGet fun p =>
    let (value, session) := step.run p.session
    (value, { p with session })

/-- Takes a checked value and makes its reports. -/
def check (x : Checked α) : ParserM α := inSession (SessionM.check x)

/-- The dialect in force. -/
def dialect : ParserM Dialect := return (← get).session.dialect

/-- Reports an issue, unless a fatal one has been reported. -/
def report (span : Span) (issue : Issue) : ParserM Unit := do
  if !(← get).fatal then inSession (SessionM.report span issue)

/-- Reports an issue after which nothing more is reported. -/
def reportFatal (span : Span) (issue : Issue) : ParserM Unit := do
  report span issue
  modify fun p => { p with fatal := true }

/-- Runs a step with a scope of its own. -/
def inScope (step : ParserM α) : ParserM α := do
  inSession (SessionM.modifySymbols SymbolTable.push)
  ensuring step fun p => { p with session.symbols := p.session.symbols.pop }

/-! ## Tokens -/

/-- Pushes a token back. -/
def pushBack (token : Token) : ParserM Unit := modify fun p => { p with pushback := some token }

/-- Takes the token that was pushed back, if there is one. -/
def takePushback : ParserM (Option Token) :=
  modifyGet fun p => (p.pushback, { p with pushback := none })

/-- The next token, trivia included. -/
def nextRawToken : ParserM Token := do
  match ← takePushback with
  | some token => return token
  | none => modifyGet fun p =>
    let (token, lexer) := p.lexer.next
    (token, { p with lexer })

/-- The token may not be used in this session. -/
def isForbidden (token : Token) (allowsPrivate : Bool) : Bool :=
  match token.kind with
  | .reserved => true
  | .identifier | .kwPure => token.text.startsWith "$" && !allowsPrivate
  | _ => false

/-- The next token from the source that is not trivia. A word that may not be used is reported and
handed on as an identifier. -/
def freshToken : ParserM Token := do
  let token ← modifyGet fun p =>
    let (token, lexer) := p.lexer.nextSignificant
    (token, { p with lexer })
  if isForbidden token (← get).session.allowsPrivate then
    report token.span (.reservedWord token.text)
    return { token with kind := .identifier }
  else return token

/-- The next token that is not trivia. -/
def nextToken : ParserM Token := do
  match ← takePushback with
  | some token => if token.kind.isTrivia then freshToken else return token
  | none => freshToken

/-- The next token, left in place. -/
def peek : ParserM Token := do
  let token ← nextToken
  pushBack token
  return token

/-- The kind of the next token, left in place. -/
def peekKind : ParserM TokenKind := return (← peek).kind

/-- Takes the next token if it is of the given kind. -/
def accept? (kind : TokenKind) : ParserM (Option Token) := do
  let token ← peek
  if token.kind == kind then
    modify fun p => { p with pushback := none }
    return some token
  else return none

/-- The next token is of the given kind and has been taken. -/
def accepts (kind : TokenKind) : ParserM Bool := return (← accept? kind).isSome

/-- Takes the next token, which has to be the wanted one; otherwise it is reported and left in
place. -/
def expect (wanted : Wanted) : ParserM Token := do
  let token ← nextToken
  if token.kind == wanted.kind then return token
  else
    report token.span (.expected wanted.text token.quoted)
    pushBack token
    failure

/-- Takes an identifier that does not name a type. Without one there is no going on. -/
def expectName : ParserM Token := do
  let token ← nextToken
  if token.kind != .identifier then
    reportFatal token.span (.expected "an identifier" token.quoted)
    pushBack token
    failure
  else if (← get).session.symbols.isType token.text then
    reportFatal token.span (.expected "an identifier" s!"type '{token.text}'")
    failure
  else return token

/-- The next token spells a word. -/
def isWord (token : Token) (word : String) : Bool := token.kind == .identifier && token.text == word

/-! ## Nesting -/

/-- Counts one more level of nesting and fails past the limit. -/
def enter : ParserM Unit := do
  modify fun p => { p with depth := p.depth + 1 }
  if Parser.maxDepth < (← get).depth then
    reportFatal (← peek).span .nestedTooDeep
    failure

/-- Runs a step and restores the level of nesting. -/
def nested (step : ParserM α) : ParserM α := do
  let depth := (← get).depth
  ensuring step fun p => { p with depth }

/-! ## Backtracking -/

/-- Runs a step; if it fails, everything is as before: tokens, nesting and reports. -/
def speculate (step : ParserM α) : ParserM (Option α) := do
  let before ← get
  modify fun p => { p with session.sink := p.session.sink.beginBuffer }
  match ← attempt step with
  | some result =>
    modify fun p => { p with session.sink := p.session.sink.commitBuffer }
    return some result
  | none =>
    modify fun p =>
      { p with
        lexer := before.lexer
        pushback := before.pushback
        depth := before.depth
        fatal := before.fatal
        session.sink := p.session.sink.discardBuffer }
    return none

end ParserM

end RasterShader
