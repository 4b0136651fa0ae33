import RasterShader.Grammar.Statement

/-!
# The grammar of programs

A program is a sequence of directives and declarations. After an error in one of them the next is
tried, unless the error was fatal.
-/

namespace RasterShader

namespace Grammar

open ParserM

/-! ## Directives -/

/-- The version a number stands for. -/
def versionOf? : String → Option Version
  | "100" => some .v100
  | "300" => some .v300
  | _ => none

/-- The rest of a version directive. The smaller version restricts the rest of the program. -/
def versionDirective (directive : Token) : ParserM Unit := do
  let number ← expect .versionNumber
  let span := directive.spanTo number
  match versionOf? number.text with
  | none => report span (.unknownVersion number.text)
  | some version =>
    if (← dialect).settings.maxVersion.number < version.number then
      report span (.versionNotAllowed number.text)
    else
      if isWord (← peek) "es" then
        let _ ← nextToken
      if version == .v100 then
        modify fun p => { p with session.dialect.settings.enforceEs2 := true }

/-- The token ends a line. -/
def endsLine (token : Token) : Bool :=
  match token.kind with
  | .endOfFile | .lineComment => true
  | .whitespace => token.text.contains '\n' || token.text.contains '\r'
  | _ => false

/-- The rest of an extension directive, which ends with its line. -/
def extensionDirective (directive : Token) : ParserM Unit := do
  let name ← expect .identifier
  let _ ← expect .colon
  let behavior ← expect .identifier
  let after ← nextRawToken
  pushBack after
  if endsLine after then
    inSession (SessionM.addElement
      (.extension (directive.spanTo behavior) name.text behavior.text))
  else report after.span .malformedExtension

/-- A directive; `first` tells that nothing stands before it. -/
def directive (first : Bool) : ParserM Unit := do
  let token ← nextToken
  match token.text with
  | "#version" =>
    if !first then report token.span .lateVersion
    versionDirective token
  | "#extension" => extensionDirective token
  | other => report token.span (.unknownDirective other)

/-! ## Structs and interface blocks -/

/-- The names declared by one field declaration. -/
def fieldNames (modifiers : Modifiers) (base : Ty) (found : List Field) : ParserM (List Field) :=
  loop found fun found => do
    let name ← expectName
    let ty ← arraySuffix base
    if let some token ← accept? .assign then
      report token.span .fieldInitializer
      let _ ← assignment
    let found := found ++ [⟨name.text, ty, modifiers, modifiers.span.join name.span⟩]
    return if ← accepts .comma then .inl found else .inr found

/-- Fields through the closing brace. -/
def fields : ParserM (List Field × Token) :=
  loop [] fun found => do
    match ← accept? .rightBrace with
    | some close => return .inr (found, close)
    | none =>
      let modifiers ← modifiers
      let base ← type
      let found ← fieldNames modifiers base found
      let _ ← expect .semicolon
      return .inl found

/-- The definition of a struct. -/
def struct : ParserM Ty := nested do
  let start ← nextToken
  let name ← expectName
  let _ ← expect .leftBrace
  enter
  let (members, close) ← fields
  ofOption (← inSession (Typing.declareStruct (start.spanTo close) name.text members))

/-- The rest of a declaration of global variables. -/
def globalDeclarations (start : DeclarationStart) : ParserM Unit := do
  let _ ← declarators start Typing.declareGlobal

/-- The definition of a struct, possibly with variables of it. -/
def structDeclaration (modifiers : Modifiers) : ParserM Unit := do
  let ty ← struct
  match ← accept? .identifier with
  | some name => globalDeclarations ⟨modifiers, ty, name⟩
  | none =>
    let _ ← expect .semicolon

/-- The number of instances of an interface block, in brackets. -/
def instanceCount : ParserM (Option Nat) := do
  if ← accepts .leftBracket then
    let size ← expect .integer
    let _ ← expect .rightBracket
    match boundedDecimal? 4294967295 size.text with
    | some (n + 1) => return some (n + 1)
    | _ =>
      report size.span .sizeNotPositive
      failure
  else return none

/-- An interface block. A name that starts none is reported as an unknown type. -/
def interfaceBlock (modifiers : Modifiers) : ParserM Unit := do
  let typeName ← nextToken
  if !(← accepts .leftBrace) then
    report typeName.span (.noTypeNamed typeName.text)
    failure
  let (members, close) ← fields
  let span := modifiers.span.join (typeName.spanTo close)
  match ← accept? .identifier with
  | some name =>
    let count ← instanceCount
    let _ ← expect .semicolon
    inSession (Typing.declareBlock (span.join name.span) modifiers typeName.text members
      name.text count)
  | none =>
    let _ ← expect .semicolon
    inSession (Typing.declareBlock span modifiers typeName.text members "" none)

/-! ## Functions -/

/-- A parameter; nothing is left of one that is wrong. -/
def parameter : ParserM (Option Variable) := do
  let start ← declarationStart
  let ty ← arraySuffix start.ty
  inSession (Typing.parameter (start.modifiers.span.join start.name.span) start.modifiers ty
    start.name.text)

/-- Parameters up to the closing parenthesis. -/
def parameters : ParserM (List (Option Variable)) := do
  let token ← peek
  if isWord token "void" then
    let _ ← nextToken
    return []
  else if token.kind == .rightParen then return []
  else
    loop [] fun found => do
      let found := found ++ [← parameter]
      return if ← accepts .comma then .inl found else .inr found

/-- The body of a declared function. -/
def functionBody (decl : FunctionDecl) : ParserM Unit := do
  inSession (Typing.openFunction decl)
  match ← attempt (block statement) with
  | some body => inSession (Typing.finishFunction decl body)
  | none => inSession Typing.closeFunction

/-- The body of a function whose declaration failed, read without reporting anything. -/
def skippedBody : ParserM Unit := do
  modify fun p => { p with session.sink := p.session.sink.beginBuffer }
  let _ ← attempt (inScope (block statement))
  modify fun p => { p with session.sink := p.session.sink.discardBuffer }

/-- A function from its parameters on: a prototype or a definition. -/
def function (modifiers : Modifiers) (returns : Ty) (name : Token) : ParserM Unit := do
  let found ← parameters
  let close ← expect .rightParen
  let isDefinition := (← peekKind) != .semicolon
  let span := modifiers.span.join (name.spanTo close)
  let decl ←
    if found.all Option.isSome then
      inSession (Typing.declareFunction span modifiers returns name.text
        (found.filterMap id) isDefinition)
    else pure none
  if ← accepts .semicolon then
    if let some decl := decl then inSession (SessionM.addElement (.prototype decl))
  else
    match decl with
    | some decl => functionBody decl
    | none => skippedBody

/-! ## Declarations -/

/-- A type, a name, and then a function or variables. -/
def typedDeclaration (modifiers : Modifiers) : ParserM Unit := do
  let ty ← type
  let name ← expectName
  if ← accepts .leftParen then function modifiers ty name
  else globalDeclarations ⟨modifiers, ty, name⟩

/-- A declaration. -/
def declaration : ParserM Unit := do
  let token ← peek
  if token.kind == .semicolon then
    let _ ← nextToken
    report token.span (.expected "a declaration" "';'")
    failure
  let modifiers ← modifiers
  let token ← peek
  match token.kind with
  | .identifier =>
    if (← get).session.symbols.isType token.text then typedDeclaration modifiers
    else interfaceBlock modifiers
  | .kwStruct => structDeclaration modifiers
  | .semicolon =>
    -- Modifiers on their own declare nothing.
    if modifiers.layout.isEmpty && modifiers.flags.isEmpty then typedDeclaration modifiers
    else
      let _ ← nextToken
  | _ => typedDeclaration modifiers

/-- Directives and declarations to the end of the text. -/
def declarations : ParserM Unit :=
  loop true fun first => do
    let token ← peek
    match token.kind with
    | .endOfFile => return .inr ()
    | .invalid =>
      report token.span .invalidToken
      return .inr ()
    | .directive =>
      let _ ← attempt (directive first)
      return .inl false
    | _ =>
      let before := (← get).cursor
      let _ ← attempt declaration
      if (← get).fatal then return .inr ()
      if (← get).cursor == before then
        let _ ← nextToken
      return .inl false

end Grammar

/-- Reads the characters of a source text into a session. -/
def Session.readChars (session : Session) (source : List Char) : Session :=
  (Grammar.declarations.run.run (.start source session)).2.session

/-- Reads a source text into a session, unless it is too long. -/
def Session.read (session : Session) (source : String) : Session :=
  if Parser.maxSourceLength < source.utf8ByteSize then
    ((SessionM.report (.point 0) .programTooLarge).run session).2
  else session.readChars source.toList

end RasterShader
