import RasterShader.Grammar.Expression

/-!
# The grammar of modifiers, types and declared names
-/

namespace RasterShader

namespace Grammar

open ParserM

/-- The decimal number a text of digits stands for, up to a bound. Other texts stand for none. -/
def boundedDecimal? (bound : Nat) (text : String) : Option Nat :=
  let digits := text.toList
  if digits.isEmpty || !digits.all Char.isDigit then none
  else
    let value := DecimalText.digitsValue digits
    if value ≤ bound then some value else none

/-! ## Modifiers -/

/-- Adds one qualifier to a layout. A repeated or unknown one is reported and left out. -/
def layoutQualifier (layout : Layout) (key : Token) : ParserM Layout := do
  match LayoutQualifier.ofName? key.text with
  | none =>
    report key.span (.unknownQualifier key.text)
    return layout
  | some (.flag flag) =>
    if layout.hasFlag flag then
      report key.span (.repeatedQualifier key.text)
      return layout
    else return { layout with flags := layout.flags ++ [flag] }
  | some (.value layoutKey) =>
    let _ ← expect .equals
    let token ← expect .integer
    match boundedDecimal? 2147483647 token.text with
    | none =>
      report token.span (.layoutValueTooLarge token.text)
      failure
    | some value =>
      if (layout.get? layoutKey).isSome then
        report key.span (.repeatedQualifier key.text)
        return layout
      else return { layout with values := layout.values ++ [(layoutKey, (value : Int))] }

/-- The qualifiers of a layout, from its keyword on. What was read before an error counts. -/
def layoutQualifiers (layout : Layout) : ParserM Layout := do
  let _ ← nextToken
  match ← attempt (expect .leftParen) with
  | none => return layout
  | some _ =>
    loop layout fun layout => do
      let key ← nextToken
      match ← attempt (layoutQualifier layout key) with
      | none => return .inr layout
      | some layout =>
        if ← accepts .rightParen then return .inr layout
        match ← attempt (expect .comma) with
        | none => return .inr layout
        | some _ => return .inl layout

/-- The keywords a token adds. Precision qualifiers add none. -/
def modifierFlags? : TokenKind → Option ModifierFlags
  | .kwUniform => some .uniform
  | .kwConst => some .const
  | .kwIn => some .input
  | .kwOut => some .output
  | .kwInout => some (.input ||| .output)
  | .kwFlat => some .flat
  | .kwNoperspective => some .noperspective
  | .kwInline => some .inline
  | .kwNoinline => some .noinline
  | .kwPure => some .pure
  | .kwWorkgroup => some .workgroup
  | .kwReadonly => some .readonly
  | .kwWriteonly => some .writeonly
  | .kwBuffer => some .buffer
  | .kwHighp | .kwMediump | .kwLowp => some .none
  | _ => none

/-- The modifiers before a declaration, possibly none. -/
def modifiers : ParserM Modifiers := do
  let first ← peek
  loop (Modifiers.mk .empty .none (.point first.offset)) fun found => do
    let token ← peek
    if token.kind == .kwLayout then
      let layout ← layoutQualifiers found.layout
      return .inl { found with layout, span.stop := max found.span.stop token.stop }
    else
      match modifierFlags? token.kind with
      | none => return .inr found
      | some flags =>
        let _ ← nextToken
        if found.flags.intersects flags then report token.span (.repeatedModifier token.text)
        return .inl { found with flags := found.flags ||| flags, span.stop := token.stop }

/-! ## Types -/

/-- Sizes in brackets after a type or a declared name. -/
def arraySuffix (base : Ty) : ParserM Ty := do
  let kind := (← dialect).kind
  loop base fun ty => do
    match ← accept? .leftBracket with
    | none => return .inr ty
    | some opening =>
      match ← accept? .rightBracket with
      | some close =>
        return .inl (← check (Typing.arrayType kind (opening.spanTo close) ty none))
      | none =>
        let size ← expression
        let close ← expect .rightBracket
        return .inl (← check (Typing.arrayType kind (opening.spanTo close) ty (some size)))

/-- The name of a type with its array sizes. -/
def type : ParserM Ty := do
  let token ← expect .typeName
  match (← get).session.symbols.lookupType? token.text with
  | some ty => arraySuffix ty
  | none =>
    report token.span (.unknownType token.text)
    failure

/-! ## Declared names -/

/-- The start of a variable declaration. -/
structure DeclarationStart where
  modifiers : Modifiers
  ty : Ty
  name : Token

/-- Modifiers, a type and a name. -/
def declarationStart : ParserM DeclarationStart := do
  let modifiers ← modifiers
  let ty ← type
  let name ← expectName
  return ⟨modifiers, ty, name⟩

/-- How a variable is declared, by its place, modifiers, type, name and initializer. -/
abbrev Declare (α : Type) := Span → Modifiers → Ty → String → Option Expr → SessionM α

/-- The rest of a variable declaration: sizes and initializers of the names up to the semicolon.
Each name is declared as soon as it has been read. -/
def declarators {α : Type} (start : DeclarationStart) (declare : Declare α) :
    ParserM (List α) := do
  let found ← loop (start.name, ([] : List α)) fun (name, found) => do
    let ty ← arraySuffix start.ty
    let span := start.modifiers.span.join name.span
    let value ← if ← accepts .assign then some <$> assignment else pure none
    let span := (value.map fun e => span.join e.span).getD span
    let found := found ++ [← inSession (declare span start.modifiers ty name.text value)]
    if ← accepts .comma then return .inl (← expectName, found) else return .inr found
  let _ ← expect .semicolon
  return found

end Grammar

end RasterShader
