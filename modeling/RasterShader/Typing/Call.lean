import RasterShader.Typing.Coerce

/-!
# Type checking of calls

The overload with the least total conversion cost is called, and among equals the one declared
last, which stands first. A placeholder in a signature is resolved by the first argument that
meets one; every later placeholder, the return type included, takes the member at the same place.
-/

namespace RasterShader

namespace Typing

/-- The place of the least cost in a list, the first of equals. -/
def leastCost? (costs : List (Option Nat)) : Option Nat :=
  let candidates := (costs.zipIdx).filterMap fun (cost, i) => cost.map (·, i)
  let best := candidates.foldl (fun best c =>
    match best with
    | none => some c
    | some b => if c.1 < b.1 then some c else best) none
  best.map (·.2)

/-- The place among a placeholder's members that an argument converts to most cheaply. -/
def memberFor? (ty : Ty) (argument : Expr) : Option Nat :=
  leastCost? (ty.members.map (argument.coercionCost ·))

/-- A signature with its placeholders resolved. -/
structure Signature where
  parameters : List Ty
  returns : Ty
deriving Inhabited

/-- Resolves parameter types from left to right; `chosen` is the place among the members, once an
argument has settled it. -/
def resolveParameters (chosen : Option Nat) :
    List (Variable × Expr) → Option (List Ty × Option Nat)
  | [] => some ([], chosen)
  | (parameter, argument) :: rest =>
    if parameter.ty.isGeneric then do
      let place ← chosen <|> memberFor? parameter.ty argument
      let ty ← parameter.ty.members[place]?
      let (others, chosen) ← resolveParameters (some place) rest
      return (ty :: others, chosen)
    else do
      let (others, chosen) ← resolveParameters chosen rest
      return (parameter.ty :: others, chosen)

/-- The signature of a function when called with given arguments. -/
def resolveSignature? (f : FunctionDecl) (arguments : List Expr) : Option Signature := do
  let (parameters, chosen) ← resolveParameters none (f.parameters.zip arguments)
  let returns ←
    if f.returnType.isGeneric then do f.returnType.members[← chosen]? else some f.returnType
  return ⟨parameters, returns⟩

/-- Cost of passing an argument. What is passed to an `out` parameter has exactly its type. -/
def argumentCost? (parameter : Variable) (ty : Ty) (argument : Expr) : Option Nat :=
  if parameter.modifiers.isOut then
    if argument.ty.same ty then some 0 else none
  else argument.coercionCost ty

/-- Total conversion cost of a call. -/
def callCost? (f : FunctionDecl) (arguments : List Expr) : Option Nat := do
  if f.parameters.length != arguments.length then none
  let signature ← resolveSignature? f arguments
  let costs ← ((f.parameters.zip signature.parameters).zip arguments).mapM
    fun ((parameter, ty), argument) => argumentCost? parameter ty argument
  return costs.foldr (· + ·) 0

/-- Checks an argument against its parameter. -/
def passArgument (parameter : Variable) (ty : Ty) (argument : Expr) : Checked (Option Expr) := do
  if parameter.modifiers.isOut then
    if !argument.ty.same ty then .refuse argument.span (.wrongType ty argument.ty) none
    else argument.markAssigned .pointer
  else
    let converted ← argument.coerce ty
    return if converted.isPoison then none else some converted

/-- Checks arguments against parameters from left to right, up to the first that does not fit. -/
def passArguments : List ((Variable × Ty) × Expr) → Checked (Option (List Expr))
  | [] => pure (some [])
  | ((parameter, ty), argument) :: rest => do
    match ← passArgument parameter ty argument with
    | none => return none
    | some first => return (← passArguments rest).map (first :: ·)

/-- Checks a call of one function. -/
def callFunction (span : Span) (f : FunctionDecl) (arguments : List Expr) : Checked Expr := do
  if f.parameters.length != arguments.length then
    .refuse span (.argumentCount f.name f.parameters.length arguments.length) (.poison span)
  else if f.isMain && !f.builtin then .refuse span .callToMain (.poison span)
  else
    match resolveSignature? f arguments with
    | none => .refuse span (.noOverload f.name (arguments.map Expr.ty)) (.poison span)
    | some signature =>
      match ← passArguments ((f.parameters.zip signature.parameters).zip arguments) with
      | none => return .poison span
      | some converted => return .call ⟨span, signature.returns⟩ f converted

/-- Checks a call by name, choosing among overloads. -/
def call (span : Span) (overloads : List FunctionDecl) (arguments : List Expr) : Checked Expr :=
  if Expr.anyPoison arguments then pure (.poison span)
  else
    match overloads with
    | [f] => callFunction span f arguments
    | overloads =>
      match leastCost? (overloads.map (callCost? · arguments)) >>= (overloads[·]?) with
      | some f => callFunction span f arguments
      | none =>
        let name := (overloads.head?.map FunctionDecl.name).getD ""
        .refuse span (.noOverload name (arguments.map Expr.ty)) (.poison span)

/-- Parameter types by which a child effect is evaluated. -/
def childParameters : EffectKind → List Ty
  | .shader => [.float2]
  | .colorFilter => [.half4]
  | .blender => [.half4, .half4]

/-- Checks the evaluation of a child effect. -/
def callChild (span : Span) (kind : EffectKind) (child : Expr) (arguments : List Expr) :
    Checked Expr := do
  let parameters := childParameters kind
  match child with
  | .reference _ v _ _ =>
    if parameters.length != arguments.length then
      .refuse span (.argumentCount "eval" parameters.length arguments.length) (.poison span)
    else
      let converted ← Expr.coerceAll arguments parameters
      if Expr.anyPoison converted then return .poison span
      return .childCall ⟨span, .half4⟩ v converted
  | _ => .refuse span .indirectChild (.poison span)

/-- Checks `base.name(arguments)`: `eval` of a child effect, or `length` of an array. -/
def callMethod (span : Span) (base : Expr) (name : String) (arguments : List Expr) :
    Checked Expr :=
  let missing : Checked Expr := .refuse span (.noMethod base.ty name) (.poison span)
  if base.isPoison || Expr.anyPoison arguments then pure (.poison span)
  else
    match base.ty, name with
    | .effect kind, "eval" => callChild span kind base arguments
    | .array _ (some n), "length" =>
      if arguments.isEmpty then pure (.literal ⟨span, .int⟩ (Float.ofNat n)) else missing
    | _, _ => missing

end Typing

end RasterShader
