import RasterShader.Arithmetic.Double
import RasterShader.Decimal.Shortest
import RasterShader.Ir.Declaration
import RasterShader.Operator

/-!
# Expressions

Type-checked expressions. Every node carries its place and its type (`Expr.Head`). A reference to a
variable also carries the initializer of that variable when it is `const`, so that the value of a
constant expression is a function of the expression alone.

`Expr.text` writes an expression as source text, with parentheses where an operand binds more
loosely than its context.
-/

namespace RasterShader

/-- How a reference uses its variable. -/
inductive RefKind where
  | read
  | write
  | readWrite
  /-- Passed to an `out` parameter; the callee writes it. -/
  | pointer
deriving DecidableEq, Repr, Inhabited

/-- Constructors that convert one operand. -/
inductive Conversion where
  /-- To another number kind or precision, with the same shape. -/
  | cast
  /-- A scalar repeated in every component of a vector. -/
  | splat
  /-- A scalar on the diagonal of a matrix. -/
  | diagonal
  /-- A matrix cut or extended to other dimensions. -/
  | resize
deriving DecidableEq, Repr, Inhabited

/-- Constructors that assemble a value from parts. -/
inductive Assembly where
  /-- A vector or matrix from scalars, vectors and matrices. -/
  | compound
  | array
  | struct
deriving DecidableEq, Repr, Inhabited

/-- Place and type of an expression. -/
structure Expr.Head where
  span : Span
  ty : Ty
deriving Inhabited

/-- Expressions. -/
inductive Expr where
  /-- Numbers and booleans. Integers are exact in a double; booleans are 0 and 1. -/
  | literal (head : Expr.Head) (value : Float)
  | reference (head : Expr.Head) (v : Variable) (init : Option Expr) (ref : RefKind)
  | binary (head : Expr.Head) (left : Expr) (op : Operator) (right : Expr)
  | prefixed (head : Expr.Head) (op : Operator) (operand : Expr)
  | postfixed (head : Expr.Head) (op : Operator) (operand : Expr)
  | field (head : Expr.Head) (base : Expr) (index : Nat)
  | index (head : Expr.Head) (base : Expr) (index : Expr)
  /-- Components 0 to 3 of a scalar or vector. -/
  | swizzle (head : Expr.Head) (base : Expr) (components : List Nat)
  | ternary (head : Expr.Head) (test ifTrue ifFalse : Expr)
  | call (head : Expr.Head) (function : FunctionDecl) (arguments : List Expr)
  /-- Evaluation of a child effect. -/
  | childCall (head : Expr.Head) (child : Variable) (arguments : List Expr)
  | convert (head : Expr.Head) (conversion : Conversion) (operand : Expr)
  | assemble (head : Expr.Head) (assembly : Assembly) (parts : List Expr)
  /-- Stands for an expression that failed to type-check. -/
  | poison (span : Span)
deriving Inhabited

namespace Expr

/-- Place and type. -/
def head : Expr → Head
  | literal h _ | reference h .. | binary h .. | prefixed h .. | postfixed h .. | field h ..
  | index h .. | swizzle h .. | ternary h .. | call h .. | childCall h .. | convert h ..
  | assemble h .. => h
  | poison span => ⟨span, .poison⟩

/-- Place in the source. -/
def span (e : Expr) : Span := e.head.span

/-- Type of the value. -/
def ty (e : Expr) : Ty := e.head.ty

/-- The same expression at another place. -/
def withSpan (e : Expr) (span : Span) : Expr :=
  match e with
  | literal h v => literal { h with span } v
  | reference h v init ref => reference { h with span } v init ref
  | binary h l op r => binary { h with span } l op r
  | prefixed h op x => prefixed { h with span } op x
  | postfixed h op x => postfixed { h with span } op x
  | field h b i => field { h with span } b i
  | index h b i => index { h with span } b i
  | swizzle h b c => swizzle { h with span } b c
  | ternary h t a b => ternary { h with span } t a b
  | call h f args => call { h with span } f args
  | childCall h c args => childCall { h with span } c args
  | convert h k x => convert { h with span } k x
  | assemble h k xs => assemble { h with span } k xs
  | poison _ => poison span

/-- A boolean literal. -/
def boolean (span : Span) (value : Bool) : Expr :=
  literal ⟨span, .bool⟩ (if value then 1.0 else 0.0)

/-- A reference that reads a variable. -/
def ofVariable (span : Span) (v : Variable) (init : Option Expr) : Expr :=
  reference ⟨span, v.ty⟩ v init .read

/-- The value of a literal. -/
def literalValue? : Expr → Option Float
  | literal _ v => some v
  | _ => none

/-- A literal. -/
def isLiteral (e : Expr) : Bool := e.literalValue?.isSome

/-- A failed expression. -/
def isPoison : Expr → Bool
  | poison _ => true
  | _ => false

/-- A constructor call. -/
def isConstructor : Expr → Bool
  | convert .. | assemble .. => true
  | _ => false

/-- The variable that a reference, or a field, element or swizzle of one, belongs to. -/
def baseVariable? : Expr → Option Variable
  | reference _ v _ _ => some v
  | field _ base _ | index _ base _ | swizzle _ base _ => base.baseVariable?
  | _ => none

/-- Marks how the variable at the root is used. -/
def withRefKind (kind : RefKind) : Expr → Expr
  | reference h v init _ => reference h v init kind
  | field h base i => field h (base.withRefKind kind) i
  | index h base i => index h (base.withRefKind kind) i
  | swizzle h base c => swizzle h (base.withRefKind kind) c
  | e => e

/-! ## Text -/

/-- The letter of a component. -/
def componentLetter : Nat → Char
  | 0 => 'x'
  | 1 => 'y'
  | 2 => 'z'
  | _ => 'w'

/-- Text of a literal of the given type. -/
def literalTextOf (value : Float) (ty : Ty) : String :=
  if ty.isBoolean then if value != 0.0 then "true" else "false"
  else if ty.isFloat then literalText value
  else
    let digits := toString (Double.truncated value)
    if ty.isUnsigned then digits ++ "u" else digits

/-- Text in parentheses, if they are needed. -/
def parenthesized (needed : Bool) (text : String) : String :=
  if needed then "(" ++ text ++ ")" else text

mutual

/-- The expression as source text in a context of the given precedence. -/
def textAt (parent : Precedence) : Expr → String
  | literal h v =>
    let text := literalTextOf v h.ty
    parenthesized (text.startsWith "-" && parent.rank ≤ Precedence.prefixed.rank) text
  | reference _ v _ _ => v.name
  | binary _ left op right =>
    let p := op.precedence
    parenthesized (p.looserOrEqual parent)
      (textAt p left ++ " " ++ op.symbol ++ " " ++ textAt p right)
  | prefixed _ op operand =>
    parenthesized (Precedence.prefixed.looserOrEqual parent) (op.symbol ++ textAt .prefixed operand)
  | postfixed _ op operand =>
    parenthesized (Precedence.postfixed.looserOrEqual parent)
      (textAt .postfixed operand ++ op.symbol)
  | field _ base i =>
    textAt .postfixed base ++ "." ++ ((base.ty.fields[i]?.map FieldOf.name).getD "")
  | index _ base i => textAt .postfixed base ++ "[" ++ textAt .topLevel i ++ "]"
  | swizzle _ base components =>
    textAt .postfixed base ++ "." ++ String.ofList (components.map componentLetter)
  | ternary _ test ifTrue ifFalse =>
    parenthesized (Precedence.ternary.looserOrEqual parent)
      (textAt .ternary test ++ " ? " ++ textAt .ternary ifTrue ++ " : " ++
        textAt .ternary ifFalse)
  | call _ f args => f.name ++ "(" ++ String.intercalate ", " (textsAt args) ++ ")"
  | childCall _ child args =>
    child.name ++ ".eval(" ++ String.intercalate ", " (textsAt args) ++ ")"
  | convert h _ operand => h.ty.name ++ "(" ++ textAt .sequence operand ++ ")"
  | assemble h _ parts => h.ty.name ++ "(" ++ String.intercalate ", " (textsAt parts) ++ ")"
  | poison _ => "<POISON>"

/-- The arguments of a call as source text. -/
def textsAt : List Expr → List String
  | [] => []
  | e :: rest => textAt .sequence e :: textsAt rest

end

/-- The expression as source text. -/
def text (e : Expr) : String := e.textAt .topLevel

end Expr

end RasterShader
