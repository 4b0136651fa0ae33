import RasterShader.Modifiers

/-!
# Types

Scalars, vectors, matrices, arrays, structs, handles of child effects, and the generic
placeholders that occur in built-in signatures. Types are compared by name (`Ty.same`): a
declaration introduces a name once, and the name of every other type spells out its structure.

A value of a type occupies `Ty.slotCount` scalar slots, a struct's fields one after the other.
-/

namespace RasterShader

/-- How a scalar slot is read. -/
inductive NumberKind where
  | float
  | signed
  | unsigned
  | boolean
  | nonnumeric
deriving DecidableEq, Repr, Inhabited

/-- Scalar types. -/
inductive Scalar where
  | float
  | half
  | int
  | uint
  | short
  | ushort
  | bool
deriving DecidableEq, Repr, Inhabited

namespace Scalar

/-- The name of a scalar type. -/
def name : Scalar → String
  | float => "float"
  | half => "half"
  | int => "int"
  | uint => "uint"
  | short => "short"
  | ushort => "ushort"
  | bool => "bool"

/-- How values of a scalar type are read. -/
def kind : Scalar → NumberKind
  | float | half => .float
  | int | short => .signed
  | uint | ushort => .unsigned
  | bool => .boolean

/-- Scalars of less than full precision. -/
def isLowPrecision : Scalar → Bool
  | half | short | ushort => true
  | _ => false

/-- Scalars that matrices are made of. -/
def hasMatrices : Scalar → Bool
  | float | half => true
  | _ => false

end Scalar

/-- Sorts of child effects. -/
inductive EffectKind where
  | shader
  | colorFilter
  | blender
deriving DecidableEq, Repr, Inhabited

/-- The type name of a sort of child effect. -/
def EffectKind.name : EffectKind → String
  | shader => "shader"
  | colorFilter => "colorFilter"
  | blender => "blender"

/-- Placeholder types of built-in signatures. -/
inductive Generic where
  | genType
  | genHType
  | genIType
  | genUType
  | genBType
  | vec
  | hvec
  | ivec
  | uvec
  | bvec
  | mat
  | hmat
  | squareMat
  | squareHMat
deriving DecidableEq, Repr, Inhabited

namespace Generic

/-- The name of a placeholder. -/
def name : Generic → String
  | genType => "$genType"
  | genHType => "$genHType"
  | genIType => "$genIType"
  | genUType => "$genUType"
  | genBType => "$genBType"
  | vec => "$vec"
  | hvec => "$hvec"
  | ivec => "$ivec"
  | uvec => "$uvec"
  | bvec => "$bvec"
  | mat => "$mat"
  | hmat => "$hmat"
  | squareMat => "$squareMat"
  | squareHMat => "$squareHMat"

/-- Every placeholder. -/
def all : List Generic :=
  [genType, genHType, genIType, genUType, genBType, vec, hvec, ivec, uvec, bvec, mat, hmat,
    squareMat, squareHMat]

end Generic

/-- A named member of a struct or interface block. -/
structure FieldOf (τ : Type) where
  name : String
  ty : τ
  modifiers : Modifiers
  span : Span
deriving Repr, Inhabited

/-- Types of the language. -/
inductive Ty where
  | void
  | scalar (scalar : Scalar)
  | vector (scalar : Scalar) (columns : Nat)
  | matrix (scalar : Scalar) (columns rows : Nat)
  /-- An array, unsized when there is no count. -/
  | array (element : Ty) (count : Option Nat)
  | struct (name : String) (fields : List (FieldOf Ty)) (isBlock : Bool)
  | effect (kind : EffectKind)
  | generic (generic : Generic)
  /-- The type of an expression that failed to type-check. -/
  | poison
deriving Repr, Inhabited

/-- Fields of a struct. -/
abbrev Field := FieldOf Ty

namespace Ty

/-- The name of a type. -/
def name : Ty → String
  | void => "void"
  | scalar s => s.name
  | vector s columns => s!"{s.name}{columns}"
  | matrix s columns rows => s!"{s.name}{columns}x{rows}"
  | array element (some n) => s!"{element.name}[{n}]"
  | array element none => s!"{element.name}[]"
  | struct name _ _ => name
  | effect kind => kind.name
  | generic g => g.name
  | poison => "<POISON>"

/-- Types are the same when they have the same name. -/
def same (a b : Ty) : Bool := a.name == b.name

/-- The type `bool`. -/
def bool : Ty := scalar .bool
/-- The type `int`. -/
def int : Ty := scalar .int
/-- The type `uint`. -/
def uint : Ty := scalar .uint
/-- The type `float`. -/
def float : Ty := scalar .float
/-- The type `float2`. -/
def float2 : Ty := vector .float 2
/-- The type `half4`. -/
def half4 : Ty := vector .half 4

/-! ## Sorts of types -/

/-- The type `void`. -/
def isVoid : Ty → Bool
  | void => true
  | _ => false

/-- Scalar types. -/
def isScalar : Ty → Bool
  | scalar _ => true
  | _ => false

/-- Vector types. -/
def isVector : Ty → Bool
  | vector .. => true
  | _ => false

/-- Matrix types. -/
def isMatrix : Ty → Bool
  | matrix .. => true
  | _ => false

/-- Scalars, vectors and matrices. -/
def isShaped : Ty → Bool
  | scalar _ | vector .. | matrix .. => true
  | _ => false

/-- Array types. -/
def isArray : Ty → Bool
  | array .. => true
  | _ => false

/-- Arrays without a count. -/
def isUnsizedArray : Ty → Bool
  | array _ none => true
  | _ => false

/-- Structs and interface blocks. -/
def isStruct : Ty → Bool
  | struct .. => true
  | _ => false

/-- Interface blocks. -/
def isInterfaceBlock : Ty → Bool
  | struct _ _ isBlock => isBlock
  | _ => false

/-- Handles of child effects. -/
def isEffect : Ty → Bool
  | effect _ => true
  | _ => false

/-- Placeholders. -/
def isGeneric : Ty → Bool
  | generic _ => true
  | _ => false

/-- The type of failed expressions. -/
def isPoison : Ty → Bool
  | poison => true
  | _ => false

/-- The sort of child effect. -/
def effectKind? : Ty → Option EffectKind
  | effect kind => some kind
  | _ => none

/-! ## Components -/

/-- The scalar of a scalar, vector or matrix; the element of an array; otherwise the type
itself. -/
def component : Ty → Ty
  | vector s _ => scalar s
  | matrix s _ _ => scalar s
  | array element _ => element
  | ty => ty

/-- How the slots of a scalar, vector or matrix are read. -/
def numberKind : Ty → NumberKind
  | scalar s => s.kind
  | vector s _ => s.kind
  | matrix s _ _ => s.kind
  | _ => .nonnumeric

/-- Made of floats. -/
def isFloat (ty : Ty) : Bool := ty.numberKind == .float

/-- Made of signed integers. -/
def isSigned (ty : Ty) : Bool := ty.numberKind == .signed

/-- Made of unsigned integers. -/
def isUnsigned (ty : Ty) : Bool := ty.numberKind == .unsigned

/-- Made of integers. -/
def isInteger (ty : Ty) : Bool := ty.isSigned || ty.isUnsigned

/-- Made of booleans. -/
def isBoolean (ty : Ty) : Bool := ty.numberKind == .boolean

/-- Made of numbers. -/
def isNumber (ty : Ty) : Bool := ty.isFloat || ty.isInteger

/-- Columns of a vector or matrix, the count of an array, and 1 for scalars. -/
def columns : Ty → Nat
  | scalar _ => 1
  | vector _ columns => columns
  | matrix _ columns _ => columns
  | array _ count => count.getD 0
  | _ => 0

/-- Rows of a matrix, and 1 for scalars and vectors. -/
def rows : Ty → Nat
  | matrix _ _ rows => rows
  | scalar _ | vector .. => 1
  | _ => 0

/-- The count of a sized array. -/
def arraySize? : Ty → Option Nat
  | array _ count => count
  | _ => none

/-- The members of a struct. -/
def fields : Ty → List Field
  | struct _ fields _ => fields
  | _ => []

/-! ## Structure -/

mutual

/-- Number of scalar slots a value occupies. -/
def slotCount : Ty → Nat
  | scalar _ => 1
  | vector _ columns => columns
  | matrix _ columns rows => columns * rows
  | array element count => element.slotCount * count.getD 0
  | struct _ fields _ => slotCounts fields
  | void | effect _ | generic _ | poison => 0

/-- Number of slots of a list of fields. -/
def slotCounts : List (FieldOf Ty) → Nat
  | [] => 0
  | ⟨_, ty, _, _⟩ :: rest => ty.slotCount + slotCounts rest

end

/-- Slots of a struct before the field with a given index. -/
def fieldSlotOffset (ty : Ty) (index : Nat) : Nat := slotCounts (ty.fields.take index)

mutual

/-- An array, or a struct with an array somewhere in it. -/
def hasArray : Ty → Bool
  | array .. => true
  | struct _ fields _ => anyHasArray fields
  | _ => false

/-- Some field has an array. -/
def anyHasArray : List (FieldOf Ty) → Bool
  | [] => false
  | ⟨_, ty, _, _⟩ :: rest => ty.hasArray || anyHasArray rest

end

mutual

/-- A child effect, or an array or struct with one somewhere in it. -/
def hasEffect : Ty → Bool
  | effect _ => true
  | array element _ => element.hasEffect
  | struct _ fields _ => anyHasEffect fields
  | _ => false

/-- Some field has a child effect. -/
def anyHasEffect : List (FieldOf Ty) → Bool
  | [] => false
  | ⟨_, ty, _, _⟩ :: rest => ty.hasEffect || anyHasEffect rest

end

mutual

/-- A boolean, or an array or struct with one somewhere in it. -/
def hasBoolean : Ty → Bool
  | array element _ => element.hasBoolean
  | struct _ fields _ => anyHasBoolean fields
  | ty => ty.isBoolean

/-- Some field has a boolean. -/
def anyHasBoolean : List (FieldOf Ty) → Bool
  | [] => false
  | ⟨_, ty, _, _⟩ :: rest => ty.hasBoolean || anyHasBoolean rest

end

mutual

/-- Depth of struct nesting, counting the type itself. -/
def nesting : Ty → Nat
  | struct _ fields _ => 1 + maxNesting fields
  | array element _ => element.nesting
  | _ => 0

/-- The deepest nesting among fields. -/
def maxNesting : List (FieldOf Ty) → Nat
  | [] => 0
  | ⟨_, ty, _, _⟩ :: rest => max ty.nesting (maxNesting rest)

end

/-- Values of the type may be compared for equality and assigned as a whole. -/
def supportsEquality (ty : Ty) : Bool := !ty.isVoid && !ty.hasEffect && !ty.isUnsizedArray

/-- Placeholders, whose names start with a dollar sign, are for built-in modules only. -/
def isPrivate (ty : Ty) : Bool := ty.name.startsWith "$"

end Ty

end RasterShader
