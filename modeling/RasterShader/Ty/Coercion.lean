import RasterShader.Ty.Basic

/-!
# Implicit conversions between types

Values convert implicitly between types of the same shape: between precisions of one number kind
at cost 1 and from integers to floats at cost 2. A placeholder accepts what one of its members
accepts, at the least cost.
-/

namespace RasterShader

namespace Ty

/-- The vector of a component type with 2 to 4 columns. -/
def vector? (component : Ty) (columns : Nat) : Option Ty :=
  match component with
  | scalar s => if 2 ≤ columns && columns ≤ 4 then some (vector s columns) else none
  | _ => none

/-- The matrix of a component type with 2 to 4 columns and rows. -/
def matrix? (component : Ty) (columns rows : Nat) : Option Ty :=
  match component with
  | scalar s =>
    if s.hasMatrices && 2 ≤ columns && columns ≤ 4 && 2 ≤ rows && rows ≤ 4 then
      some (matrix s columns rows)
    else none
  | _ => none

/-- The vector or matrix with the given dimensions over a type's component. -/
def toCompound? (ty : Ty) (columns rows : Nat) : Option Ty :=
  if 1 < rows then ty.component.matrix? columns rows
  else if columns = 1 then some ty.component
  else ty.component.vector? columns

/-- Both are scalars, vectors or matrices with the same columns and rows. -/
def sameShape (a b : Ty) : Bool :=
  a.isShaped && b.isShaped && a.isMatrix == b.isMatrix && a.columns == b.columns &&
    a.rows == b.rows

end Ty

/-- A scalar followed by its vectors of 2, 3 and 4 columns. -/
def Scalar.family (s : Scalar) : List Ty := .scalar s :: [2, 3, 4].map (.vector s ·)

/-- The vectors of a scalar. -/
def Scalar.vectors (s : Scalar) : List Ty := [2, 3, 4].map (.vector s ·)

/-- The matrices of a scalar, by columns and then rows. -/
def Scalar.matrices (s : Scalar) : List Ty :=
  [2, 3, 4].flatMap fun columns => [2, 3, 4].map fun rows => .matrix s columns rows

/-- The square matrices of a scalar. -/
def Scalar.squareMatrices (s : Scalar) : List Ty := [2, 3, 4].map fun n => .matrix s n n

/-- The types a placeholder stands for, in the order by which they are matched up. -/
def Generic.members : Generic → List Ty
  | genType => Scalar.float.family
  | genHType => Scalar.half.family
  | genIType => Scalar.int.family
  | genUType => Scalar.uint.family
  | genBType => Scalar.bool.family
  | vec => Scalar.float.vectors
  | hvec => Scalar.half.vectors
  | ivec => Scalar.int.vectors
  | uvec => Scalar.uint.vectors
  | bvec => Scalar.bool.vectors
  | mat => Scalar.float.matrices
  | hmat => Scalar.half.matrices
  | squareMat => Scalar.float.squareMatrices
  | squareHMat => Scalar.half.squareMatrices

/-- The members of a placeholder; other types have none. -/
def Ty.members : Ty → List Ty
  | .generic g => g.members
  | _ => []

namespace Ty

/-- Cost of an implicit conversion between types neither of which is a placeholder. -/
def plainCoercionCost (a b : Ty) : Option Nat :=
  if a.same b then some 0
  else if !a.sameShape b then none
  else
    match a.numberKind, b.numberKind with
    | .signed, .float | .unsigned, .float => some 2
    | ka, kb => if ka == kb then some 1 else none

/-- Cost of converting a value of the first type implicitly to the second, if that is
possible. -/
def coercionCost (a b : Ty) : Option Nat :=
  if a.same b then some 0
  else
    match b with
    | generic g => (g.members.filterMap (a.plainCoercionCost ·)).min?
    | _ => a.plainCoercionCost b

end Ty

end RasterShader
