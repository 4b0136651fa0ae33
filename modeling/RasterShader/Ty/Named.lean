import RasterShader.Ty.Coercion

/-!
# Names of built-in types

Every type that can be named without being declared, with the names it is known under.
-/

namespace RasterShader

/-- Each built-in type under its own name. -/
def Ty.builtins : List Ty :=
  [.void, .scalar .float, .scalar .half, .scalar .int, .scalar .uint, .scalar .short,
    .scalar .ushort, .scalar .bool, .effect .shader, .effect .colorFilter, .effect .blender] ++
  [Scalar.float, .half, .int, .uint, .short, .ushort, .bool].flatMap Scalar.vectors ++
  Scalar.float.matrices ++ Scalar.half.matrices ++ Generic.all.map .generic

/-- Second names of vectors and matrices. -/
def Ty.aliases : List (String × Ty) :=
  [2, 3, 4].flatMap fun n =>
    [(s!"vec{n}", .vector .float n), (s!"ivec{n}", .vector .int n), (s!"uvec{n}", .vector .uint n),
      (s!"bvec{n}", .vector .bool n), (s!"mat{n}", .matrix .float n n)] ++
    [2, 3, 4].map fun r => (s!"mat{n}x{r}", Ty.matrix .float n r)

/-- Every name of a built-in type. -/
def Ty.named : List (String × Ty) := (Ty.builtins.map fun ty => (ty.name, ty)) ++ Ty.aliases

/-- The built-in type with a given name. -/
def Ty.ofName? (name : String) : Option Ty := Ty.named.lookup name

end RasterShader
