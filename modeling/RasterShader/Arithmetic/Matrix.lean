import RasterShader.Arithmetic.Word
import RasterShader.Slot

/-!
# Matrices and vectors of words

Operations on a few words of one lane at a time. A matrix is stored column after column, so that
the component in column `c` and row `r` of a matrix with `n` rows is at `c * n + r`.

Inverse and determinant eliminate column by column, each time with the entry of greatest magnitude
at or below the diagonal, the lowest such row if several have the same.
-/

namespace RasterShader

namespace Matrix

open Word

/-- The component in a column and row of a matrix with so many rows. -/
def entry (m : Array UInt32) (rows column row : Nat) : UInt32 := m.getD (column * rows + row) 0

/-- A matrix given by its components. -/
def build (shape : Shape) (f : (column row : Nat) → UInt32) : Array UInt32 :=
  ((List.range shape.columns).flatMap fun c => (List.range shape.rows).map fun r => f c r).toArray

/-- Columns become rows. -/
def transpose (shape : Shape) (m : Array UInt32) : Array UInt32 :=
  build ⟨shape.rows, shape.columns⟩ fun c r => entry m shape.rows r c

/-- A value on the diagonal, zero elsewhere. -/
def diagonal (shape : Shape) (value : UInt32) : Array UInt32 :=
  build shape fun c r => if c = r then value else 0

/-- A matrix cut or extended to another shape, with ones on the added diagonal. -/
def resize (source target : Shape) (m : Array UInt32) : Array UInt32 :=
  build target fun c r =>
    if c < source.columns && r < source.rows then entry m source.rows c r
    else if c = r then one
    else 0

/-- The product of two matrices, the right one stored after the left one. -/
def multiply (left right : Shape) (m : Array UInt32) : Array UInt32 :=
  build ⟨right.columns, left.rows⟩ fun c r =>
    sumOfProducts ((List.range left.columns).map fun k =>
      (entry m left.rows k r, m.getD (left.size + (c * right.rows + k)) 0))

/-- The dot product of two vectors, one stored after the other. -/
def dot (count : Nat) (m : Array UInt32) : UInt32 :=
  sumOfProducts ((List.range count).map fun i => (m.getD i 0, m.getD (count + i) 0))

/-- The direction of a refracted ray: the incident direction in the first four words, the normal
in the next four, then the ratio of indices. Total reflection gives zero. -/
def refract (m : Array UInt32) : Array UInt32 :=
  let incident (i : Nat) := m.getD i 0
  let normal (i : Nat) := m.getD (4 + i) 0
  let eta := m.getD 8 0
  let d := sumOfProducts ((List.range 4).map fun i => (normal i, incident i))
  let k := fsub one (fmul (fmul eta eta) (fsub one (fmul d d)))
  if flt k 0 then Array.replicate 4 0
  else
    let scale := fadd (fmul eta d) (fsqrt k)
    (Array.range 4).map fun i => fsub (fmul eta (incident i)) (fmul scale (normal i))

/-! ## Elimination -/

/-- The row, from the diagonal on, with the entry of greatest magnitude in a column; the last of
equal ones. -/
def pivot (m : Array UInt32) (size column : Nat) : Nat :=
  (List.range size).foldl (fun best r =>
    if r ≤ column then best
    else if magnitude (entry m size column r) < magnitude (entry m size column best) then best
    else r) column

/-- A square matrix by its components. -/
def square (size : Nat) (f : (column row : Nat) → UInt32) : Array UInt32 := build ⟨size, size⟩ f

/-- Two rows of a square matrix exchanged. -/
def swapRows (m : Array UInt32) (size a b : Nat) : Array UInt32 :=
  square size fun c r => entry m size c (if r = a then b else if r = b then a else r)

/-- One column of an inversion, on the matrix and on what becomes its inverse: the pivot row is
brought to the diagonal, scaled to one, and subtracted from every other row. `none` if the column
has no pivot. -/
def invertColumn (size column : Nat) : Array UInt32 × Array UInt32 →
    Option (Array UInt32 × Array UInt32)
  | (a, inverse) =>
    let row := pivot a size column
    if feq (entry a size column row) 0 then none
    else
      let a := if row = column then a else swapRows a size row column
      let inverse := if row = column then inverse else swapRows inverse size row column
      let scale := fdiv one (entry a size column column)
      let scaled (m : Array UInt32) := square size fun c r =>
        if r = column then fmul (entry m size c r) scale else entry m size c r
      let a := scaled a
      let inverse := scaled inverse
      let eliminated (m : Array UInt32) := square size fun c r =>
        let factor := entry a size column r
        if r = column || feq factor 0 then entry m size c r
        else fsub (entry m size c r) (fmul factor (entry m size c column))
      some (eliminated a, eliminated inverse)

/-- The inverse of a square matrix, and zero if there is none. -/
def invert (size : Nat) (m : Array UInt32) : Array UInt32 :=
  let identity := square size fun c r => if c = r then one else 0
  match (List.range size).foldlM (fun state c => invertColumn size c state) (m, identity) with
  | some (_, inverse) => inverse
  | none => Array.replicate (size * size) 0

/-- One column of a determinant, on the matrix and the product of the pivots so far. -/
def determinantColumn (size column : Nat) : Array UInt32 × UInt32 → Option (Array UInt32 × UInt32)
  | (a, product) =>
    let row := pivot a size column
    if feq (entry a size column row) 0 then none
    else
      let (a, product) :=
        if row = column then (a, product) else (swapRows a size row column, fneg product)
      let diagonal := entry a size column column
      let product := fmul product diagonal
      let eliminated := square size fun c r =>
        if r ≤ column || c < column then entry a size c r
        else
          let factor := fdiv (entry a size column r) diagonal
          fsub (entry a size c r) (fmul factor (entry a size c column))
      some (eliminated, product)

/-- The determinant of a square matrix. -/
def determinant (size : Nat) (m : Array UInt32) : UInt32 :=
  match (List.range size).foldlM (fun state c => determinantColumn size c state) (m, one) with
  | some (_, product) => product
  | none => 0

end Matrix

end RasterShader
