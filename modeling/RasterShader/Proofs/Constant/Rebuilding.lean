import Mathlib
import RasterShader.Proofs.Constant.Folding

/-!
# Constants that are rebuilt

Folding takes a constant apart into one double for each slot, and `Expr.ofConstant` makes an
expression of a list of doubles again.  The two walk over a type in different ways: a constant is
taken apart part by part, while an expression is made of stretches of the list, one for each element
of an array or field of a struct.  `constantValue?_rebuilt` says that no value is lost, moved or
changed on the way, and that the expression has the type that was asked for.

The stretches are the list again when they are put together (`flatMap_stretches`), so that the parts
of a rebuilt array have the values of the array.  `Ty.IsComposed` are the types that have constants
at all: what else there is has no slots, and its expression is the one of a failed check.
-/

namespace RasterShader

/-- The type is made of scalars, vectors and matrices, in arrays and structs that are nested in any
way. -/
def Ty.IsComposed (ty : Ty) : Prop := ∀ leaf ∈ ty.leaves "", leaf.2.isShaped = true

instance (ty : Ty) : Decidable ty.IsComposed := by
  unfold Ty.IsComposed
  infer_instance

namespace Ty

/-- The name of a variable does not matter to what its type is made of. -/
theorem isComposed_iff (name : String) (ty : Ty) :
    ty.IsComposed ↔ ∀ leaf ∈ ty.leaves name, leaf.2.isShaped = true := by
  have hparts (leaves : List (String × Ty)) : (∀ leaf ∈ leaves, leaf.2.isShaped = true) ↔
      ∀ part ∈ leaves.map Prod.snd, part.isShaped = true := by
    rw [List.forall_mem_map]
  rw [IsComposed, hparts, hparts, map_snd_leaves "" name]

/-- Elements of an array that has some are composed if the array is. -/
theorem IsComposed.element {element : Ty} {count : Option Nat}
    (h : (array element count).IsComposed) {i : Nat} (hi : i < count.getD 0) :
    element.IsComposed :=
  (isComposed_iff _ element).2 fun leaf hleaf =>
    h leaf (by rw [leaves]; exact List.mem_flatMap.2 ⟨i, List.mem_range.2 hi, hleaf⟩)

end Ty

namespace Expr

/-- Stretches of one length that follow each other make up the front of a list. -/
theorem flatMap_stretches {α : Type} (values : List α) (length count : Nat) :
    ((List.range count).flatMap fun i => (values.drop (i * length)).take length) =
      values.take (count * length) := by
  induction count with
  | zero => simp
  | succ count ih =>
    rw [List.range_succ, List.flatMap_append, ih, List.flatMap_singleton, Nat.succ_mul,
      List.take_add]

/-- The values of constants are those of each of them, one after the other. -/
theorem constantValues?_map {ι : Type} {parts : List ι} {f : ι → Expr} {g : ι → List Float}
    (h : ∀ i ∈ parts, (f i).constantValue? = some (g i)) :
    constantValues? (parts.map f) = some (parts.flatMap g) := by
  induction parts with
  | nil => rfl
  | cons i parts ih =>
    rw [List.map_cons, constantValues?, h i List.mem_cons_self,
      ih fun j hj => h j (List.mem_cons_of_mem _ hj)]
    rfl

mutual

/-- A rebuilt constant has the values that it was made of. -/
theorem constantValue?_ofConstant_of_isComposed (span : Span) (values : List Float) (ty : Ty)
    (hty : ty.IsComposed) (hlength : values.length = ty.slotCount) :
    (ofConstant span values ty).constantValue? = some values := by
  cases ty with
  | scalar s => exact (constantValue?_ofConstant span (.inl rfl) hlength).1
  | vector s columns => exact (constantValue?_ofConstant span (.inr rfl) hlength).1
  | matrix s columns rows => exact constantValues?_literals _ values
  | array element count =>
    have hparts : ∀ i ∈ List.range (count.getD 0),
        (ofConstant span ((values.drop (i * element.slotCount)).take element.slotCount)
          element).constantValue? =
        some ((values.drop (i * element.slotCount)).take element.slotCount) := by
      intro i hi
      have hlt := List.mem_range.1 hi
      refine constantValue?_ofConstant_of_isComposed span _ element (hty.element hlt) ?_
      -- the stretch of an element ends within the list
      have hend : (i + 1) * element.slotCount ≤ values.length := by
        rw [hlength, Ty.slotCount, Nat.mul_comm element.slotCount]
        exact Nat.mul_le_mul_right _ hlt
      rw [Nat.succ_mul] at hend
      rw [List.length_take, List.length_drop]
      omega
    have hwhole : values.take (count.getD 0 * element.slotCount) = values := by
      rw [Nat.mul_comm]
      exact List.take_of_length_le hlength.le
    rw [ofConstant, constantValue?, constantValues?_map hparts, flatMap_stretches, hwhole]
  | struct name fields isBlock =>
    exact constantValues?_ofConstants span values fields hty hlength
  | void | effect | generic | poison => simp [Ty.IsComposed, Ty.leaves, Ty.isShaped] at hty

/-- Rebuilt fields have the values that they were made of, one after the other. -/
theorem constantValues?_ofConstants (span : Span) (values : List Float) (fields : List (FieldOf Ty))
    (hfields : ∀ leaf ∈ Ty.leavesOfFields "" fields, leaf.2.isShaped = true)
    (hlength : values.length = Ty.slotCounts fields) :
    constantValues? (ofConstants span values fields) = some values := by
  match fields with
  | [] =>
    obtain rfl := List.length_eq_zero_iff.1 hlength
    rfl
  | ⟨name, ty, modifiers, place⟩ :: rest =>
    obtain ⟨hty, hrest⟩ := List.forall_mem_append.1 hfields
    rw [Ty.slotCounts] at hlength
    have hfirst := constantValue?_ofConstant_of_isComposed span (values.take ty.slotCount) ty
      ((Ty.isComposed_iff _ ty).2 hty) (by rw [List.length_take]; omega)
    have hothers := constantValues?_ofConstants span (values.drop ty.slotCount) rest hrest
      (by rw [List.length_drop]; omega)
    rw [ofConstants, constantValues?, hfirst, hothers]
    exact congrArg some (List.take_append_drop ty.slotCount values)

end

theorem ty_ofConstant (span : Span) (values : List Float) {ty : Ty} (hty : ty.IsComposed) :
    (ofConstant span values ty).ty = ty := by
  cases ty with
  | vector s columns =>
    rw [ofConstant]
    split <;> rfl
  | scalar | matrix | array | struct => rfl
  | void | effect | generic | poison => simp [Ty.IsComposed, Ty.leaves, Ty.isShaped] at hty

/-- Constants survive being rebuilt.  The values are the same doubles as before, a zero with its
sign. -/
theorem constantValue?_rebuilt (span : Span) {ty : Ty} {values : List Float}
    (hty : ty.IsComposed) (hlength : values.length = ty.slotCount) :
    (ofConstant span values ty).constantValue? = some values ∧
      (ofConstant span values ty).ty = ty :=
  ⟨constantValue?_ofConstant_of_isComposed span values ty hty hlength, ty_ofConstant span values hty⟩

/-- Zeros of both signs, in vectors of an array and in a matrix of one struct.  The first vector is
not a splat, since its components have different bits. -/
theorem constantValue?_rebuilt_signedZeros :
    let ty : Ty := .struct "S" [⟨"a", .array .float2 (some 2), default, default⟩,
      ⟨"m", .matrix .float 2 2, default, default⟩, ⟨"b", .bool, default, default⟩] false
    let values : List Float := [0.0, -0.0, -0.0, -0.0, 1.5, -0.0, 0.0, 2.0, 1.0]
    ty.IsComposed ∧ values.length = ty.slotCount ∧
      (ofConstant default values ty).constantValue? = some values ∧
      (ofConstant default values ty).ty = ty := by
  intro ty values
  have hty : ty.IsComposed := by decide
  exact ⟨hty, rfl, constantValue?_rebuilt default hty rfl⟩

end Expr

end RasterShader
