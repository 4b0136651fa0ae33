import Mathlib
import RasterShader.Proofs.Constant.Layout

/-!
# Names of slots

A type lists its slots twice, as descriptions for a trace (`Ty.slotInfo`) and as kinds
(`Ty.slotKinds`), each by walking through its scalars, vectors and matrices, and it counts them
without listing them (`Ty.slotCount`).  `Ty.locate` goes the other way: from the number of a slot it
finds the leaf that the slot belongs to, with the name of the leaf and the place of the slot in it,
and only uses counts for that.  Both lists have at every slot what `locate` finds there, so that they
agree with each other and with the count, and the slots of a field are where
`Ty.fieldSlotOffset` says.
-/

namespace RasterShader

namespace Ty

mutual

/-- The name of the scalar, vector or matrix that a slot of a variable belongs to, the leaf itself,
and the place of the slot in it. -/
def locate (name : String) : Ty → Nat → String × Ty × Nat
  | array element _, slot =>
    locate s!"{name}[{slot / element.slotCount}]" element (slot % element.slotCount)
  | struct _ fields _, slot => locateField name fields slot
  | ty, slot => (name, ty, slot)

/-- The same among fields that follow each other. -/
def locateField (name : String) : List (FieldOf Ty) → Nat → String × Ty × Nat
  | [], slot => (name, poison, slot)
  | ⟨field, ty, _, _⟩ :: rest, slot =>
    if slot < ty.slotCount then locate s!"{name}.{field}" ty slot
    else locateField name rest (slot - ty.slotCount)

end

variable {ty : Ty} {fields : List Field} {f : Field} {i slot : Nat}

/-- The slots of a field are found under its name. -/
theorem locateField_take (name : String) (h : fields[i]? = some f) (hslot : slot < f.ty.slotCount) :
    locateField name fields (slotCounts (fields.take i) + slot) =
      f.ty.locate s!"{name}.{f.name}" slot := by
  induction fields generalizing i with
  | nil => simp at h
  | cons first rest ih =>
    obtain ⟨field, ty, modifiers, span⟩ := first
    cases i with
    | zero =>
      obtain rfl : _ = f := by simpa using h
      rw [List.take_zero, slotCounts, Nat.zero_add, locateField, if_pos hslot]
    | succ i =>
      have hrest := ih (by simpa using h)
      rw [List.take_succ_cons, slotCounts, locateField, if_neg (by omega), ← hrest]
      congr 1
      omega

/-- An array that has a slot has elements with slots. -/
theorem slotCount_element_pos {element : Ty} {count : Option Nat}
    (h : slot < (array element count).slotCount) : 0 < element.slotCount :=
  Nat.pos_of_ne_zero fun hzero => by simp [slotCount, hzero] at h

mutual

/-- What a slot belongs to is a scalar, a vector or a matrix, which has the slot. -/
theorem locate_within (name : String) (ty : Ty) {slot : Nat} (h : slot < ty.slotCount) :
    (ty.locate name slot).2.1.isShaped = true ∧
      (ty.locate name slot).2.2 < (ty.locate name slot).2.1.slotCount := by
  cases ty with
  | array element count =>
    exact locate_within _ element (Nat.mod_lt slot (slotCount_element_pos h))
  | struct structName fields isBlock => exact locateField_within name fields h
  | scalar | vector | matrix => exact ⟨rfl, h⟩
  | void | effect | generic | poison => exact absurd h (Nat.not_lt_zero slot)

theorem locateField_within (name : String) (fields : List (FieldOf Ty)) {slot : Nat}
    (h : slot < slotCounts fields) :
    (locateField name fields slot).2.1.isShaped = true ∧
      (locateField name fields slot).2.2 < (locateField name fields slot).2.1.slotCount := by
  match fields with
  | [] => exact absurd h (Nat.not_lt_zero slot)
  | ⟨field, ty, modifiers, span⟩ :: rest =>
    rw [slotCounts] at h
    rw [locateField]
    split
    · next hlt => exact locate_within _ ty hlt
    · next hge => exact locateField_within name rest (by omega)

end

theorem locate_field (name : String) (h : ty.fields[i]? = some f) (hslot : slot < f.ty.slotCount) :
    ty.locate name (ty.fieldSlotOffset i + slot) = f.ty.locate s!"{name}.{f.name}" slot := by
  cases ty with
  | struct structName fields isBlock =>
    rw [locate]
    exact locateField_take name h hslot
  | _ => simp [Ty.fields] at h

/-! ## Slots of leaves -/

/-- The slots of a leaf. -/
def leafParts (leaf : String × Ty) : List (String × Ty × Nat) :=
  (List.range leaf.2.slotCount).map fun slot => (leaf.1, leaf.2, slot)

/-- The slots of a type, leaf by leaf. -/
def parts (name : String) (ty : Ty) : List (String × Ty × Nat) := (ty.leaves name).flatMap leafParts

theorem length_parts (name : String) (ty : Ty) : (ty.parts name).length = ty.slotCount := by
  simp only [parts, leafParts, List.length_flatMap, List.length_map, List.length_range]
  exact sum_leaves name ty

theorem map_numberKind_parts (name : String) (ty : Ty) :
    (ty.parts name).map (fun part => part.2.1.numberKind) = ty.slotKinds := by
  rw [← flatMap_leaves name ty, parts, List.map_flatMap]
  congr 1
  funext leaf
  have hkinds : leafKinds leaf.2 = (List.range leaf.2.slotCount).map fun _ => leaf.2.numberKind := by
    rw [leafKinds, List.map_const', List.length_range]
  rw [leafParts, List.map_map, hkinds]
  rfl

theorem getElem?_flatMap_range {α : Type} {g : Nat → List α} {m n j : Nat}
    (hg : ∀ i, (g i).length = m) (hi : i < n) (hj : j < m) :
    ((List.range n).flatMap g)[m * i + j]? = (g i)[j]? := by
  induction n with
  | zero => exact absurd hi (Nat.not_lt_zero i)
  | succ n ih =>
    have hlength : ((List.range n).flatMap g).length = m * n := by
      simp [List.length_flatMap, hg, Nat.mul_comm]
    rw [List.range_succ, List.flatMap_append, List.flatMap_singleton]
    rcases Nat.lt_succ_iff_lt_or_eq.1 hi with hlt | rfl
    · have hinside : m * i + j < m * n :=
        calc m * i + j < m * i + m := by omega
          _ = m * (i + 1) := (Nat.mul_succ m i).symm
          _ ≤ m * n := Nat.mul_le_mul_left m hlt
      rw [List.getElem?_append_left (by omega), ih hlt]
    · rw [List.getElem?_append_right (by omega), hlength, Nat.add_sub_cancel_left]

mutual

/-- The slot with a number is the one that is found under the number. -/
theorem getElem?_parts (name : String) (ty : Ty) {slot : Nat} (h : slot < ty.slotCount) :
    (ty.parts name)[slot]? = some (ty.locate name slot) := by
  cases ty with
  | array element count =>
    -- which element the slot is in, and which of its slots it is
    have hindex : slot / element.slotCount < count.getD 0 := Nat.div_lt_of_lt_mul h
    have hplace := Nat.mod_lt slot (slotCount_element_pos h)
    have hsplit : (array element count).parts name =
        (List.range (count.getD 0)).flatMap fun i => element.parts s!"{name}[{i}]" := by
      rw [parts, leaves, List.flatMap_assoc]
      rfl
    rw [hsplit, locate, ← getElem?_parts _ element hplace]
    conv_lhs => rw [← Nat.div_add_mod slot element.slotCount]
    exact getElem?_flatMap_range (fun i => length_parts _ element) hindex hplace
  | struct structName fields isBlock => exact getElem?_fieldParts name fields h
  | void | scalar | vector | matrix | effect | generic | poison =>
    simp [parts, leaves, leafParts, locate, h]

theorem getElem?_fieldParts (name : String) (fields : List (FieldOf Ty)) {slot : Nat}
    (h : slot < slotCounts fields) :
    ((leavesOfFields name fields).flatMap leafParts)[slot]? =
      some (locateField name fields slot) := by
  match fields with
  | [] => exact absurd h (Nat.not_lt_zero slot)
  | ⟨field, ty, modifiers, span⟩ :: rest =>
    have hlength := length_parts s!"{name}.{field}" ty
    rw [leavesOfFields, List.flatMap_append, locateField]
    rw [slotCounts] at h
    change ((ty.parts s!"{name}.{field}") ++ _)[slot]? = _
    split
    · next hlt => rw [List.getElem?_append_left (by omega), getElem?_parts _ ty hlt]
    · next hge =>
      rw [List.getElem?_append_right (by omega), hlength,
        getElem?_fieldParts name rest (by omega)]

end

/-- The slots of a type are listed in the order of their numbers. -/
theorem parts_eq (name : String) (ty : Ty) :
    ty.parts name = (List.range ty.slotCount).map (ty.locate name) := by
  apply List.ext_getElem?
  intro slot
  by_cases h : slot < ty.slotCount
  · rw [getElem?_parts name ty h, List.getElem?_map, List.getElem?_range h]
    rfl
  · rw [List.getElem?_eq_none (by rw [length_parts]; omega),
      List.getElem?_eq_none (by simpa using h)]

/-! ## Kinds and descriptions -/

/-- What a trace says about a slot of a variable. -/
def describe (ty : Ty) (name : String) (line : Nat) (resultOf : Option Nat) (slot : Nat) :
    SlotInfo :=
  let (name, leaf, component) := ty.locate name slot
  ⟨name, leaf.columns, leaf.rows, component, slot, .ofNumberKind leaf.numberKind, line, resultOf⟩

theorem slotKinds_eq (ty : Ty) (name : String) :
    ty.slotKinds =
      (List.range ty.slotCount).map fun slot => (ty.locate name slot).2.1.numberKind := by
  rw [← map_numberKind_parts name, parts_eq, List.map_map]
  rfl

theorem slotInfo_eq (ty : Ty) (name : String) (line : Nat) (resultOf : Option Nat) :
    ty.slotInfo name line resultOf =
      (List.range ty.slotCount).map (ty.describe name line resultOf) := by
  have hslots : ty.slotInfo name line resultOf =
      (ty.parts name).zipIdx.map fun part =>
        ⟨part.1.1, part.1.2.1.columns, part.1.2.1.rows, part.1.2.2, part.2,
          .ofNumberKind part.1.2.1.numberKind, line, resultOf⟩ := rfl
  rw [hslots, parts_eq]
  apply List.ext_getElem?
  intro slot
  simp only [List.getElem?_map, List.getElem?_zipIdx, Option.map_map]
  by_cases h : slot < ty.slotCount
  · simp only [List.getElem?_range h, Option.map_some, Nat.zero_add]
    rfl
  · simp [h]

theorem length_slotInfo (ty : Ty) (name : String) (line : Nat) (resultOf : Option Nat) :
    (ty.slotInfo name line resultOf).length = ty.slotCount := by
  rw [slotInfo_eq, List.length_map, List.length_range]

/-- A description of the slots of a field counts from the field on. -/
theorem describe_field (name : String) (line : Nat) (resultOf : Option Nat)
    (h : ty.fields[i]? = some f) (hslot : slot < f.ty.slotCount) :
    ty.describe name line resultOf (ty.fieldSlotOffset i + slot) =
      { f.ty.describe s!"{name}.{f.name}" line resultOf slot with
        groupIndex := ty.fieldSlotOffset i + slot } := by
  rw [describe, locate_field name h hslot]
  rfl

/-- The descriptions of a field's slots are in its place among those of the struct. -/
theorem slotInfo_field (name : String) (line : Nat) (resultOf : Option Nat)
    (h : ty.fields[i]? = some f) :
    ((ty.slotInfo name line resultOf).drop (ty.fieldSlotOffset i)).take f.ty.slotCount =
      (f.ty.slotInfo s!"{name}.{f.name}" line resultOf).map fun info =>
        { info with groupIndex := ty.fieldSlotOffset i + info.groupIndex } := by
  have hle := fieldSlotOffset_add_le h
  rw [slotInfo_eq, slotInfo_eq]
  apply List.ext_getElem?
  intro slot
  by_cases hslot : slot < f.ty.slotCount
  · rw [List.getElem?_take_of_lt hslot, List.getElem?_drop, List.getElem?_map, List.getElem?_map,
      List.getElem?_map, List.getElem?_range (by omega), List.getElem?_range hslot, Option.map_some,
      Option.map_some, Option.map_some, describe_field name line resultOf h hslot]
    rfl
  · rw [List.getElem?_eq_none (by simp; omega), List.getElem?_eq_none (by simp; omega)]

end Ty

end RasterShader
