import Mathlib
import RasterShader.Arithmetic.Matrix
import RasterShader.Proofs.Arithmetic.Conversion
import RasterShader.Proofs.Codegen.Typed
import RasterShader.Typing.Access

/-!
# Layout of constants

A constant is a list of doubles, one for each slot of its type, and its words are what the doubles
are in slots of the kinds of the type (`literalWords`).  The kinds of a type's slots are laid out as
the parts of the type are (`Ty.slotKinds_struct`, `Ty.slotKinds_field`), so that parts, selections
and matrices of a constant have the words that are in the same places among the words of the
constant.
-/

namespace RasterShader

open Double

/-! ## Kinds of slots -/

namespace Ty

mutual

/-- The scalars, vectors and matrices of a type do not depend on the name of the variable. -/
theorem map_snd_leaves (name other : String) (ty : Ty) :
    (ty.leaves name).map Prod.snd = (ty.leaves other).map Prod.snd := by
  cases ty with
  | array element count =>
    simp only [leaves, List.map_flatMap]
    congr 1
    funext i
    exact map_snd_leaves _ _ element
  | struct structName fields isBlock => exact map_snd_leavesOfFields name other fields
  | void | scalar | vector | matrix | effect | generic | poison => rfl

theorem map_snd_leavesOfFields (name other : String) (fields : List (FieldOf Ty)) :
    (leavesOfFields name fields).map Prod.snd = (leavesOfFields other fields).map Prod.snd := by
  match fields with
  | [] => rfl
  | ⟨field, ty, modifiers, span⟩ :: rest =>
    simp only [leavesOfFields, List.map_append]
    rw [map_snd_leaves _ s!"{other}.{field}" ty, map_snd_leavesOfFields name other rest]

end

/-- How the slots of a scalar, vector or matrix are read. -/
def leafKinds (leaf : Ty) : List NumberKind := List.replicate leaf.slotCount leaf.numberKind

theorem flatMap_leaves (name : String) (ty : Ty) :
    (ty.leaves name).flatMap (fun leaf => leafKinds leaf.2) = ty.slotKinds := by
  have hmap : ∀ leaves : List (String × Ty),
      leaves.flatMap (fun leaf => leafKinds leaf.2) = (leaves.map Prod.snd).flatMap leafKinds :=
    fun leaves => by rw [List.flatMap_map]
  have hkinds : ty.slotKinds = (ty.leaves "").flatMap fun leaf => leafKinds leaf.2 := rfl
  rw [hkinds, hmap, hmap, map_snd_leaves name ""]

theorem slotKinds_of_isShaped {ty : Ty} (h : ty.isShaped = true) :
    ty.slotKinds = List.replicate ty.slotCount ty.numberKind := by
  cases ty with
  | scalar | vector | matrix => simp [slotKinds, leaves]
  | _ => cases h

theorem isShaped_of_isMatrix {ty : Ty} (h : ty.isMatrix = true) : ty.isShaped = true := by
  cases ty with
  | matrix => rfl
  | _ => cases h

theorem slotCount_of_isMatrix {ty : Ty} (h : ty.isMatrix = true) :
    ty.slotCount = ty.columns * ty.rows := by
  cases ty with
  | matrix => rfl
  | _ => cases h

/-- The slots of a struct are those of its fields, one after the other. -/
theorem slotKinds_struct (name : String) (fields : List Field) (isBlock : Bool) :
    (struct name fields isBlock).slotKinds = fields.flatMap fun f => f.ty.slotKinds := by
  have hfields : ∀ fields : List Field,
      (leavesOfFields "" fields).flatMap (fun leaf => leafKinds leaf.2) =
        fields.flatMap fun f => f.ty.slotKinds := by
    intro fields
    induction fields with
    | nil => rfl
    | cons f rest ih =>
      obtain ⟨field, ty, modifiers, span⟩ := f
      rw [leavesOfFields, List.flatMap_append, flatMap_leaves, ih]
      rfl
  exact hfields fields

theorem length_flatMap_slotKinds (fields : List Field) :
    (fields.flatMap fun f => f.ty.slotKinds).length = slotCounts fields := by
  induction fields with
  | nil => rfl
  | cons f rest ih =>
    rw [List.flatMap_cons, List.length_append, length_slotKinds, ih]
    rfl

/-- The slots of a field are in its place among those of the struct. -/
theorem slotKinds_field {ty : Ty} {i : Nat} {f : Field} (h : ty.fields[i]? = some f) :
    (ty.slotKinds.drop (ty.fieldSlotOffset i)).take f.ty.slotCount = f.ty.slotKinds := by
  cases ty with
  | struct name fields isBlock =>
    have hsplit : fields = fields.take i ++ f :: fields.drop (i + 1) := by
      have hlt : i < fields.length := (List.getElem?_eq_some_iff.1 h).1
      have hget : fields[i] = f := (List.getElem?_eq_some_iff.1 h).2
      rw [← hget, ← List.drop_eq_getElem_cons hlt, List.take_append_drop]
    have hoffset : fieldSlotOffset (struct name fields isBlock) i =
        ((fields.take i).flatMap fun f => f.ty.slotKinds).length :=
      (length_flatMap_slotKinds _).symm
    rw [slotKinds_struct, hoffset]
    conv_lhs =>
      enter [2, 2]
      rw [hsplit]
    rw [List.flatMap_append, List.drop_left, List.flatMap_cons, ← length_slotKinds, List.take_left]
  | _ => simp [fields] at h

/-- The slots of an array are those of its elements, one after the other. -/
theorem slotKinds_array (element : Ty) (count : Option Nat) :
    (array element count).slotKinds =
      (List.replicate (count.getD 0) element.slotKinds).flatten := by
  have hkinds (name : String) : (array element count).slotKinds =
      ((List.range (count.getD 0)).flatMap fun i =>
        element.leaves s!"{name}[{i}]").flatMap fun leaf => leafKinds leaf.2 := by
    rw [← flatMap_leaves name, leaves]
  rw [hkinds "", List.flatMap_assoc]
  simp only [flatMap_leaves]
  rw [List.flatMap_def, List.map_const', List.length_range]

/-- A vector has a slot for each of its columns. -/
theorem slotKinds_vector {s : Scalar} {columns : Nat} {ty : Ty}
    (h : (scalar s).toCompound? columns 1 = some ty) :
    ty.slotKinds = List.replicate columns s.kind := by
  rw [toCompound?, if_neg (by decide)] at h
  split_ifs at h with hone
  · obtain rfl := Option.some.inj h
    subst hone
    rfl
  · simp only [component, vector?] at h
    split_ifs at h
    obtain rfl := Option.some.inj h
    exact slotKinds_of_isShaped rfl

/-- The slots of an array, vector or matrix are those of its elements, one after the other. -/
theorem slotKinds_element {ty element : Ty} {count : Nat}
    (helement : Typing.elementType? ty = some element)
    (hcount : Typing.elementCount? ty = some count) :
    ty.slotKinds = (List.replicate count element.slotKinds).flatten := by
  cases ty with
  | array e n =>
    obtain rfl := Option.some.inj helement
    obtain rfl : n = some count := hcount
    exact slotKinds_array e (some count)
  | vector s columns =>
    obtain rfl := Option.some.inj helement
    obtain rfl : columns = count := Option.some.inj hcount
    rw [slotKinds_of_isShaped rfl, slotKinds_of_isShaped rfl]
    simp [slotCount, numberKind]
  | matrix s columns rows =>
    obtain rfl : columns = count := Option.some.inj hcount
    rw [slotKinds_vector helement, slotKinds_of_isShaped rfl]
    simp [slotCount, numberKind]
  | _ => cases helement

end Ty

/-! ## Words of values -/

/-- The words of values in slots of given kinds. -/
def literalWords (kinds : List NumberKind) (values : List Float) : List UInt32 :=
  List.zipWith (fun kind value => literalBits value kind) kinds values

/-- There is a value for each kind, which a slot of the kind can have. -/
def Stored (kinds : List NumberKind) (values : List Float) : Prop :=
  List.Forall₂ NumberKind.Holds kinds values

variable {kind : NumberKind} {kinds : List NumberKind} {v : Float} {values : List Float}

theorem constantBits_eq (ty : Ty) (values : List Float) :
    constantBits ty values = literalWords ty.slotKinds values := rfl

theorem Stored.length_eq (h : Stored kinds values) : values.length = kinds.length :=
  (List.Forall₂.length_eq h).symm

@[simp] theorem length_literalWords (h : Stored kinds values) :
    (literalWords kinds values).length = kinds.length := by
  rw [literalWords, List.length_zipWith, h.length_eq, Nat.min_self]

theorem Stored.append {others : List NumberKind} {more : List Float} (h : Stored kinds values)
    (h' : Stored others more) : Stored (kinds ++ others) (values ++ more) :=
  List.rel_append h h'

theorem literalWords_append {others : List NumberKind} {more : List Float}
    (h : Stored kinds values) : literalWords (kinds ++ others) (values ++ more) =
      literalWords kinds values ++ literalWords others more :=
  List.zipWith_append h.length_eq.symm

theorem stored_replicate {n : Nat} :
    Stored (List.replicate n kind) values ↔ values.length = n ∧ ∀ v ∈ values, kind.Holds v := by
  induction n generalizing values with
  | zero => cases values <;> simp [Stored]
  | succ n ih =>
    rw [List.replicate_succ, Stored]
    cases values with
    | nil => simp
    | cons v values =>
      have hrest := @ih values
      rw [Stored] at hrest
      rw [List.forall₂_cons, hrest]
      simp
      tauto

theorem literalWords_replicate {n : Nat} (h : values.length = n) :
    literalWords (List.replicate n kind) values = values.map (literalBits · kind) := by
  subst h
  induction values with
  | nil => rfl
  | cons v values ih =>
    rw [List.length_cons, List.replicate_succ, List.map_cons, ← ih]
    rfl

/-- The values of a scalar, vector or matrix are of one kind. -/
theorem stored_iff_of_isShaped {ty : Ty} (h : ty.isShaped = true) :
    Stored ty.slotKinds values ↔
      values.length = ty.slotCount ∧ ∀ v ∈ values, ty.numberKind.Holds v := by
  rw [Ty.slotKinds_of_isShaped h, stored_replicate]

theorem constantBits_of_isShaped {ty : Ty} (h : ty.isShaped = true)
    (hlength : values.length = ty.slotCount) :
    constantBits ty values = values.map (literalBits · ty.numberKind) := by
  rw [constantBits_eq, Ty.slotKinds_of_isShaped h, literalWords_replicate hlength]

/-! ## Parts of values -/

theorem Stored.slice (h : Stored kinds values) (start count : Nat) :
    Stored ((kinds.drop start).take count) ((values.drop start).take count) :=
  List.forall₂_take count (List.forall₂_drop start h)

/-- One of several equal runs. -/
theorem slice_flatten_replicate {α : Type} (run : List α) {n count : Nat} (h : n < count) :
    ((List.replicate count run).flatten.drop (n * run.length)).take run.length = run := by
  obtain ⟨rest, rfl⟩ : ∃ rest, count = n + (rest + 1) := ⟨count - n - 1, by omega⟩
  rw [List.replicate_add, List.flatten_append, List.drop_left' (by simp), List.replicate_succ,
    List.flatten_cons, List.take_left]

theorem literalWords_slice (kinds : List NumberKind) (values : List Float) (start count : Nat) :
    literalWords ((kinds.drop start).take count) ((values.drop start).take count) =
      ((literalWords kinds values).drop start).take count := by
  simp only [literalWords, List.drop_zipWith, List.take_zipWith]

/-! ## Values that are changed one by one -/

/-- A cast to the kind that a value already has keeps its word. -/
theorem literalBits_cast_self (h : kind.Holds v) :
    literalBits (Constant.cast v kind) kind = literalBits v kind ∧
      kind.Holds (Constant.cast v kind) := by
  cases kind with
  | float => exact ⟨singleBits_toSingle v, isNaN_toSingle h⟩
  | signed =>
    obtain ⟨n, hv, hn⟩ := h
    have hcast := isInt_cast_signed v
    have hvalue : max (-2147483648) (min 2147483647 n) = n := by
      simp only [NumberKind.InRange] at hn
      omega
    rw [clampedPart_of_isInt hv (by decide) (by decide), hvalue] at hcast
    exact ⟨by rw [literalBits_of_isInt (.inl rfl) hcast, literalBits_of_isInt (.inl rfl) hv],
      n, hcast, hn⟩
  | unsigned =>
    obtain ⟨n, hv, hn⟩ := h
    have hcast := isInt_cast_unsigned v
    have hvalue : max 0 (min 4294967295 n) = n := by
      simp only [NumberKind.InRange] at hn
      omega
    rw [clampedPart_of_isInt hv (by decide) (by decide), hvalue] at hcast
    exact ⟨by rw [literalBits_of_isInt (.inr rfl) hcast, literalBits_of_isInt (.inr rfl) hv],
      n, hcast, hn⟩
  | boolean =>
    have hcast : Constant.cast v .boolean = v := by
      obtain rfl | rfl := h
      · have hzero : ((0.0 : Float) != 0.0) = false := congrArg (!·) (beq_zero isInt_zero)
        rw [Constant.cast, hzero]
        rfl
      · have hone : ((1.0 : Float) != 0.0) = true := congrArg (!·) (beq_zero isInt_one)
        rw [Constant.cast, hone]
        rfl
    rw [hcast]
    exact ⟨rfl, h⟩
  | nonnumeric => exact ⟨rfl, trivial⟩

theorem isInt_wrapSigned (n : Int) : IsInt (Float.ofInt (Constant.wrapSigned n)) (Constant.wrapSigned n) ∧
    NumberKind.signed.InRange (Constant.wrapSigned n) := by
  have hlow : -(4294967296 / 2 : Int) ≤ Constant.wrapSigned n := Int.le_bmod (by decide)
  have hhigh : Constant.wrapSigned n < (4294967296 + 1) / 2 := Int.bmod_lt (by decide)
  have hrange : NumberKind.signed.InRange (Constant.wrapSigned n) :=
    ⟨by simpa using hlow, by simpa using hhigh⟩
  exact ⟨isInt_ofInt (by have := hrange.natAbs_lt; omega), hrange⟩

theorem isInt_wrapUnsigned (n : Int) :
    IsInt (Float.ofInt (Constant.wrapUnsigned n)) (Constant.wrapUnsigned n) ∧
      NumberKind.unsigned.InRange (Constant.wrapUnsigned n) := by
  have hrange : NumberKind.unsigned.InRange (Constant.wrapUnsigned n) := by
    simp only [Constant.wrapUnsigned, NumberKind.InRange]
    omega
  exact ⟨isInt_ofInt (by have := hrange.natAbs_lt; omega), hrange⟩

/-- An integer that is wrapped to 32 bits has the word that it had. -/
theorem literalBits_wrapSigned (n : Int) :
    literalBits (Float.ofInt (Constant.wrapSigned n)) .signed = Word.ofInt n :=
  (literalBits_of_isInt (.inl rfl) (isInt_wrapSigned n).1).trans (Word.ofInt_wrapSigned n)

theorem literalBits_wrapUnsigned (n : Int) :
    literalBits (Float.ofInt (Constant.wrapUnsigned n)) .unsigned = Word.ofInt n := by
  rw [literalBits_of_isInt (.inr rfl) (isInt_wrapUnsigned n).1, Word.ofInt_eq_ofInt_iff,
    Constant.wrapUnsigned]
  omega

/-! ## Negation -/

/-- The word that the code of a negation makes of a word. -/
def negatedWord (kind : NumberKind) (word : UInt32) : UInt32 :=
  if kind = .float then BinaryOp.bitwiseXor.eval .int word Word.signBit
  else BinaryOp.mul.eval kind.integerType word Word.allOnes

/-- A negated constant has the negated word. -/
theorem literalBits_negated (hkind : kind = .float ∨ kind.IsInteger) (h : kind.Holds v) :
    literalBits (Constant.normalize (-v) kind) kind = negatedWord kind (literalBits v kind) ∧
      kind.Holds (Constant.normalize (-v) kind) := by
  obtain rfl | rfl | rfl := hkind
  · refine ⟨?_, isNaN_toSingle ((isNaN_neg v).trans h)⟩
    exact (singleBits_toSingle (-v)).trans (singleBits_neg h)
  · obtain ⟨n, hv, hn⟩ := h
    have hminus := truncated_of_isInt (isInt_neg hv)
    rw [literalBits_of_isInt (.inl rfl) hv, Constant.normalize, hminus, literalBits_wrapSigned]
    refine ⟨?_, _, isInt_wrapSigned _⟩
    have hmul : Word.ofInt (n * -1) = Word.ofInt n * Word.allOnes := Word.ofInt_mul n (-1)
    rw [← mul_neg_one, hmul]
    rfl
  · obtain ⟨n, hv, hn⟩ := h
    have hminus := truncated_of_isInt (isInt_neg hv)
    rw [literalBits_of_isInt (.inr rfl) hv, Constant.normalize, hminus, literalBits_wrapUnsigned]
    refine ⟨?_, _, isInt_wrapUnsigned _⟩
    have hmul : Word.ofInt (n * -1) = Word.ofInt n * Word.allOnes := Word.ofInt_mul n (-1)
    rw [← mul_neg_one, hmul]
    rfl

/-! ## Selections and matrices -/

theorem mapM_getElem? {components : List Nat} (h : ∀ c ∈ components, c < values.length) :
    components.mapM (values[·]?) = some (components.map (values.getD · 0.0)) := by
  induction components with
  | nil => rfl
  | cons c rest ih =>
    rw [List.mapM_cons, ih fun c hc => h c (List.mem_cons_of_mem _ hc),
      List.getElem?_eq_getElem (h c List.mem_cons_self)]
    simp [List.getD_eq_getElem?_getD, h c List.mem_cons_self]

theorem literalBits_zero : literalBits 0.0 .float = 0 := by decide +kernel

theorem literalBits_one : literalBits 1.0 .float = Word.one := by decide +kernel

theorem isNaN_zero : (0.0 : Float).isNaN = false := by decide +kernel

theorem isNaN_one : (1.0 : Float).isNaN = false := by decide +kernel

theorem forall_mem_diagonal {columns rows : Nat} (h : NumberKind.float.Holds v) :
    ∀ w ∈ Constant.diagonal columns rows v, NumberKind.float.Holds w := by
  intro w hw
  simp only [Constant.diagonal, List.mem_flatMap, List.mem_map, List.mem_range] at hw
  obtain ⟨c, -, r, -, rfl⟩ := hw
  split
  · exact h
  · exact isNaN_zero

theorem forall_mem_resize {fromColumns fromRows columns rows : Nat}
    (h : ∀ v ∈ values, NumberKind.float.Holds v) :
    ∀ w ∈ Constant.resize values fromColumns fromRows columns rows, NumberKind.float.Holds w := by
  intro w hw
  simp only [Constant.resize, List.mem_flatMap, List.mem_map, List.mem_range] at hw
  obtain ⟨c, -, r, -, rfl⟩ := hw
  split_ifs
  · cases hentry : values[c * fromRows + r]? with
    | none => exact isNaN_zero
    | some v => exact h v (List.mem_of_getElem? hentry)
  · exact isNaN_one
  · exact isNaN_zero

theorem map_diagonal (columns rows : Nat) (v : Float) :
    (Constant.diagonal columns rows v).map (literalBits · .float) =
      (Matrix.diagonal ⟨columns, rows⟩ (literalBits v .float)).toList := by
  simp only [Constant.diagonal, Matrix.diagonal, Matrix.build, List.map_flatMap, List.map_map,
    Function.comp_def, apply_ite (literalBits · NumberKind.float), literalBits_zero]

theorem map_resize (values : List Float) (fromColumns fromRows columns rows : Nat) :
    (Constant.resize values fromColumns fromRows columns rows).map (literalBits · .float) =
      (Matrix.resize ⟨fromColumns, fromRows⟩ ⟨columns, rows⟩
        (values.map (literalBits · .float)).toArray).toList := by
  have hentry : ∀ i, literalBits (values[i]?.getD 0.0) .float =
      (values.map (literalBits · .float)).toArray.getD i 0 := by
    intro i
    rw [Array.getD_eq_getD_getElem?, List.getElem?_toArray, List.getElem?_map]
    cases values[i]? with
    | none => exact literalBits_zero
    | some v => rfl
  simp only [Constant.resize, Matrix.resize, Matrix.build, Matrix.entry, List.map_flatMap,
    List.map_map, Function.comp_def, apply_ite (literalBits · NumberKind.float), literalBits_zero,
    literalBits_one, hentry]

end RasterShader
