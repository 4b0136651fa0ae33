import Mathlib
import RasterShader.Proofs.Arithmetic.Conversion
import RasterShader.Proofs.Codegen.Replacing

/-!
# Casts of constants and casts at run time

A cast of a constant looks at the value and the kind it is cast to; the code of a cast looks at both
kinds, and between the two kinds of integers there is none.  So the two agree on all values that a
slot of the source kind can have, unless the cast of the constant has to keep an integer within the
bounds of the other kind, or an integer zero has a sign (`Operand.literalBits_cast_eq_iff`).
-/

namespace RasterShader

open Double Unpacked

namespace NumberKind

/-- A slot of the kind has exactly the value: a float of single precision, an integer of 32 bits, or
a truth value. -/
def Represents (kind : NumberKind) (v : Float) : Prop :=
  match kind with
  | .float => toSingle v = v
  | .signed | .unsigned => ∃ n, IsInt v n ∧ kind.InRange n
  | .boolean => v = 0.0 ∨ v = 1.0
  | .nonnumeric => False

/-- The values of which a constant is cast to another word than at run time: integers that the other
kind of integers does not have, and the zero with a sign, which no word of an integer has. -/
def CastDiffers (source target : NumberKind) (v : Float) : Prop :=
  match source, target with
  | .signed, .unsigned => v < 0.0
  | .unsigned, .signed => 2147483647.0 < v
  | .signed, .float | .unsigned, .float => v = -0.0
  | _, _ => False

/-- The word that the code of a cast makes of a word. -/
def convertWord (source target : NumberKind) (word : UInt32) : UInt32 :=
  match source, target with
  | .signed, .float => UnaryOp.castToFloatFromInt.eval .int word
  | .unsigned, .float => UnaryOp.castToFloatFromUint.eval .uint word
  | .float, .signed => UnaryOp.castToIntFromFloat.eval .float word
  | .float, .unsigned => UnaryOp.castToUintFromFloat.eval .float word
  | .boolean, .float | .boolean, .signed | .boolean, .unsigned =>
    BinaryOp.bitwiseAnd.eval .int word (literalBits 1.0 target)
  | .float, .boolean => BinaryOp.cmpNe.eval .float word 0
  | .signed, .boolean | .unsigned, .boolean => BinaryOp.cmpNe.eval .int word 0
  | _, _ => word

end NumberKind

namespace Operand

open NumberKind

/-- An operation with the same constant on the right of every word. -/
theorem replaces_binary_constant (op : BinaryOp) (ty : NumType) (bits : UInt32) {ws : List UInt32}
    {n : Nat} (hn : ws.length = n) :
    Replaces (Gen.build fun b => (b.pushConstant bits n).binary op ty n) ws
      (ws.map fun word => op.eval ty word bits) := by
  have hzip : List.zipWith (op.eval ty) ws (List.replicate n bits) =
      ws.map fun word => op.eval ty word bits := by
    subst hn
    induction ws with
    | nil => rfl
    | cons w ws ih => simpa [List.replicate_succ] using ih
  have hpush := (Builder.Turns.pushConstant bits n).below ws
  rw [List.append_nil] at hpush
  rw [← hzip]
  exact .build (hpush.comp (.binary op ty hn List.length_replicate))

/-- There is no code for a cast to the same kind. -/
theorem castTop_self (kind : NumberKind) (n : Nat) : castTop kind kind n = pure () := if_pos rfl

/-- The code of a cast converts every word. -/
theorem replaces_castTop {source target : NumberKind} (hsource : source ≠ .nonnumeric)
    (htarget : target ≠ .nonnumeric) {ws : List UInt32} {n : Nat} (hn : ws.length = n) :
    Replaces (castTop source target n) ws (ws.map (source.convertWord target)) := by
  have hid : Replaces (pure ()) ws (ws.map id) := by
    rw [List.map_id]
    exact .pure ws
  cases source with
  | float =>
    cases target with
    | float => exact hid
    | signed => exact .build (.unary _ _ hn)
    | unsigned => exact .build (.unary _ _ hn)
    | boolean => exact replaces_binary_constant .cmpNe .float 0 hn
    | nonnumeric => exact absurd rfl htarget
  | signed =>
    cases target with
    | float => exact .build (.unary _ _ hn)
    | signed | unsigned => exact hid
    | boolean => exact replaces_binary_constant .cmpNe .int 0 hn
    | nonnumeric => exact absurd rfl htarget
  | unsigned =>
    cases target with
    | float => exact .build (.unary _ _ hn)
    | signed | unsigned => exact hid
    | boolean => exact replaces_binary_constant .cmpNe .int 0 hn
    | nonnumeric => exact absurd rfl htarget
  | boolean =>
    cases target with
    | float | signed | unsigned => exact replaces_binary_constant .bitwiseAnd .int _ hn
    | boolean => exact hid
    | nonnumeric => exact absurd rfl htarget
  | nonnumeric => exact absurd rfl hsource

end Operand

namespace NumberKind

/-! ## Floats -/

variable {v : Float} {n : Int}

/-- A double of single precision is the number that its word stands for. -/
theorem unpacked_of_toSingle_eq (hv : toSingle v = v) :
    unpacked v = roundTo .binary64 (Word.unpacked (singleBits v)) := by
  conv_lhs => rw [← hv]
  exact unpacked_ofSingleBits _

theorem literalBits_cast_signed (hv : toSingle v = v) :
    literalBits (Constant.cast v .signed) .signed = Word.signedOfFloat (singleBits v) := by
  rw [literalBits_of_isInt (.inl rfl) (isInt_cast_signed v), Word.signedOfFloat_eq,
    unpacked_of_toSingle_eq hv,
    clampedPart_roundTo_binary64 (by decide) (by decide) (Word.canonical_unpacked _)]

theorem literalBits_cast_unsigned (hv : toSingle v = v) :
    literalBits (Constant.cast v .unsigned) .unsigned = Word.unsignedOfFloat (singleBits v) := by
  rw [literalBits_of_isInt (.inr rfl) (isInt_cast_unsigned v), Word.unsignedOfFloat_eq,
    unpacked_of_toSingle_eq hv,
    clampedPart_roundTo_binary64 (by decide) (by decide) (Word.canonical_unpacked _)]

theorem literalBits_cast_boolean (v : Float) :
    literalBits (Constant.cast v .boolean) .boolean = Word.ofBool (v != 0.0) := by
  rw [Constant.cast]
  cases v != 0.0 <;> decide +kernel

/-- A double of single precision is zero if its word is. -/
theorem beq_zero_of_toSingle_eq (hv : toSingle v = v) :
    (v == 0.0) = Word.feq (singleBits v) 0 := by
  have hdouble : (v == 0.0) = (unpacked v).beq (.zero .positive) := rfl
  have hword : Word.feq (singleBits v) 0 =
      (Word.unpacked (singleBits v)).beq (.zero .positive) := by
    rw [← Word.unpack_toModel_ofBits]
    rfl
  rw [hdouble, hword, Bool.eq_iff_iff, beq_zero_iff, beq_zero_iff, unpacked_of_toSingle_eq hv,
    isZero_roundTo_binary64 (Word.canonical_unpacked _)]

/-! ## Integers -/

/-- An integer is cast to single precision as a word of it is, unless it is the zero with a
sign. -/
theorem singleBits_eq_iff (hv : IsInt v n) :
    singleBits v = UInt32.ofBitVec ((roundTo .binary32
      (ofInteger (Unpacked.signOf n) n.natAbs)).pack .binary32) ↔ v ≠ -0.0 := by
  have hnegative : unpacked (-0.0) = .zero .negative := unpacked_neg 0.0
  constructor
  · rintro h rfl
    obtain rfl : n = 0 := hv.unique (isInt_neg isInt_zero)
    rw [singleBits_eq, hnegative] at h
    revert h
    decide
  · intro hne
    rw [singleBits_eq]
    obtain h | ⟨-, h⟩ := hv.2
    · rw [h]
    · exact absurd (unpacked_injective (h.trans hnegative.symm)) hne

theorem literalBits_cast_float (v : Float) :
    literalBits (Constant.cast v .float) .float = singleBits v := singleBits_toSingle v

/-- Between kinds of integers a constant is kept within bounds, and has the word that it had only if
the other kind has the integer, too. -/
theorem literalBits_cast_integer {source target : NumberKind} (htarget : target.IsInteger)
    (hv : IsInt v n) (hn : source.InRange n) :
    literalBits (Constant.cast v target) target = Word.ofInt n ↔ target.InRange n := by
  obtain rfl | rfl := htarget
  · have hcast := isInt_cast_signed v
    rw [clampedPart_of_isInt hv (by decide) (by decide)] at hcast
    rw [literalBits_of_isInt (.inl rfl) hcast, Word.ofInt_eq_ofInt_iff]
    cases source <;> simp only [InRange] at hn ⊢ <;> omega
  · have hcast := isInt_cast_unsigned v
    rw [clampedPart_of_isInt hv (by decide) (by decide)] at hcast
    rw [literalBits_of_isInt (.inr rfl) hcast, Word.ofInt_eq_ofInt_iff]
    cases source <;> simp only [InRange] at hn ⊢ <;> omega

theorem bne_zero_of_isInt {source : NumberKind} (hv : IsInt v n) (hn : source.InRange n) :
    Word.ofBool (v != 0.0) = BinaryOp.cmpNe.eval .int (Word.ofInt n) 0 := by
  have hzero : source.InRange 0 := by cases source <;> simp [InRange] at hn ⊢
  have hword : Word.ofInt n = 0 ↔ n = 0 := Word.ofInt_inj hn hzero
  have hvalue : (v != 0.0) = !decide (n = 0) := congrArg (!·) (beq_zero hv)
  rw [hvalue]
  simp [BinaryOp.eval, BinaryOp.evalInt, hword]

/-! ## Booleans -/

theorem literalBits_cast_of_boolean {target : NumberKind} (htarget : target ≠ .nonnumeric)
    (hv : v = 0.0 ∨ v = 1.0) :
    literalBits (Constant.cast v target) target =
      NumberKind.boolean.convertWord target (literalBits v .boolean) := by
  obtain rfl | rfl := hv <;> cases target <;> first | decide +kernel | exact absurd rfl htarget

/-! ## All kinds -/

/-- The word of a constant that has been cast is the converted word, but for the values at which
casts differ. -/
theorem literalBits_cast_iff {source target : NumberKind} (htarget : target ≠ .nonnumeric)
    (hv : source.Represents v) :
    literalBits (Constant.cast v target) target =
        source.convertWord target (literalBits v source) ↔ ¬source.CastDiffers target v := by
  have agrees : ∀ {p q : UInt32}, p = q → (p = q ↔ ¬False) := fun h => ⟨fun _ => id, fun _ => h⟩
  cases source with
  | float =>
    cases target with
    | float => exact agrees (singleBits_toSingle v)
    | signed => exact agrees (literalBits_cast_signed hv)
    | unsigned => exact agrees (literalBits_cast_unsigned hv)
    | boolean =>
      refine agrees ((literalBits_cast_boolean v).trans ?_)
      exact congrArg (fun b => Word.ofBool !b) (beq_zero_of_toSingle_eq hv)
    | nonnumeric => exact absurd rfl htarget
  | signed =>
    obtain ⟨n, hv, hn⟩ := hv
    have hword : literalBits v .signed = Word.ofInt n := literalBits_of_isInt (.inl rfl) hv
    rw [hword]
    cases target with
    | float =>
      rw [literalBits_cast_float, convertWord, UnaryOp.eval, Word.floatOfSigned_ofInt hn]
      exact singleBits_eq_iff hv
    | signed => exact agrees ((literalBits_cast_integer (.inl rfl) hv hn).2 hn)
    | unsigned =>
      refine (literalBits_cast_integer (.inr rfl) hv hn).trans ?_
      rw [CastDiffers, lt_iff hv isInt_zero]
      simp only [InRange] at hn ⊢
      omega
    | boolean => exact agrees ((literalBits_cast_boolean v).trans (bne_zero_of_isInt hv hn))
    | nonnumeric => exact absurd rfl htarget
  | unsigned =>
    obtain ⟨n, hv, hn⟩ := hv
    have hword : literalBits v .unsigned = Word.ofInt n := literalBits_of_isInt (.inr rfl) hv
    rw [hword]
    cases target with
    | float =>
      rw [literalBits_cast_float, convertWord, UnaryOp.eval, Word.toBits_toFloat32_ofInt hn]
      exact singleBits_eq_iff hv
    | signed =>
      have hbound : IsInt 2147483647.0 2147483647 := ⟨by decide, .inl rfl⟩
      refine (literalBits_cast_integer (.inl rfl) hv hn).trans ?_
      rw [CastDiffers, lt_iff hbound hv]
      simp only [InRange] at hn ⊢
      omega
    | unsigned => exact agrees ((literalBits_cast_integer (.inr rfl) hv hn).2 hn)
    | boolean => exact agrees ((literalBits_cast_boolean v).trans (bne_zero_of_isInt hv hn))
    | nonnumeric => exact absurd rfl htarget
  | boolean =>
    have hcast := literalBits_cast_of_boolean htarget hv
    cases target with
    | nonnumeric => exact absurd rfl htarget
    | _ => exact agrees hcast
  | nonnumeric => exact hv.elim

end NumberKind

namespace Operand

open NumberKind

/-- The code of a cast makes one word of the word of a value, and a constant cast of the value has
that word unless it is one of the values at which casts differ. -/
theorem literalBits_cast_eq_iff {source target : NumberKind} (htarget : target ≠ .nonnumeric)
    {v : Float} (hv : source.Represents v) :
    ∃ word, Replaces (castTop source target 1) [literalBits v source] [word] ∧
      (literalBits (Constant.cast v target) target = word ↔ ¬source.CastDiffers target v) := by
  have hsource : source ≠ .nonnumeric := by
    rintro rfl
    exact hv
  exact ⟨_, replaces_castTop hsource htarget rfl, literalBits_cast_iff htarget hv⟩

/-- The integer -1 becomes a float either way. -/
theorem literalBits_cast_eq_iff_minus_one :
    NumberKind.float ≠ .nonnumeric ∧ NumberKind.signed.Represents (-1.0) ∧
      ∃ word, Replaces (castTop .signed .float 1) [literalBits (-1.0) .signed] [word] ∧
        (literalBits (Constant.cast (-1.0) .float) .float = word ↔
          ¬NumberKind.signed.CastDiffers .float (-1.0)) := by
  have hv : NumberKind.signed.Represents (-1.0) := ⟨-1, isInt_neg isInt_one, by decide⟩
  exact ⟨by decide, hv, literalBits_cast_eq_iff (by decide) hv⟩

/-- A constant -1 is cast to the unsigned integer zero, where the word of -1 stays as it is at run
time. -/
theorem castTop_keeps_minus_one :
    NumberKind.signed.Represents (-1.0) ∧
      Replaces (castTop .signed .unsigned 1) [literalBits (-1.0) .signed] [0xFFFFFFFF] ∧
      literalBits (Constant.cast (-1.0) .unsigned) .unsigned = 0 := by
  have hone : IsInt (-1.0) (-1) := isInt_neg isInt_one
  have hbits : literalBits (-1.0) .signed = 0xFFFFFFFF := literalBits_of_isInt (.inl rfl) hone
  refine ⟨⟨-1, hone, by decide⟩, ?_, ?_⟩
  · rw [hbits]
    exact .pure _
  · have hcast := isInt_cast_unsigned (-1.0)
    rw [clampedPart_of_isInt hone (by decide) (by decide)] at hcast
    exact literalBits_of_isInt (.inr rfl) hcast

end Operand

end RasterShader
