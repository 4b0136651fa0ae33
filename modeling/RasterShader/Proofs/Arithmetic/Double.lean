import Mathlib
import RasterShader.Arithmetic.Word
import RasterShader.Proofs.Arithmetic.Formats

/-!
# Doubles and single-precision floats

A double is what its bits stand for (`Double.unpacked`), and every double is written as its format
has it.  Taking a double to a word rounds it to single precision (`Double.singleBits_eq`), a word is
the same number as a double (`Double.unpacked_ofSingleBits`), and so rounding twice is rounding once
(`Double.singleBits_toSingle`).
-/

namespace RasterShader

open Float.Model (Format UnpackedFloat)
open Float.Model.UnpackedFloat (Sign)

/-! ## Signs -/

namespace Unpacked

theorem neg_ofSignificand (s : Sign) (m : Nat) (e : Int) :
    (ofSignificand s m e).neg = ofSignificand (-s) m e := by
  unfold ofSignificand
  split <;> rfl

theorem round_neg (spec : Format) (s : Sign) {m : Nat} (hm : m ≠ 0) (e : Int) :
    UnpackedFloat.round spec (-s) m e = (UnpackedFloat.round spec s m e).neg := by
  rw [round_eq spec (-s) hm, round_eq spec s hm]
  split <;> exact (neg_ofSignificand ..).symm

theorem roundTo_neg (spec : Format) (x : UnpackedFloat) :
    roundTo spec x.neg = (roundTo spec x).neg := by
  cases x with
  | finite s m e hm => exact round_neg spec s (Nat.ne_of_gt hm) e
  | _ => rfl

theorem canonical_neg {spec : Format} {x : UnpackedFloat} (h : Canonical spec x) :
    Canonical spec x.neg := by
  cases x with
  | finite s m e hm => exact h
  | _ => trivial

/-- Flipping the sign of a packed float flips its first bit. -/
theorem packComponents_neg (s : Sign) (e : BitVec 8) (m : BitVec 23) :
    UnpackedFloat.packComponents Format.binary32 (-s) e m =
      UnpackedFloat.packComponents Format.binary32 s e m ^^^ 0x80000000#32 := by
  have hsplit : (0x80000000#32) = (1#1 ++ 0#8) ++ 0#23 := by decide
  have hsign : (-s).toBitVec = s.toBitVec ^^^ 1#1 := by cases s <;> rfl
  unfold UnpackedFloat.packComponents
  rw [hsplit, BitVec.xor_append, BitVec.xor_append, hsign, BitVec.xor_zero, BitVec.xor_zero]

theorem pack_neg {x : UnpackedFloat} (h : x ≠ .notANumber) :
    x.neg.pack Format.binary32 = x.pack Format.binary32 ^^^ 0x80000000#32 := by
  cases x with
  | notANumber => exact absurd rfl h
  | infinity s => exact packComponents_neg ..
  | zero s => exact packComponents_neg ..
  | finite s m e hm =>
    simp only [UnpackedFloat.neg, UnpackedFloat.pack, UnpackedFloat.packedInfinity]
    split
    · exact packComponents_neg ..
    · split <;> exact packComponents_neg ..

theorem ofSignificand_ne_notANumber (s : Sign) (m : Nat) (e : Int) :
    ofSignificand s m e ≠ .notANumber := by
  unfold ofSignificand
  split <;> simp

theorem roundTo_ne_notANumber {spec : Format} {x : UnpackedFloat} (h : x ≠ .notANumber) :
    roundTo spec x ≠ .notANumber := by
  cases x with
  | notANumber => exact absurd rfl h
  | finite s m e hm =>
    rw [roundTo, round_eq _ _ (Nat.ne_of_gt hm)]
    split <;> apply ofSignificand_ne_notANumber
  | _ => exact h

/-- The fields of a NaN. -/
theorem special_of_unpack_eq_notANumber {spec : Format} {b : BitVec spec.numBits}
    (h : UnpackedFloat.unpack spec b = .notANumber) :
    (UnpackedFloat.unpackExponent b).toNat = 2 ^ spec.exponentBits - 1 ∧
      (UnpackedFloat.unpackMantissa b).toNat ≠ 0 := by
  rw [unpack_eq] at h
  split at h
  · rename_i hexponent
    split at h
    · cases h
    · rename_i hmantissa
      exact ⟨hexponent, hmantissa⟩
  · split at h <;> exact absurd h (ofSignificand_ne_notANumber _ _ _)

/-- Packing makes no NaN of a number; one with too large an exponent becomes infinite. -/
theorem unpack_pack_ne_notANumber {spec : Format} (wide : 2 ≤ spec.exponentBits) {x : UnpackedFloat}
    (h : x ≠ .notANumber) : UnpackedFloat.unpack spec (x.pack spec) ≠ .notANumber := by
  have hfour : 2 ^ 2 ≤ 2 ^ spec.exponentBits := Nat.pow_le_pow_right (by decide) wide
  intro hnan
  obtain ⟨hexponent, hmantissa⟩ := special_of_unpack_eq_notANumber hnan
  cases x with
  | notANumber => exact h rfl
  | infinity s => simp [UnpackedFloat.pack, UnpackedFloat.packedInfinity] at hmantissa
  | zero s => simp [UnpackedFloat.pack, UnpackedFloat.packedZero] at hmantissa
  | finite s m e hm =>
    simp only [UnpackedFloat.pack] at hexponent hmantissa
    split at hexponent
    · rename_i hlarge
      simp [hlarge, UnpackedFloat.packedInfinity] at hmantissa
    · rename_i hfield
      split at hexponent <;>
        simp only [UnpackedFloat.unpackExponent_packComponents, BitVec.toNat_ofNat] at hexponent
      · rw [Nat.mod_eq_of_lt (by omega)] at hexponent
        omega
      · rw [Nat.zero_mod] at hexponent
        omega

/-! ## From single to double precision and back -/

/-- A number of single precision is written with more digits in double precision. -/
theorem exists_canonical_binary64 {m : Nat} {e : Int} (hm : m ≠ 0)
    (canonical : exponentOf Format.binary32 m e = e)
    (hbound : e - Format.binary32.minExponent + 2 < (2 ^ Format.binary32.exponentBits : Nat)) :
    ∃ j : Nat, exponentOf Format.binary64 (m * 2 ^ j) (e - j) = e - j ∧
      e - j - Format.binary64.minExponent + 2 < (2 ^ Format.binary64.exponentBits : Nat) := by
  have hlt := lt_of_canonical canonical
  have hlog : m.log2 < 24 := (Nat.log2_lt hm).2 hlt
  have hleast := minExponent_le_of_canonical canonical
  have hmin32 : Format.binary32.minExponent = -149 := rfl
  have hmin64 : Format.binary64.minExponent = -1074 := rfl
  have hbits : Format.binary64.mantissaBits = 53 := rfl
  rw [hmin32] at hleast hbound
  refine ⟨52 - m.log2, ?_, ?_⟩
  · rw [exponentOf_mul_pow _ hm, exponentOf_eq, hbits, hmin64]
    omega
  · rw [hmin64]
    norm_num at hbound ⊢
    omega

theorem roundTo_binary64 {x : UnpackedFloat} (canonical : Canonical Format.binary32 x) :
    Canonical Format.binary64 (roundTo Format.binary64 x) ∧
      roundTo Format.binary32 (roundTo Format.binary64 x) = x := by
  cases x with
  | finite s m e hm =>
    have hne : m ≠ 0 := Nat.ne_of_gt hm
    obtain ⟨j, canonical', hbound'⟩ := exists_canonical_binary64 hne canonical.1 canonical.2
    have hne' : m * 2 ^ j ≠ 0 := Nat.mul_ne_zero hne (Nat.two_pow_pos j).ne'
    have hround : roundTo Format.binary64 (.finite s m e hm) = ofSignificand s (m * 2 ^ j) (e - j) :=
      round_of_mul_pow_eq s (a := j) (b := 0) hne' canonical' (by simp) (by simp)
    rw [hround]
    refine ⟨canonical_ofSignificand fun _ => ⟨canonical', hbound'⟩, ?_⟩
    rw [roundTo_ofSignificand, if_neg hne',
      round_of_mul_pow_eq s (a := 0) (b := j) hne canonical.1 (by simp) (by simp),
      ofSignificand, dif_neg hne]
  | _ => exact ⟨trivial, rfl⟩

end Unpacked

/-! ## Doubles -/

namespace Double

/-- What the bits of a double stand for. -/
def unpacked (x : Float) : UnpackedFloat := x.toModel.unpack

theorem canonical_unpacked (x : Float) : Unpacked.Canonical Format.binary64 (unpacked x) :=
  Unpacked.canonical_unpack (by decide) _

theorem ofModel_pack_unpacked (x : Float) : Float.ofModel (.pack (unpacked x)) = x := by
  have hbits : UInt64.ofBitVec ((unpacked x).pack Format.binary64) = x.toModel.toBits :=
    congrArg UInt64.ofBitVec (Unpacked.pack_unpack (by decide) x.toModel.valid)
  cases x with
  | ofModel model =>
    cases model with
    | mk bits valid =>
      simp only [Float.Model.pack]
      congr

theorem unpacked_ofModel_pack {x : UnpackedFloat} (h : Unpacked.Canonical Format.binary64 x) :
    unpacked (Float.ofModel (.pack x)) = x :=
  Unpacked.unpack_pack (by decide) h

/-- Doubles are told apart by what they stand for. -/
theorem unpacked_injective {x y : Float} (h : unpacked x = unpacked y) : x = y := by
  rw [← ofModel_pack_unpacked x, ← ofModel_pack_unpacked y, h]

theorem unpacked_ofBits (bits : UInt64) :
    unpacked (Float.ofBits bits) = UnpackedFloat.unpack Format.binary64 bits.toBitVec :=
  Unpacked.unpack_pack (by decide) (Unpacked.canonical_unpack (by decide) _)

theorem unpacked_neg (x : Float) : unpacked (-x) = (unpacked x).neg :=
  unpacked_ofModel_pack (Unpacked.canonical_neg (canonical_unpacked x))

/-- The word of a double is that of the double rounded to single precision. -/
theorem singleBits_eq (x : Float) :
    singleBits x = UInt32.ofBitVec
      ((Unpacked.roundTo Format.binary32 (unpacked x)).pack Format.binary32) := by
  have hconvert := @BinaryFormat.convert_ofSpec Format.binary64 Format.binary32 (by decide)
    x.toModel.toBits.toBitVec
  apply UInt32.eq_of_toBitVec_eq
  apply BitVec.eq_of_toNat_eq
  have hlt := ((Unpacked.roundTo Format.binary32 (unpacked x)).pack Format.binary32).isLt
  unfold unpacked Float.Model.unpack at hlt ⊢
  rw [← hconvert] at hlt ⊢
  exact Nat.mod_eq_of_lt hlt

/-- A word is the same number as a double. -/
theorem unpacked_ofSingleBits (bits : UInt32) :
    unpacked (ofSingleBits bits) =
      Unpacked.roundTo Format.binary64 (UnpackedFloat.unpack Format.binary32 bits.toBitVec) := by
  have hconvert := @BinaryFormat.convert_ofSpec Format.binary32 Format.binary64 (by decide)
    bits.toBitVec
  have hcanonical := (Unpacked.roundTo_binary64
    (@Unpacked.canonical_unpack Format.binary32 (by decide) bits.toBitVec)).1
  have hbits : (BinaryFormat.convert .single .double bits.toNat).toUInt64.toBitVec =
      (Unpacked.roundTo Format.binary64
        (UnpackedFloat.unpack Format.binary32 bits.toBitVec)).pack Format.binary64 := by
    apply BitVec.eq_of_toNat_eq
    have hlt := ((Unpacked.roundTo Format.binary64
      (UnpackedFloat.unpack Format.binary32 bits.toBitVec)).pack Format.binary64).isLt
    rw [← hconvert] at hlt ⊢
    exact Nat.mod_eq_of_lt hlt
  rw [ofSingleBits, unpacked_ofBits, hbits, Unpacked.unpack_pack (by decide) hcanonical]

theorem singleBits_ofSingleBits (bits : UInt32) :
    singleBits (ofSingleBits bits) = UInt32.ofBitVec
      ((UnpackedFloat.unpack Format.binary32 bits.toBitVec).pack Format.binary32) := by
  rw [singleBits_eq, unpacked_ofSingleBits, (Unpacked.roundTo_binary64
    (@Unpacked.canonical_unpack Format.binary32 (by decide) bits.toBitVec)).2]

/-- A double that is rounded to single precision has the word that it had. -/
@[simp] theorem singleBits_toSingle (x : Float) : singleBits (toSingle x) = singleBits x := by
  rw [toSingle, singleBits_ofSingleBits, singleBits_eq, UInt32.toBitVec_ofBitVec,
    Unpacked.pack_unpack (by decide) UnpackedFloat.valid_pack]

/-- A double is a number if it is no NaN. -/
theorem isNaN_eq_false_iff (x : Float) : x.isNaN = false ↔ unpacked x ≠ .notANumber := by
  have h : x.isNaN = (unpacked x).isNaN := rfl
  rw [h]
  cases unpacked x <;> simp [UnpackedFloat.isNaN]

theorem isNaN_neg (x : Float) : (-x).isNaN = x.isNaN := by
  have h : ∀ y : Float, y.isNaN = (unpacked y).isNaN := fun _ => rfl
  rw [h, h, unpacked_neg]
  cases unpacked x <;> rfl

/-- Numbers are rounded to numbers. -/
theorem isNaN_toSingle {x : Float} (h : x.isNaN = false) : (toSingle x).isNaN = false := by
  rw [isNaN_eq_false_iff] at h ⊢
  rw [toSingle, unpacked_ofSingleBits, singleBits_eq, UInt32.toBitVec_ofBitVec]
  refine Unpacked.roundTo_ne_notANumber (Unpacked.unpack_pack_ne_notANumber (by decide) ?_)
  exact Unpacked.roundTo_ne_notANumber h

/-- The word of a number with the sign flipped is the word with the sign flipped. -/
theorem singleBits_neg {x : Float} (h : x.isNaN = false) :
    singleBits (-x) = Word.fneg (singleBits x) := by
  have hround := @Unpacked.roundTo_ne_notANumber Format.binary32 _
    ((isNaN_eq_false_iff x).1 h)
  rw [singleBits_eq, singleBits_eq, unpacked_neg, Unpacked.roundTo_neg, Unpacked.pack_neg hround]
  rfl

end Double

end RasterShader
