import Mathlib
import RasterShader.Constant.Value
import RasterShader.Proofs.Arithmetic.Integer
import RasterShader.Proofs.Constant.Kinds

/-!
# Conversions between floats and integers

The machine converts words, and casts of constants convert doubles.  Both truncate a float to the
integer `Unpacked.clampedPart` of what it stands for, which does not depend on the format that the
float is written in.  An integer is rounded to single precision whether it is taken from a word or
from the double that holds it.
-/

namespace RasterShader

open Float.Model (Format UnpackedFloat)
open Float.Model.UnpackedFloat (Sign)

/-! ## Integer parts between bounds -/

namespace Unpacked

/-- The integer part of a float, between bounds; that of a NaN is zero. -/
def clampedPart (lo hi : Int) : UnpackedFloat → Int
  | .notANumber => 0
  | .infinity .positive => hi
  | .infinity .negative => lo
  | .zero _ => 0
  | .finite s m e _ => max lo (min hi (s.apply (wholePart m e)))

theorem clampedPart_ofSignificand {lo hi : Int} (hlo : lo ≤ 0) (hhi : 0 ≤ hi) (s : Sign) (m : Nat)
    (e : Int) :
    clampedPart lo hi (ofSignificand s m e) = max lo (min hi (s.apply (wholePart m e))) := by
  unfold ofSignificand
  split
  · rename_i hm
    subst hm
    have hwhole : wholePart 0 e = 0 := by simp [wholePart]
    rw [hwhole]
    cases s <;> simp only [clampedPart, Sign.apply] <;> omega
  · rfl

/-- A number of single precision has the same digits in double precision. -/
theorem exists_roundTo_binary64 {s : Sign} {m : Nat} {e : Int} {hm : 0 < m}
    (canonical : Canonical Format.binary32 (.finite s m e hm)) :
    ∃ j : Nat, roundTo Format.binary64 (.finite s m e hm) = ofSignificand s (m * 2 ^ j) (e - j) := by
  obtain ⟨j, canonical', -⟩ :=
    exists_canonical_binary64 (Nat.ne_of_gt hm) canonical.1 canonical.2
  exact ⟨j, round_of_mul_pow_eq s (a := j) (b := 0)
    (Nat.mul_ne_zero (Nat.ne_of_gt hm) (Nat.two_pow_pos j).ne') canonical' (by simp) (by simp)⟩

theorem clampedPart_roundTo_binary64 {lo hi : Int} (hlo : lo ≤ 0) (hhi : 0 ≤ hi)
    {x : UnpackedFloat} (canonical : Canonical Format.binary32 x) :
    clampedPart lo hi (roundTo Format.binary64 x) = clampedPart lo hi x := by
  cases x with
  | finite s m e hm =>
    obtain ⟨j, hround⟩ := exists_roundTo_binary64 canonical
    rw [hround, clampedPart_ofSignificand hlo hhi, wholePart_mul_pow]
    rfl
  | _ => rfl

/-- A float is one of the two zeros. -/
def IsZero (x : UnpackedFloat) : Prop := ∃ s, x = .zero s

theorem isZero_roundTo_binary64 {x : UnpackedFloat} (canonical : Canonical Format.binary32 x) :
    IsZero (roundTo Format.binary64 x) ↔ IsZero x := by
  cases x with
  | finite s m e hm =>
    obtain ⟨j, hround⟩ := exists_roundTo_binary64 canonical
    have hne : m * 2 ^ j ≠ 0 := Nat.mul_ne_zero (Nat.ne_of_gt hm) (Nat.two_pow_pos j).ne'
    rw [hround, ofSignificand, dif_neg hne]
    simp [IsZero]
  | _ => exact Iff.rfl

theorem beq_zero_iff (x : UnpackedFloat) (s : Sign) : x.beq (.zero s) = true ↔ IsZero x := by
  rcases x with (_ | _) | _ | _ | ⟨_ | _, m, e, hm⟩ <;> simp [UnpackedFloat.beq, IsZero,
    UnpackedFloat.compare]

/-- A float is no NaN, and has a given sign. -/
def HasSign (s : Sign) : UnpackedFloat → Prop
  | .notANumber => True
  | .infinity t | .zero t | .finite t _ _ _ => t = s

theorem hasSign_ofSignificand (s : Sign) (m : Nat) (e : Int) : HasSign s (ofSignificand s m e) := by
  unfold ofSignificand
  split <;> exact rfl

theorem hasSign_unpack {spec : Format} (b : BitVec spec.numBits) :
    HasSign (.ofBitVec (UnpackedFloat.unpackSign b)) (UnpackedFloat.unpack spec b) := by
  rw [unpack_eq]
  split
  · split
    · exact rfl
    · trivial
  · split <;> exact hasSign_ofSignificand ..

/-- A common power of two of the digits does not matter when a number is rounded. -/
theorem round_mul_pow (spec : Format) (s : Sign) {m : Nat} (hm : m ≠ 0) (k : Nat) (e : Int) :
    UnpackedFloat.round spec s (m * 2 ^ k) (e - k) = UnpackedFloat.round spec s m e := by
  have hne : m * 2 ^ k ≠ 0 := Nat.mul_ne_zero hm (Nat.two_pow_pos k).ne'
  have hsignificand : ∀ t, significandAt (m * 2 ^ k) (e - k) t = significandAt m e t := by
    intro t
    rw [significandAt, Nat.mul_assoc, ← Nat.pow_add]
    exact roundHalfEven_pow m (by push_cast; omega)
  rw [round_eq spec s hne, round_eq spec s hm, exponentOf_mul_pow spec hm, hsignificand]

/-- An integer is rounded to a format by its digits, whatever their number. -/
theorem roundTo_ofInteger (spec : Format) (s : Sign) (n : Nat) :
    roundTo spec (ofInteger s n) = if n = 0 then .zero s else UnpackedFloat.round spec s n 0 := by
  have hzero : n * 2 ^ (52 - n.log2) = 0 ↔ n = 0 := by
    rw [Nat.mul_eq_zero, or_iff_left (Nat.two_pow_pos _).ne']
  rw [ofInteger, roundTo_ofSignificand]
  simp only [hzero]
  split
  · rfl
  · rename_i hn
    have := round_mul_pow spec s hn (52 - n.log2) 0
    rwa [zero_sub] at this

end Unpacked

/-! ## Words -/

namespace Word

open Unpacked

/-- What the bits of a word stand for. -/
def unpacked (x : UInt32) : UnpackedFloat := UnpackedFloat.unpack Format.binary32 x.toBitVec

theorem canonical_unpacked (x : UInt32) : Canonical Format.binary32 (unpacked x) :=
  canonical_unpack (by decide) _

theorem unpack_toModel_ofBits (x : UInt32) : (Float32.ofBits x).toModel.unpack = unpacked x := by
  exact (unpack_ofBits x).trans (unpack_pack (by decide) (canonical_unpacked x))

theorem toNat_magnitude (x : UInt32) : (magnitude x).toNat = x.toNat % 2 ^ 31 := by
  rw [magnitude, UInt32.toNat_and]
  exact Nat.and_two_pow_sub_one_eq_mod x.toNat 31

theorem isNegative_eq (x : UInt32) : isNegative x = decide (2 ^ 31 ≤ x.toNat) := by
  have hlt := x.toNat_lt
  have hand : (x &&& signBit).toNat = (x.toNat.testBit 31).toNat * 2 ^ 31 := by
    rw [UInt32.toNat_and]
    exact Nat.and_two_pow x.toNat 31
  have hne : x &&& signBit ≠ 0 ↔ 2 ^ 31 ≤ x.toNat := by
    rw [ne_eq, ← UInt32.toNat_inj, hand, Nat.testBit_eq_decide_div_mod_eq]
    by_cases hbit : x.toNat / 2 ^ 31 % 2 = 1
    · simp only [hbit, decide_true]
      simp
      omega
    · simp only [hbit, decide_false]
      simp
      omega
  rw [isNegative, Bool.eq_iff_iff, bne_iff_ne, decide_eq_true_eq, hne]

/-- The sign of a word. -/
def signOf (x : UInt32) : Sign := if isNegative x then .negative else .positive

theorem ofBitVec_unpackSign (x : UInt32) :
    .ofBitVec (@UnpackedFloat.unpackSign Format.binary32 x.toBitVec) = signOf x := by
  have hlt := x.toNat_lt
  have hsign : (@UnpackedFloat.unpackSign Format.binary32 x.toBitVec).toNat =
      x.toNat / 2 ^ 23 / 2 ^ 8 := @toNat_unpackSign Format.binary32 x.toBitVec
  rw [signOf, isNegative_eq]
  obtain h | h := BitVec.eq_zero_or_eq_one
    (@UnpackedFloat.unpackSign Format.binary32 x.toBitVec) <;> rw [h] at hsign ⊢
  · have hsmall : ¬2 ^ 31 ≤ x.toNat := by
      have : (0#1).toNat = 0 := rfl
      omega
    rw [decide_eq_false hsmall]
    rfl
  · have hlarge : 2 ^ 31 ≤ x.toNat := by
      have : (1#1).toNat = 1 := rfl
      omega
    rw [decide_eq_true hlarge]
    rfl

/-- What a word stands for, in terms of its fields. -/
theorem unpacked_eq (x : UInt32) :
    unpacked x =
      if x.toNat / 2 ^ 23 % 2 ^ 8 = 2 ^ 8 - 1 then
        if x.toNat % 2 ^ 23 = 0 then .infinity (signOf x) else .notANumber
      else if x.toNat / 2 ^ 23 % 2 ^ 8 = 0 then
        ofSignificand (signOf x) (x.toNat % 2 ^ 23) (-149)
      else
        ofSignificand (signOf x) (2 ^ 23 + x.toNat % 2 ^ 23)
          (-149 + ((x.toNat / 2 ^ 23 % 2 ^ 8 : Nat) - 1)) := by
  have hexponent := @toNat_unpackExponent Format.binary32 x.toBitVec
  have hmantissa := @toNat_unpackMantissa Format.binary32 x.toBitVec
  rw [unpacked, unpack_eq, hexponent, hmantissa, ofBitVec_unpackSign]
  rfl

theorem isNaN_iff (x : UInt32) : isNaN x = true ↔ unpacked x = .notANumber := by
  have hnan : isNaN x = true ↔ 0x7F800000 < x.toNat % 2 ^ 31 := by
    rw [isNaN, decide_eq_true_eq, UInt32.lt_iff_toNat_lt, toNat_magnitude]
    rfl
  rw [hnan, unpacked_eq]
  split
  · split
    · simp
      omega
    · simp
      omega
  · have hne : ∀ s m e, ofSignificand s m e ≠ .notANumber := ofSignificand_ne_notANumber
    split <;> simp [hne] <;> omega

theorem abs_ofSignificand (s : Sign) (m : Nat) (e : Int) :
    (ofSignificand s m e).abs = ofSignificand .positive m e := by
  unfold ofSignificand
  split <;> rfl

theorem unpacked_magnitude (x : UInt32) : unpacked (magnitude x) = (unpacked x).abs := by
  have hsign : signOf (magnitude x) = .positive := by
    rw [signOf, isNegative_eq, toNat_magnitude, decide_eq_false (by omega)]
    rfl
  have hexponent : x.toNat % 2 ^ 31 / 2 ^ 23 % 2 ^ 8 = x.toNat / 2 ^ 23 % 2 ^ 8 := by omega
  have hmantissa : x.toNat % 2 ^ 31 % 2 ^ 23 = x.toNat % 2 ^ 23 := by omega
  rw [unpacked_eq, unpacked_eq x, hsign, toNat_magnitude, hexponent, hmantissa]
  split
  · split <;> rfl
  · split <;> exact (abs_ofSignificand ..).symm

/-- A word is a float of its sign, if it is a number. -/
theorem hasSign_unpacked (x : UInt32) : HasSign (signOf x) (unpacked x) :=
  ofBitVec_unpackSign x ▸ hasSign_unpack _

/-! ## Truncation by the machine -/

theorem toNat_ofNatClamp (n : Nat) : (UInt32.ofNatClamp n).toNat = min n (2 ^ 32 - 1) := by
  unfold UInt32.ofNatClamp
  have hsize : UInt32.size = 2 ^ 32 := rfl
  split <;> simp only [UInt32.toNat_ofNatLT] <;> omega

theorem toNat_toUInt32 (x : UInt32) :
    ((Float32.ofBits x).toUInt32.toNat : Int) = clampedPart 0 4294967295 (unpacked x) := by
  have hclamp : (Float32.ofBits x).toUInt32 =
      UInt32.ofNatClamp (UnpackedFloat.toInt 0 4294967295 (unpacked x)).toNat := by
    rw [← unpack_toModel_ofBits]
    rfl
  rw [hclamp, toNat_ofNatClamp]
  rcases unpacked x with (_ | _) | _ | _ | ⟨s, m, e, hm⟩ <;>
    simp only [UnpackedFloat.toInt, clampedPart, roundToInt_eq] <;> omega

theorem unsignedOfFloat_eq (x : UInt32) :
    unsignedOfFloat x = ofInt (clampedPart 0 4294967295 (unpacked x)) := by
  rw [unsignedOfFloat]
  split
  · rename_i hnan
    rw [(isNaN_iff x).1 hnan]
    rfl
  · have hlt := (Float32.ofBits x).toUInt32.toNat_lt
    apply UInt32.toNat_inj.1
    rw [← Int.natCast_inj, toNat_ofInt_eq_emod, ← toNat_toUInt32]
    omega

theorem signedOfFloat_eq (x : UInt32) :
    signedOfFloat x = ofInt (clampedPart (-2147483648) 2147483647 (unpacked x)) := by
  rw [signedOfFloat]
  split
  · rename_i hnan
    rw [(isNaN_iff x).1 hnan]
    rfl
  · have hsize := toNat_toUInt32 (magnitude x)
    rw [unpacked_magnitude] at hsize
    set size := (Float32.ofBits (magnitude x)).toUInt32
    have hmin : ∀ k : UInt32, (min size k).toNat = min size.toNat k.toNat := by
      intro k
      have hdef : min size k = if size ≤ k then size else k := rfl
      rw [hdef, min_def, apply_ite UInt32.toNat]
      rfl
    have hsign := hasSign_unpacked x
    apply UInt32.toNat_inj.1
    rw [← Int.natCast_inj, toNat_ofInt_eq_emod]
    cases hnegative : isNegative x with
    | true =>
      rw [signOf, hnegative] at hsign
      simp only [if_true, UInt32.toNat_sub, hmin]
      rcases hx : unpacked x with (_ | _) | _ | _ | ⟨_ | _, m, e, hm⟩ <;> rw [hx] at hsize hsign <;>
        simp [UnpackedFloat.abs, clampedPart, HasSign, Sign.apply] at hsize hsign ⊢ <;> omega
    | false =>
      rw [signOf, hnegative] at hsign
      simp only [Bool.false_eq_true, if_false, hmin]
      rcases hx : unpacked x with (_ | _) | _ | _ | ⟨_ | _, m, e, hm⟩ <;> rw [hx] at hsize hsign <;>
        simp [UnpackedFloat.abs, clampedPart, HasSign, Sign.apply] at hsize hsign ⊢ <;> omega

/-! ## Integers as floats -/

/-- The float nearest to a word as an unsigned integer. -/
theorem toBits_toFloat32 (x : UInt32) :
    x.toFloat32.toBits = UInt32.ofBitVec
      ((roundTo Format.binary32 (ofInteger .positive x.toNat)).pack Format.binary32) := by
  have hnat : UnpackedFloat.ofNat Format.binary32 x.toNat =
      roundTo Format.binary32 (ofInteger .positive x.toNat) := by
    rw [roundTo_ofInteger, UnpackedFloat.ofNat, UnpackedFloat.ofInt, UnpackedFloat.normalize]
    by_cases hx : x.toNat = 0
    · rw [if_pos hx, hx]
      rfl
    · have hpos : compare (x.toNat : Int) 0 = .gt := Int.compare_eq_gt.2 (by omega)
      rw [if_neg hx, hpos]
      rfl
  rw [← hnat]
  rfl

theorem fneg_ofBitVec_pack {x : UnpackedFloat} (h : x ≠ .notANumber) :
    fneg (UInt32.ofBitVec (x.pack Format.binary32)) =
      UInt32.ofBitVec (x.neg.pack Format.binary32) := by
  rw [pack_neg h]
  rfl

/-- The float nearest to a word as a signed integer. -/
theorem floatOfSigned_ofInt {n : Int} (h : NumberKind.signed.InRange n) :
    floatOfSigned (ofInt n) = UInt32.ofBitVec
      ((roundTo Format.binary32 (ofInteger (Unpacked.signOf n) n.natAbs)).pack
        Format.binary32) := by
  have hvalue := toInt_ofInt h
  have hword := toNat_ofInt_eq_emod n
  obtain ⟨hlow, hhigh⟩ := h
  have hnegative : signed (ofInt n) < 0 ↔ n < 0 := by
    rw [Int32.lt_iff_toInt_lt]
    exact Iff.of_eq (congrArg (· < 0) hvalue)
  rw [floatOfSigned]
  simp only [hnegative]
  split
  · rename_i hn
    have habs : (0 - ofInt n).toNat = n.natAbs := by
      rw [UInt32.toNat_sub]
      simp
      omega
    rw [toBits_toFloat32, habs, fneg_ofBitVec_pack, ← roundTo_neg, neg_ofInteger, Unpacked.signOf,
      if_pos hn]
    · rfl
    · exact roundTo_ne_notANumber (ofSignificand_ne_notANumber _ _ _)
  · rename_i hn
    have habs : (ofInt n).toNat = n.natAbs := by omega
    rw [toBits_toFloat32, habs, Unpacked.signOf, if_neg hn]

theorem toBits_toFloat32_ofInt {n : Int} (h : NumberKind.unsigned.InRange n) :
    (ofInt n).toFloat32.toBits = UInt32.ofBitVec
      ((roundTo Format.binary32 (ofInteger (Unpacked.signOf n) n.natAbs)).pack
        Format.binary32) := by
  have hvalue := toNat_ofInt h
  have habs : (ofInt n).toNat = n.natAbs := by omega
  rw [toBits_toFloat32, habs, Unpacked.signOf, if_neg (not_lt.2 h.1)]

end Word

/-! ## Doubles -/

namespace Double

open Unpacked

/-- A float is at least as large as the integers of double precision that have no fraction. -/
def Large (s : Sign) (x : UnpackedFloat) : Prop :=
  x = .infinity s ∨ ∃ m e hm, 0 ≤ e ∧ x = .finite s m e hm

/-- A large double is beyond every smaller integer, on the side of its sign. -/
theorem compare_large {x : UnpackedFloat} {s : Sign} (hx : Large s x) {y : Float} {n : Int}
    (hy : IsInt y n) (hn : n.natAbs < 2 ^ 52) :
    x.compare (unpacked y) = some (match s with | .positive => .gt | .negative => .lt) := by
  rcases hy.cases with ⟨rfl, t, hy⟩ | ⟨hne, hy⟩ <;> rw [hy]
  · obtain rfl | ⟨m, e, hm, -, rfl⟩ := hx <;> cases s <;> rfl
  · have hlog : n.natAbs.log2 < 52 := (Nat.log2_lt (Int.natAbs_ne_zero.2 hne)).2 hn
    rw [ofInteger_of_ne_zero _ (Int.natAbs_ne_zero.2 hne)]
    obtain rfl | ⟨m, e, hm, he, rfl⟩ := hx
    · cases s <;> rfl
    · have hexponent : compare e (-((52 - n.natAbs.log2 : Nat) : Int)) = .gt :=
        Int.compare_eq_gt.2 (by omega)
      generalize Unpacked.signOf n = t
      cases s <;> cases t <;> simp [UnpackedFloat.compare, hexponent]

/-- The sign of a double. -/
def signOf (x : Float) : Sign := if x.toBits < 0x8000000000000000 then .positive else .negative

/-- A double has its sign, if it is a number. -/
theorem hasSign_unpacked (x : Float) : HasSign (signOf x) (unpacked x) := by
  have hlt := x.toBits.toNat_lt
  have hsign : (@UnpackedFloat.unpackSign Format.binary64 x.toBits.toBitVec).toNat =
      x.toBits.toNat / 2 ^ 52 / 2 ^ 11 :=
    @toNat_unpackSign Format.binary64 x.toBits.toBitVec
  have hiff : x.toBits < 0x8000000000000000 ↔ x.toBits.toNat < 2 ^ 63 := UInt64.lt_iff_toNat_lt
  have hunpack := @hasSign_unpack Format.binary64 x.toBits.toBitVec
  have hbit : signOf x =
      .ofBitVec (@UnpackedFloat.unpackSign Format.binary64 x.toBits.toBitVec) := by
    simp only [signOf, hiff]
    obtain h | h := BitVec.eq_zero_or_eq_one
      (@UnpackedFloat.unpackSign Format.binary64 x.toBits.toBitVec) <;> rw [h] at hsign ⊢
    · have : (0#1).toNat = 0 := rfl
      rw [if_pos (by omega)]
      rfl
    · have : (1#1).toNat = 1 := rfl
      rw [if_neg (by omega)]
      rfl
  rw [hbit]
  exact hunpack

theorem lt_iff_compare (x y : Float) :
    x < y ↔ (unpacked x).compare (unpacked y) = some .lt := by
  have h : x < y ↔ ((unpacked x).compare (unpacked y) == some .lt) = true :=
    decide_eq_true_iff (p := x.toModel < y.toModel)
  rw [h, beq_iff_eq]

/-- Doubles from 2 ^ 52 on are large. -/
theorem abs_lt_two_pow_iff {x : Float} (hx : unpacked x ≠ .notANumber) :
    x.abs < 4503599627370496.0 ↔ ¬∃ s, Large s (unpacked x) := by
  have hliteral : unpacked 4503599627370496.0 = .finite .positive 4503599627370496 0 (by decide) :=
    rfl
  have hcanonical := canonical_unpacked x
  rw [lt_iff_compare, unpacked_abs, hliteral]
  rcases hu : unpacked x with (_ | _) | _ | _ | ⟨s, m, e, hm⟩
  · simp [UnpackedFloat.abs, UnpackedFloat.compare, Large]
  · simp [UnpackedFloat.abs, UnpackedFloat.compare, Large]
  · exact absurd hu hx
  · simp [UnpackedFloat.abs, UnpackedFloat.compare, Large]
  · rw [hu] at hcanonical
    have hdigits : e = 0 → 4503599627370496 ≤ m := by
      rintro rfl
      by_contra hm
      have hmin : Format.binary64.minExponent = -1074 := rfl
      have := eq_minExponent_of_canonical hcanonical.1 (not_le.1 hm)
      omega
    have hlarge : (∃ t, Large t (.finite s m e hm)) ↔ 0 ≤ e := by simp [Large, hm]
    rw [hlarge, UnpackedFloat.abs, UnpackedFloat.compare]
    rcases lt_trichotomy e 0 with he | he | he
    · rw [Int.compare_eq_lt.2 he]
      simpa using he
    · have hle := hdigits he
      rw [Int.compare_eq_eq.2 he, Ordering.eq_then, Option.some_inj, Nat.compare_eq_lt]
      omega
    · rw [Int.compare_eq_gt.2 he]
      simpa using he.le

/-- The integer part of a double that is not large is the integer of its digits. -/
theorem isInt_integerPart {x : Float} {size : Nat}
    (hlt : x.abs < 4503599627370496.0) (hsize : x.abs.toUInt64.toNat = size)
    (hsmall : size < 2 ^ 53) : IsInt (integerPart x) ((signOf x).apply size) := by
  have hwhole : IsInt x.abs.toUInt64.toFloat size := hsize ▸ isInt_toFloat (hsize ▸ hsmall)
  simp only [integerPart, if_pos hlt, signOf]
  split
  · exact hwhole
  · exact isInt_neg hwhole

/-- The integer part is exact, unless the double is large. -/
theorem integerPart_cases {x : Float} (hx : unpacked x ≠ .notANumber) :
    (∃ n : Int, n.natAbs < 2 ^ 52 ∧ IsInt (integerPart x) n ∧
      ∀ lo hi, lo ≤ 0 → 0 ≤ hi → clampedPart lo hi (unpacked x) = max lo (min hi n)) ∨
    (integerPart x = x ∧ ∃ s, Large s (unpacked x)) := by
  by_cases hlt : x.abs < 4503599627370496.0
  · refine .inl ?_
    have hsmall := (abs_lt_two_pow_iff hx).1 hlt
    have hsign := hasSign_unpacked x
    rcases hu : unpacked x with s | _ | s | ⟨s, m, e, hm⟩
    · exact absurd ⟨s, .inl hu⟩ hsmall
    · exact absurd hu hx
    · refine ⟨0, by decide, ?_, fun lo hi hlo hhi => ?_⟩
      · have := isInt_integerPart hlt (toNat_toUInt64_abs_zero hu) (by decide)
        cases hs : signOf x <;> rw [hs] at this <;> exact this
      · simp only [clampedPart]
        omega
    · have he : e < 0 := by
        by_contra he
        exact hsmall ⟨s, .inr ⟨m, e, hm, not_lt.1 he, hu⟩⟩
      have hm53 : m < 2 ^ 53 := by
        have hcanonical := canonical_unpacked x
        rw [hu] at hcanonical
        exact lt_of_canonical hcanonical.1
      have hwhole : wholePart m e < 2 ^ 52 := by
        have hup : e.toNat = 0 := by omega
        have hdown : 2 ^ 1 ≤ 2 ^ (-e).toNat := Nat.pow_le_pow_right (by decide) (by omega)
        rw [wholePart, hup, Nat.pow_zero, Nat.mul_one, Nat.div_lt_iff_lt_mul (by positivity)]
        omega
      have hint := isInt_integerPart hlt (toNat_toUInt64_abs hu) (by omega)
      rw [hu] at hsign
      rw [← hsign, Nat.min_eq_left (by omega)] at hint
      refine ⟨_, ?_, hint, fun lo hi hlo hhi => rfl⟩
      cases s <;> simpa [Sign.apply] using hwhole
  · exact .inr ⟨if_neg hlt, not_not.1 (mt (abs_lt_two_pow_iff hx).2 hlt)⟩

/-- A large double is cut to a bound. -/
theorem clampedPart_of_large {x : UnpackedFloat} {s : Sign} (hx : Large s x)
    (hcanonical : Canonical Format.binary64 x) {lo hi : Int} (hlo : lo ≤ 0) (hhi : 0 ≤ hi)
    (hlo' : -2 ^ 52 < lo) (hhi' : hi < 2 ^ 52) :
    clampedPart lo hi x = match s with | .positive => hi | .negative => lo := by
  obtain rfl | ⟨m, e, hm, he, rfl⟩ := hx
  · cases s <;> rfl
  · have hmin : Format.binary64.minExponent = -1074 := rfl
    have hm52 : 2 ^ 52 ≤ m := by
      by_contra hm
      have := eq_minExponent_of_canonical hcanonical.1 (not_le.1 hm)
      omega
    have hdown : (-e).toNat = 0 := by omega
    have hwhole : 2 ^ 52 ≤ wholePart m e := by
      rw [wholePart, hdown, Nat.pow_zero, Nat.div_one]
      exact hm52.trans (Nat.le_mul_of_pos_right _ (Nat.two_pow_pos _))
    cases s <;> simp only [clampedPart, Sign.apply] <;> omega

/-- An integer that a double holds is its integer part. -/
theorem clampedPart_of_isInt {v : Float} {n : Int} (hv : IsInt v n) {lo hi : Int} (hlo : lo ≤ 0)
    (hhi : 0 ≤ hi) :
    clampedPart lo hi (unpacked v) = max lo (min hi n) := by
  have hlt := hv.1
  obtain ⟨rfl, s, h⟩ | ⟨hn, h⟩ := hv.cases
  · rw [h, clampedPart]
    omega
  · rw [h, ofInteger, clampedPart_ofSignificand hlo hhi, wholePart_integer]
    have happly := apply_signOf n 0
    simp only [pow_zero, mul_one] at happly
    rw [happly]

theorem isInt_clamp {x lo hi : Float} {l h : Int} (hx : unpacked x ≠ .notANumber)
    (hlo : IsInt lo l) (hhi : IsInt hi h) (hl : l ≤ 0) (hh : 0 ≤ h) (hl' : -2 ^ 52 < l)
    (hh' : h < 2 ^ 52) :
    IsInt (Constant.clamp (integerPart x) lo hi) (clampedPart l h (unpacked x)) := by
  have hbounds : ¬hi < lo := by
    rw [lt_iff hhi hlo]
    omega
  unfold Constant.clamp
  obtain ⟨n, hn, hpart, hclamped⟩ | ⟨hpart, s, hlarge⟩ := integerPart_cases hx
  · rw [hclamped l h hl hh]
    simp only [lt_iff hpart hlo]
    split
    · rename_i hlt
      have hvalue : max l (min h n) = l := by omega
      rwa [hvalue]
    · rename_i hge
      simp only [lt_iff hhi hpart]
      split
      · have hvalue : max l (min h n) = h := by omega
        rwa [hvalue]
      · have hvalue : max l (min h n) = n := by omega
        rwa [hvalue]
  · rw [clampedPart_of_large hlarge (canonical_unpacked x) hl hh hl' hh', hpart]
    have hbelow := compare_large hlarge hlo (by omega)
    have habove := compare_large hlarge hhi (by omega)
    have hswap := swap_compare (unpacked x) (unpacked hi)
    rw [habove] at hswap
    cases s with
    | positive =>
      have hlt : ¬x < lo := by simp [lt_iff_compare, hbelow]
      have hgt : hi < x := by simp [lt_iff_compare, ← hswap]
      simpa only [if_neg hlt, if_pos hgt] using hhi
    | negative =>
      have hlt : x < lo := by simp [lt_iff_compare, hbelow]
      simpa only [if_pos hlt, if_neg hbounds] using hlo

theorem isNaN_eq_true_iff (x : Float) : x.isNaN = true ↔ unpacked x = .notANumber := by
  rw [← not_iff_not, Bool.not_eq_true, isNaN_eq_false_iff]

theorem isInt_cast_signed (v : Float) :
    IsInt (Constant.cast v .signed) (clampedPart (-2147483648) 2147483647 (unpacked v)) := by
  have hlo : IsInt (-2147483648.0) (-2147483648) :=
    isInt_neg (x := 2147483648.0) (n := 2147483648) ⟨by decide, .inl rfl⟩
  have hhi : IsInt 2147483647.0 2147483647 := ⟨by decide, .inl rfl⟩
  rw [Constant.cast]
  split
  · rename_i hnan
    rw [(isNaN_eq_true_iff v).1 hnan]
    exact isInt_zero
  · rename_i hnumber
    exact isInt_clamp (mt (isNaN_eq_true_iff v).2 hnumber) hlo hhi (by decide) (by decide)
      (by decide) (by decide)

theorem isInt_cast_unsigned (v : Float) :
    IsInt (Constant.cast v .unsigned) (clampedPart 0 4294967295 (unpacked v)) := by
  have hhi : IsInt 4294967295.0 4294967295 := ⟨by decide, .inl rfl⟩
  rw [Constant.cast]
  split
  · rename_i hnan
    rw [(isNaN_eq_true_iff v).1 hnan]
    exact isInt_zero
  · rename_i hnumber
    exact isInt_clamp (mt (isNaN_eq_true_iff v).2 hnumber) isInt_zero hhi (by decide) (by decide)
      (by decide) (by decide)

end Double

end RasterShader
