import Mathlib
import RasterShader.Decimal.Binary
import RasterShader.Proofs.Arithmetic.Float

/-!
# Rounding to a format
-/

namespace RasterShader

open Float.Model (Format UnpackedFloat totalExponent)
open Float.Model.UnpackedFloat (Sign ExtendedMantissa)

/-! ## Binary digits -/

theorem log2_mul_pow {m : Nat} (hm : m ≠ 0) (k : Nat) : (m * 2 ^ k).log2 = m.log2 + k := by
  have hpos := Nat.two_pow_pos k
  rw [Nat.log2_eq_iff (by positivity)]
  have hlow := Nat.log2_self_le hm
  have hhigh := @Nat.lt_log2_self m
  constructor
  · rw [Nat.pow_add]
    exact Nat.mul_le_mul_right _ hlow
  · rw [show m.log2 + k + 1 = m.log2 + 1 + k by omega, Nat.pow_add]
    exact Nat.mul_lt_mul_of_pos_right hhigh hpos

/-- A common factor of a fraction does not matter when it is rounded. -/
theorem roundHalfEven_mul (num den : Nat) {c : Nat} (hc : 0 < c) :
    roundHalfEven (num * c) (den * c) = roundHalfEven num den := by
  have hdouble : 2 * (num % den * c) = 2 * (num % den) * c := by ring
  simp only [roundHalfEven, Nat.mul_div_mul_right _ _ hc, Nat.mul_mod_mul_right, hdouble,
    Nat.mul_lt_mul_right hc]

@[simp] theorem roundHalfEven_one (num : Nat) : roundHalfEven num 1 = num := by
  simp [roundHalfEven, Nat.mod_one]

theorem roundHalfEven_mul_self (num : Nat) {den : Nat} (hden : 0 < den) :
    roundHalfEven (num * den) den = num := by
  conv_lhs => rw [← Nat.one_mul den, Nat.one_mul den, ← Nat.one_mul den]
  simpa using roundHalfEven_mul num 1 hden

theorem roundHalfEven_le_succ (num den : Nat) : roundHalfEven num den ≤ num / den + 1 := by
  simp only [roundHalfEven]
  grind

theorem div_le_roundHalfEven (num den : Nat) : num / den ≤ roundHalfEven num den := by
  simp only [roundHalfEven]
  grind

theorem roundHalfEven_le_of_lt_mul {num den bound : Nat} (hden : 0 < den) (h : num < bound * den) :
    roundHalfEven num den ≤ bound := by
  have hdiv : num / den < bound := (Nat.div_lt_iff_lt_mul hden).2 h
  have := roundHalfEven_le_succ num den
  omega

/-- The digits dropped by a shift to the right, as they are remembered. -/
theorem shiftRight_succ (m k : Nat) :
    (⟨m, false, false⟩ : ExtendedMantissa) >>> (k + 1) =
      ⟨m / 2 ^ (k + 1), m / 2 ^ k % 2 != 0, m % 2 ^ k != 0⟩ := by
  induction k with
  | zero => simp [HShiftRight.hShiftRight, Nat.repeat, ExtendedMantissa.shiftRightOne, Nat.mod_one]
  | succ k ih =>
    have hstep : (⟨m, false, false⟩ : ExtendedMantissa) >>> (k + 1 + 1) =
        ((⟨m, false, false⟩ : ExtendedMantissa) >>> (k + 1)).shiftRightOne := rfl
    rw [hstep, ih]
    simp only [ExtendedMantissa.shiftRightOne, ExtendedMantissa.mk.injEq]
    refine ⟨by rw [Nat.div_div_eq_div_mul, ← Nat.pow_succ], trivial, ?_⟩
    rw [Nat.mod_pow_succ]
    have hpos := Nat.two_pow_pos k
    rcases Nat.mod_two_eq_zero_or_one (m / 2 ^ k) with h | h
    · simp [h]
    · simp [h]

theorem mantissa_shiftRight (m k : Nat) :
    ((⟨m, false, false⟩ : ExtendedMantissa) >>> k).mantissa = m / 2 ^ k := by
  cases k with
  | zero => simp [HShiftRight.hShiftRight, Nat.repeat]
  | succ k => rw [shiftRight_succ]

/-- The digit after the last one and whether any is set behind it decide how to round. -/
theorem roundedMantissa_shiftRight (m k : Nat) :
    ((⟨m, false, false⟩ : ExtendedMantissa) >>> k).roundedMantissa = roundHalfEven m (2 ^ k) := by
  cases k with
  | zero =>
    simp [HShiftRight.hShiftRight, Nat.repeat, ExtendedMantissa.roundedMantissa,
      ExtendedMantissa.accuracy, UnpackedFloat.Accuracy.roundToNearestEven]
  | succ k =>
    rw [shiftRight_succ]
    have hsplit := Nat.mod_pow_succ (b := 2) (x := m) (k := k)
    have hlow : m % 2 ^ k < 2 ^ k := Nat.mod_lt _ (Nat.two_pow_pos k)
    have hpow : 2 ^ (k + 1) = 2 * 2 ^ k := by rw [Nat.pow_succ, Nat.mul_comm]
    simp only [roundHalfEven, hsplit]
    rcases Nat.mod_two_eq_zero_or_one (m / 2 ^ k) with hbit | hbit <;>
      by_cases hsticky : m % 2 ^ k = 0 <;>
      simp [hbit, hsticky, ExtendedMantissa.roundedMantissa, ExtendedMantissa.accuracy,
        UnpackedFloat.Accuracy.roundToNearestEven] <;>
      grind

/-! ## Rounding -/

namespace Unpacked

/-- The exponent of a number in a format. -/
def exponentOf (spec : Format) (m : Nat) (e : Int) : Int :=
  spec.targetExponent (totalExponent m e)

/-- The float with a sign, a significand and an exponent. -/
def ofSignificand (s : Sign) (m : Nat) (e : Int) : UnpackedFloat :=
  if h : m = 0 then .zero s else .finite s m e (Nat.pos_of_ne_zero h)

theorem exponentOf_eq (spec : Format) (m : Nat) (e : Int) :
    exponentOf spec m e = max (m.log2 + 1 + e - spec.mantissaBits) spec.minExponent := rfl

theorem exponentOf_mul_pow (spec : Format) {m : Nat} (hm : m ≠ 0) (k : Nat) (e : Int) :
    exponentOf spec (m * 2 ^ k) (e - k) = exponentOf spec m e := by
  rw [exponentOf_eq, exponentOf_eq, log2_mul_pow hm]
  push_cast
  congr 2
  ring

/-- A number has at most the digits of a format above its exponent there. -/
theorem mul_pow_lt {spec : Format} {m : Nat} {e : Int} {up down : Nat}
    (h : (up : Int) - down = e - exponentOf spec m e) :
    m * 2 ^ up < 2 ^ spec.mantissaBits * 2 ^ down := by
  have hexp := exponentOf_eq spec m e
  have hlog : m.log2 + 1 + up ≤ spec.mantissaBits + down := by omega
  calc m * 2 ^ up < 2 ^ (m.log2 + 1) * 2 ^ up :=
        Nat.mul_lt_mul_of_pos_right Nat.lt_log2_self (Nat.two_pow_pos up)
    _ = 2 ^ (m.log2 + 1 + up) := (Nat.pow_add ..).symm
    _ ≤ 2 ^ (spec.mantissaBits + down) := Nat.pow_le_pow_right (by decide) hlog
    _ = 2 ^ spec.mantissaBits * 2 ^ down := Nat.pow_add ..

/-- A number that is not among the least ones of a format has all the digits of the format above its
exponent there. -/
theorem le_mul_pow {spec : Format} {m : Nat} (hm : m ≠ 0) {e : Int} {up down : Nat}
    (h : (up : Int) - down = e - exponentOf spec m e)
    (hleast : exponentOf spec m e ≠ spec.minExponent) :
    2 ^ spec.mantissaBitsWithoutImplicit * 2 ^ down ≤ m * 2 ^ up := by
  have hexp := exponentOf_eq spec m e
  have hbits : spec.mantissaBits = 1 + spec.mantissaBitsWithoutImplicit := rfl
  have hlog : spec.mantissaBitsWithoutImplicit + down = m.log2 + up := by omega
  calc 2 ^ spec.mantissaBitsWithoutImplicit * 2 ^ down = 2 ^ (m.log2 + up) := by
        rw [← Nat.pow_add, hlog]
    _ = 2 ^ m.log2 * 2 ^ up := Nat.pow_add ..
    _ ≤ m * 2 ^ up := Nat.mul_le_mul_right _ (Nat.log2_self_le hm)

/-- The significand of a number at another exponent, rounded. -/
def significandAt (m : Nat) (e target : Int) : Nat :=
  roundHalfEven (m * 2 ^ (e - target).toNat) (2 ^ (target - e).toNat)

/-- Only the difference of the powers of two matters. -/
theorem roundHalfEven_pow (m : Nat) {e target : Int} {up down : Nat}
    (h : (up : Int) - down = e - target) :
    roundHalfEven (m * 2 ^ up) (2 ^ down) = significandAt m e target := by
  obtain ⟨c, hup, hdown⟩ : ∃ c, up = (e - target).toNat + c ∧ down = (target - e).toNat + c :=
    ⟨up - (e - target).toNat, by omega, by omega⟩
  rw [hup, hdown, Nat.pow_add, Nat.pow_add, ← Nat.mul_assoc,
    roundHalfEven_mul _ _ (Nat.two_pow_pos c)]
  rfl

/-- Rounding leaves at most one digit too many, and then it is a power of two. -/
theorem significandAt_le (spec : Format) (m : Nat) (e : Int) :
    significandAt m e (exponentOf spec m e) ≤ 2 ^ spec.mantissaBits :=
  roundHalfEven_le_of_lt_mul (Nat.two_pow_pos _) (mul_pow_lt (e := e) (by omega))

theorem le_significandAt {spec : Format} {m : Nat} (hm : m ≠ 0) {e : Int}
    (hleast : exponentOf spec m e ≠ spec.minExponent) :
    2 ^ spec.mantissaBitsWithoutImplicit ≤ significandAt m e (exponentOf spec m e) := by
  refine le_trans ?_ (div_le_roundHalfEven ..)
  rw [Nat.le_div_iff_mul_le (Nat.two_pow_pos _)]
  exact le_mul_pow hm (e := e) (by omega) hleast

/-- The shift to an exponent that is already that of the format, or lower. -/
theorem shiftToTargetExponent_exact (spec : Format) (m : Nat) (e : Int) :
    UnpackedFloat.shiftToTargetExponent spec m e .exact =
      ((⟨m, false, false⟩ : ExtendedMantissa) >>> (exponentOf spec m e - e).toNat,
        e + ((exponentOf spec m e - e).toNat : Int)) := rfl

/-- What is left of a significand that has been rounded: one that has grown by a digit is halved. -/
theorem shift_rounded (spec : Format) {m : Nat} {e : Int} (hm : m ≤ 2 ^ spec.mantissaBits)
    (he : spec.minExponent ≤ e) :
    UnpackedFloat.shiftToTargetExponent spec m e .exact =
      if m = 2 ^ spec.mantissaBits then
        ((⟨m, false, false⟩ : ExtendedMantissa) >>> 1, e + 1)
      else (⟨m, false, false⟩, e) := by
  rw [shiftToTargetExponent_exact, exponentOf_eq]
  split
  · rename_i hfull
    rw [hfull, Nat.log2_two_pow]
    have hone : (max ((spec.mantissaBits : Int) + 1 + e - spec.mantissaBits) spec.minExponent -
        e).toNat = 1 := by omega
    rw [hone]
    rfl
  · rename_i hfull
    have hlog : m.log2 + 1 ≤ spec.mantissaBits := by
      by_cases hzero : m = 0
      · subst hzero
        have : spec.mantissaBits = 1 + spec.mantissaBitsWithoutImplicit := rfl
        simp [this]
      · exact (Nat.log2_lt hzero).2 (by omega)
    have hzero : (max ((m.log2 : Int) + 1 + e - spec.mantissaBits) spec.minExponent -
        e).toNat = 0 := by omega
    rw [hzero]
    simp [HShiftRight.hShiftRight, Nat.repeat]

/-- Rounding takes the significand at the exponent of the format, and halves one that has grown by a
digit. -/
theorem round_eq (spec : Format) (s : Sign) {m : Nat} (hm : m ≠ 0) (e : Int) :
    UnpackedFloat.round spec s m e =
      if significandAt m e (exponentOf spec m e) = 2 ^ spec.mantissaBits then
        ofSignificand s (2 ^ spec.mantissaBitsWithoutImplicit) (exponentOf spec m e + 1)
      else ofSignificand s (significandAt m e (exponentOf spec m e)) (exponentOf spec m e) := by
  have hleast : spec.minExponent ≤ exponentOf spec m e := by rw [exponentOf_eq]; omega
  have hle := significandAt_le spec m e
  set t := exponentOf spec m e with ht
  have hshift : exponentOf spec (m * 2 ^ (e - t).toNat) (e - (e - t).toNat) = t := by
    rw [exponentOf_mul_pow spec hm]
  have hrounded : ((⟨m * 2 ^ (e - t).toNat, false, false⟩ : ExtendedMantissa) >>>
      (t - (e - ((e - t).toNat : Int))).toNat).roundedMantissa = significandAt m e t := by
    rw [roundedMantissa_shiftRight]
    exact roundHalfEven_pow m (by omega)
  have hexp : e - ((e - t).toNat : Int) + ((t - (e - ((e - t).toNat : Int))).toNat : Int) = t := by
    omega
  have hdecrease : UnpackedFloat.decreaseExponent m e
      (spec.targetExponent (totalExponent m e)) =
      (m * 2 ^ (e - t).toNat, e - ((e - t).toNat : Int)) := by
    simp only [UnpackedFloat.decreaseExponent, Nat.shiftLeft_eq]
    rfl
  simp only [UnpackedFloat.round, hdecrease, UnpackedFloat.roundWithAccuracy,
    shiftToTargetExponent_exact, hshift, hrounded, hexp, shift_rounded spec hle hleast]
  split
  · rename_i hfull
    have hhalf : 2 ^ spec.mantissaBits / 2 ^ 1 = 2 ^ spec.mantissaBitsWithoutImplicit := by
      rw [Nat.pow_div (by unfold Format.mantissaBits; omega) (by decide)]
      congr 1
      unfold Format.mantissaBits
      omega
    simp only [hfull, mantissa_shiftRight, hhalf]
    rfl
  · rfl

/-- A number that a format has is rounded to itself, in whatever way it is written. -/
theorem round_of_mul_pow_eq {spec : Format} (s : Sign) {m significand : Nat} {e exponent : Int}
    {a b : Nat} (hsignificand : significand ≠ 0)
    (canonical : exponentOf spec significand exponent = exponent)
    (hvalue : m * 2 ^ a = significand * 2 ^ b) (hexponent : e - a = exponent - b) :
    UnpackedFloat.round spec s m e = ofSignificand s significand exponent := by
  have hm : m ≠ 0 := by
    rintro rfl
    have := Nat.two_pow_pos b
    simp at hvalue
    omega
  have hexp : exponentOf spec m e = exponent := by
    rw [← exponentOf_mul_pow spec hm a, hvalue, hexponent, exponentOf_mul_pow spec hsignificand,
      canonical]
  have hrounded : significandAt m e exponent = significand := by
    rw [← @roundHalfEven_pow m e exponent a b (by omega), hvalue,
      roundHalfEven_mul_self _ (Nat.two_pow_pos b)]
  have hlt := @mul_pow_lt spec significand exponent 0 0 (by omega)
  rw [round_eq spec s hm, hexp, hrounded, if_neg (by omega)]

/-- A significand with no exponent above that of the format is rounded as it stands. -/
theorem roundWithAccuracy_exact {spec : Format} (s : Sign) {m : Nat} {e : Int}
    (h : e ≤ exponentOf spec m e) :
    UnpackedFloat.roundWithAccuracy spec s m e .exact = UnpackedFloat.round spec s m e := by
  have hdecrease : UnpackedFloat.decreaseExponent m e
      (spec.targetExponent (totalExponent m e)) = (m, e) := by
    have hzero : (e - spec.targetExponent (totalExponent m e)).toNat = 0 := by
      have : e ≤ spec.targetExponent (totalExponent m e) := h
      omega
    simp [UnpackedFloat.decreaseExponent, hzero]
  simp only [UnpackedFloat.round, hdecrease]

/-! ## Packed floats -/

/-- A float is written as a format has it: with the exponent of the format, which is not too
large. -/
def Canonical (spec : Format) : UnpackedFloat → Prop
  | .finite _ m e _ =>
    exponentOf spec m e = e ∧ e - spec.minExponent + 2 < (2 ^ spec.exponentBits : Nat)
  | _ => True

theorem exponentBias_eq (spec : Format) :
    (spec.exponentBias : Int) + spec.mantissaBitsWithoutImplicit = 1 - spec.minExponent := by
  have hpos := Nat.two_pow_pos (spec.exponentBits - 1)
  have hcast : ((2 ^ (spec.exponentBits - 1) : Nat) : Int) = 2 ^ (spec.exponentBits - 1) := by
    push_cast
    rfl
  simp only [Format.exponentBias, Format.minExponent, Format.mantissaBits]
  omega

theorem minExponent_le_of_canonical {spec : Format} {m : Nat} {e : Int}
    (h : exponentOf spec m e = e) : spec.minExponent ≤ e := by
  rw [← h, exponentOf_eq]
  omega

/-- The fields of a packed float tell what it stands for. -/
theorem unpack_eq (spec : Format) (b : BitVec spec.numBits) :
    UnpackedFloat.unpack spec b =
      if (UnpackedFloat.unpackExponent b).toNat = 2 ^ spec.exponentBits - 1 then
        if (UnpackedFloat.unpackMantissa b).toNat = 0 then
          .infinity (.ofBitVec (UnpackedFloat.unpackSign b))
        else .notANumber
      else if (UnpackedFloat.unpackExponent b).toNat = 0 then
        ofSignificand (.ofBitVec (UnpackedFloat.unpackSign b))
          (UnpackedFloat.unpackMantissa b).toNat spec.minExponent
      else
        ofSignificand (.ofBitVec (UnpackedFloat.unpackSign b))
          (2 ^ spec.mantissaBitsWithoutImplicit + (UnpackedFloat.unpackMantissa b).toNat)
          (spec.minExponent + ((UnpackedFloat.unpackExponent b).toNat - 1)) := by
  have hbias := exponentBias_eq spec
  have hspecial : UnpackedFloat.unpackExponent b = -1#_ ↔
      (UnpackedFloat.unpackExponent b).toNat = 2 ^ spec.exponentBits - 1 := by
    rw [BitVec.neg_one_eq_allOnes, ← BitVec.toNat_inj, BitVec.toNat_allOnes]
  have hzero : ∀ {n : Nat} (c : BitVec n), c = 0#n ↔ c.toNat = 0 := by
    intro n c
    rw [← BitVec.toNat_inj]
    simp
  have hsignificand : (1#1 ++ UnpackedFloat.unpackMantissa b).toNat =
      2 ^ spec.mantissaBitsWithoutImplicit + (UnpackedFloat.unpackMantissa b).toNat := by
    rw [BitVec.toNat_append, ← Nat.shiftLeft_add_eq_or_of_lt (BitVec.isLt _), Nat.shiftLeft_eq]
    simp
  simp only [UnpackedFloat.unpack, hspecial, hzero]
  split
  · rfl
  · split
    · rename_i hsubnormal
      have hexp : ((UnpackedFloat.unpackExponent b).toNat : Int) -
          (spec.exponentBias + spec.mantissaBitsWithoutImplicit) + 1 = spec.minExponent := by omega
      simp only [ofSignificand, hexp]
    · have hexp : ((UnpackedFloat.unpackExponent b).toNat : Int) -
          (spec.exponentBias + spec.mantissaBitsWithoutImplicit) =
          spec.minExponent + ((UnpackedFloat.unpackExponent b).toNat - 1) := by omega
      have hpos := Nat.two_pow_pos spec.mantissaBitsWithoutImplicit
      simp only [ofSignificand, hexp, hsignificand]
      rw [dif_neg (by omega)]

theorem canonical_ofSignificand {spec : Format} {s : Sign} {m : Nat} {e : Int}
    (h : m ≠ 0 → exponentOf spec m e = e ∧
      e - spec.minExponent + 2 < (2 ^ spec.exponentBits : Nat)) :
    Canonical spec (ofSignificand s m e) := by
  unfold ofSignificand
  split
  · trivial
  · rename_i hm
    exact h hm

/-- The exponent that a number with all the digits of a format, or else the least exponent, has. -/
theorem exponentOf_of_digits {spec : Format} {m : Nat} {e : Int}
    (hm : m < 2 ^ spec.mantissaBits) (he : spec.minExponent ≤ e)
    (hleast : m < 2 ^ spec.mantissaBitsWithoutImplicit → e = spec.minExponent) :
    exponentOf spec m e = e := by
  have hbits : spec.mantissaBits = 1 + spec.mantissaBitsWithoutImplicit := rfl
  rw [exponentOf_eq]
  by_cases hsmall : m < 2 ^ spec.mantissaBitsWithoutImplicit
  · have hlog : m.log2 ≤ spec.mantissaBitsWithoutImplicit := by
      by_cases hzero : m = 0
      · simp [hzero]
      · exact ((Nat.log2_lt hzero).2 hsmall).le
    have := hleast hsmall
    omega
  · have hne : m ≠ 0 := by
      have := Nat.two_pow_pos spec.mantissaBitsWithoutImplicit
      omega
    have hlow := (Nat.le_log2 hne).2 (not_lt.1 hsmall)
    have hhigh := (Nat.log2_lt hne).2 hm
    omega

/-- Packed floats are written as their format has it. -/
theorem canonical_unpack {spec : Format} (wide : 2 ≤ spec.exponentBits) (b : BitVec spec.numBits) :
    Canonical spec (UnpackedFloat.unpack spec b) := by
  have hfour : 2 ^ 2 ≤ 2 ^ spec.exponentBits := Nat.pow_le_pow_right (by decide) wide
  have hfraction := (UnpackedFloat.unpackMantissa b).isLt
  have hfield := (UnpackedFloat.unpackExponent b).isLt
  have hdouble : 2 ^ spec.mantissaBits = 2 * 2 ^ spec.mantissaBitsWithoutImplicit := by
    rw [Format.mantissaBits, Nat.pow_add, Nat.pow_one]
  rw [unpack_eq]
  split
  · split <;> trivial
  · split
    · refine canonical_ofSignificand fun _ =>
        ⟨exponentOf_of_digits (by omega) le_rfl fun _ => rfl, ?_⟩
      omega
    · refine canonical_ofSignificand fun _ =>
        ⟨exponentOf_of_digits (by omega) (by omega) fun h => ?_, ?_⟩
      · omega
      · omega

theorem lt_of_canonical {spec : Format} {m : Nat} {e : Int} (h : exponentOf spec m e = e) :
    m < 2 ^ spec.mantissaBits := by
  have := @mul_pow_lt spec m e 0 0 (by omega)
  simpa using this

/-- A number without all the digits of its format is among the least ones. -/
theorem eq_minExponent_of_canonical {spec : Format} {m : Nat} {e : Int}
    (h : exponentOf spec m e = e) (hm : m < 2 ^ spec.mantissaBitsWithoutImplicit) :
    e = spec.minExponent := by
  have hbits : spec.mantissaBits = 1 + spec.mantissaBitsWithoutImplicit := rfl
  have hpositive := spec.hm
  have hlog : m.log2 + 1 ≤ spec.mantissaBitsWithoutImplicit := by
    by_cases hzero : m = 0
    · rw [hzero, Nat.log2_zero]
      omega
    · exact (Nat.log2_lt hzero).2 hm
  rw [exponentOf_eq] at h
  omega

/-- The fields of a float that is written as its format has it. -/
theorem pack_ofSignificand {spec : Format} (wide : 2 ≤ spec.exponentBits) (s : Sign) {m : Nat}
    {e : Int} (canonical : m ≠ 0 → exponentOf spec m e = e) :
    (ofSignificand s m e).pack spec =
      if m < 2 ^ spec.mantissaBitsWithoutImplicit then
        UnpackedFloat.packComponents spec s 0 (BitVec.ofNat _ m)
      else if 2 ^ spec.exponentBits ≤ (e - spec.minExponent).toNat + 2 then
        UnpackedFloat.packedInfinity spec s
      else
        UnpackedFloat.packComponents spec s (BitVec.ofNat _ ((e - spec.minExponent).toNat + 1))
          (BitVec.ofNat _ (m - 2 ^ spec.mantissaBitsWithoutImplicit)) := by
  have hfour : 2 ^ 2 ≤ 2 ^ spec.exponentBits := Nat.pow_le_pow_right (by decide) wide
  have hbits : spec.mantissaBits = 1 + spec.mantissaBitsWithoutImplicit := rfl
  have hbias := exponentBias_eq spec
  have hpos := Nat.two_pow_pos spec.mantissaBitsWithoutImplicit
  by_cases hzero : m = 0
  · subst hzero
    rw [if_pos hpos]
    rfl
  have canonical := canonical hzero
  have hleast := minExponent_le_of_canonical canonical
  have hlt := lt_of_canonical canonical
  have hfield : (e + spec.exponentBias + spec.mantissaBitsWithoutImplicit).toNat =
      (e - spec.minExponent).toNat + 1 := by omega
  simp only [ofSignificand, dif_neg hzero, UnpackedFloat.pack, hfield]
  by_cases hsmall : m < 2 ^ spec.mantissaBitsWithoutImplicit
  · have hexp := eq_minExponent_of_canonical canonical hsmall
    have hlog := (Nat.log2_lt hzero).2 hsmall
    rw [if_neg (by omega), if_neg (by omega), if_pos hsmall]
    rfl
  · have hlog : m.log2 + 1 = spec.mantissaBits := by
      have hlow := (Nat.le_log2 hzero).2 (not_lt.1 hsmall)
      have hhigh := (Nat.log2_lt hzero).2 hlt
      omega
    have hdigits : BitVec.ofNat spec.mantissaBitsWithoutImplicit m =
        BitVec.ofNat _ (m - 2 ^ spec.mantissaBitsWithoutImplicit) := by
      apply BitVec.eq_of_toNat_eq
      have hle : 2 ^ spec.mantissaBitsWithoutImplicit ≤ m := not_lt.1 hsmall
      rw [BitVec.toNat_ofNat, BitVec.toNat_ofNat, Nat.mod_eq_sub_mod hle]
    rw [if_neg hsmall, if_pos hlog, hdigits]

theorem toNat_quietMantissa (spec : Format) :
    (BitVec.ofNat spec.mantissaBitsWithoutImplicit 1 <<<
      (spec.mantissaBitsWithoutImplicit - 1)).toNat =
      2 ^ (spec.mantissaBitsWithoutImplicit - 1) := by
  have hpositive := spec.hm
  rw [BitVec.toNat_shiftLeft, BitVec.toNat_ofNat, Nat.mod_eq_of_lt (Nat.one_lt_two_pow (by omega)),
    Nat.shiftLeft_eq, Nat.one_mul, Nat.mod_eq_of_lt (Nat.pow_lt_pow_right (by decide) (by omega))]

/-- Packing keeps a float that is written as its format has it. -/
theorem unpack_pack {spec : Format} (wide : 2 ≤ spec.exponentBits) {x : UnpackedFloat}
    (canonical : Canonical spec x) : UnpackedFloat.unpack spec (x.pack spec) = x := by
  have hfour : 2 ^ 2 ≤ 2 ^ spec.exponentBits := Nat.pow_le_pow_right (by decide) wide
  have hpos := Nat.two_pow_pos spec.mantissaBitsWithoutImplicit
  have hdouble : 2 ^ spec.mantissaBits = 2 * 2 ^ spec.mantissaBitsWithoutImplicit := by
    rw [Format.mantissaBits, Nat.pow_add, Nat.pow_one]
  cases x with
  | notANumber =>
    have hmantissa : (BitVec.ofNat spec.mantissaBitsWithoutImplicit 1 <<<
        (spec.mantissaBitsWithoutImplicit - 1)).toNat ≠ 0 := by
      rw [toNat_quietMantissa]
      exact (Nat.two_pow_pos _).ne'
    simp only [UnpackedFloat.pack, UnpackedFloat.packedNaN, unpack_eq,
      UnpackedFloat.unpackExponent_packComponents, UnpackedFloat.unpackMantissa_packComponents,
      BitVec.neg_one_eq_allOnes, BitVec.toNat_allOnes, if_true, if_neg hmantissa]
  | infinity s =>
    simp only [UnpackedFloat.pack, UnpackedFloat.packedInfinity, unpack_eq,
      unpackSign_packComponents, ofBitVec_toBitVec, UnpackedFloat.unpackExponent_packComponents,
      UnpackedFloat.unpackMantissa_packComponents, BitVec.neg_one_eq_allOnes, BitVec.toNat_allOnes]
    simp
  | zero s =>
    simp only [UnpackedFloat.pack, UnpackedFloat.packedZero, unpack_eq, unpackSign_packComponents,
      ofBitVec_toBitVec, UnpackedFloat.unpackExponent_packComponents,
      UnpackedFloat.unpackMantissa_packComponents]
    simp [ofSignificand]
    omega
  | finite s m e hm =>
    obtain ⟨canonical, hbound⟩ := canonical
    have hlt := lt_of_canonical canonical
    have hleast := minExponent_le_of_canonical canonical
    have hfinite : UnpackedFloat.finite s m e hm = ofSignificand s m e := by
      rw [ofSignificand, dif_neg (by omega)]
    rw [hfinite, pack_ofSignificand wide s fun _ => canonical]
    by_cases hsmall : m < 2 ^ spec.mantissaBitsWithoutImplicit
    · have hexp := eq_minExponent_of_canonical canonical hsmall
      rw [if_pos hsmall, unpack_eq]
      simp only [unpackSign_packComponents, ofBitVec_toBitVec,
        UnpackedFloat.unpackExponent_packComponents, UnpackedFloat.unpackMantissa_packComponents,
        BitVec.toNat_ofNat, Nat.mod_eq_of_lt hsmall, hexp]
      simp
      omega
    · have hfield : (e - spec.minExponent).toNat + 1 < 2 ^ spec.exponentBits := by omega
      have hdigits : m - 2 ^ spec.mantissaBitsWithoutImplicit <
          2 ^ spec.mantissaBitsWithoutImplicit := by omega
      have hm' : 2 ^ spec.mantissaBitsWithoutImplicit +
          (m - 2 ^ spec.mantissaBitsWithoutImplicit) = m := by omega
      have he' : spec.minExponent + (((e - spec.minExponent).toNat + 1 : Nat) - 1 : Int) = e := by
        omega
      rw [if_neg hsmall, if_neg (by omega), unpack_eq]
      simp only [unpackSign_packComponents, ofBitVec_toBitVec,
        UnpackedFloat.unpackExponent_packComponents, UnpackedFloat.unpackMantissa_packComponents,
        BitVec.toNat_ofNat, Nat.mod_eq_of_lt hdigits, Nat.mod_eq_of_lt hfield]
      rw [if_neg (by omega), if_neg (by omega), hm', he']

/-! ## The fields of a packed float -/

theorem toNat_packComponents (spec : Format) (s : Sign) (e : BitVec spec.exponentBits)
    (m : BitVec spec.mantissaBitsWithoutImplicit) :
    (UnpackedFloat.packComponents spec s e m).toNat =
      (s.toBitVec.toNat * 2 ^ spec.exponentBits + e.toNat) *
        2 ^ spec.mantissaBitsWithoutImplicit + m.toNat := by
  have happend : ∀ {k n : Nat} (x : BitVec k) (y : BitVec n),
      (x ++ y).toNat = x.toNat * 2 ^ n + y.toNat := by
    intro k n x y
    rw [BitVec.toNat_append, ← Nat.shiftLeft_add_eq_or_of_lt y.isLt, Nat.shiftLeft_eq]
  rw [UnpackedFloat.packComponents, happend, happend]

theorem toNat_unpackMantissa {spec : Format} (b : BitVec spec.numBits) :
    (UnpackedFloat.unpackMantissa b).toNat = b.toNat % 2 ^ spec.mantissaBitsWithoutImplicit := by
  have := spec.hm
  rw [UnpackedFloat.unpackMantissa, BitVec.toNat_cast, BitVec.extractLsb_toNat, Nat.shiftRight_zero]
  congr 2
  omega

theorem toNat_unpackExponent {spec : Format} (b : BitVec spec.numBits) :
    (UnpackedFloat.unpackExponent b).toNat =
      b.toNat / 2 ^ spec.mantissaBitsWithoutImplicit % 2 ^ spec.exponentBits := by
  have := spec.he
  rw [UnpackedFloat.unpackExponent, BitVec.toNat_cast, BitVec.extractLsb_toNat,
    Nat.shiftRight_eq_div_pow]
  congr 2
  omega

theorem toNat_unpackSign {spec : Format} (b : BitVec spec.numBits) :
    (UnpackedFloat.unpackSign b).toNat =
      b.toNat / 2 ^ spec.mantissaBitsWithoutImplicit / 2 ^ spec.exponentBits := by
  have hlt : b.toNat / 2 ^ (spec.mantissaBitsWithoutImplicit + spec.exponentBits) < 2 := by
    rw [Nat.div_lt_iff_lt_mul (Nat.two_pow_pos _), ← Nat.pow_succ']
    refine lt_of_lt_of_le b.isLt (Nat.pow_le_pow_right (by decide) ?_)
    unfold Format.numBits
    omega
  rw [UnpackedFloat.unpackSign, BitVec.toNat_cast, BitVec.extractLsb_toNat,
    Nat.shiftRight_eq_div_pow, Nat.div_div_eq_div_mul, ← Nat.pow_add, Nat.sub_self]
  exact Nat.mod_eq_of_lt hlt

theorem toBitVec_ofBitVec (b : BitVec 1) : (Sign.ofBitVec b).toBitVec = b := by
  obtain rfl | rfl := BitVec.eq_zero_or_eq_one b <;> rfl

/-- A packed float consists of its fields. -/
theorem packComponents_unpack {spec : Format} (b : BitVec spec.numBits) :
    UnpackedFloat.packComponents spec (.ofBitVec (UnpackedFloat.unpackSign b))
      (UnpackedFloat.unpackExponent b) (UnpackedFloat.unpackMantissa b) = b := by
  apply BitVec.eq_of_toNat_eq
  rw [toNat_packComponents, toBitVec_ofBitVec, toNat_unpackMantissa, toNat_unpackExponent,
    toNat_unpackSign, Nat.div_add_mod', Nat.div_add_mod']

/-- Unpacking keeps a float whose only bits for NaN are the quiet ones. -/
theorem pack_unpack {spec : Format} (wide : 2 ≤ spec.exponentBits) {b : BitVec spec.numBits}
    (valid : spec.Valid b) : (UnpackedFloat.unpack spec b).pack spec = b := by
  have hfour : 2 ^ 2 ≤ 2 ^ spec.exponentBits := Nat.pow_le_pow_right (by decide) wide
  have hfield := (UnpackedFloat.unpackExponent b).isLt
  have hfraction := (UnpackedFloat.unpackMantissa b).isLt
  have hspecial : (UnpackedFloat.unpackExponent b).toNat = 2 ^ spec.exponentBits - 1 →
      UnpackedFloat.unpackExponent b = -1#_ := by
    intro h
    rw [BitVec.neg_one_eq_allOnes, ← BitVec.toNat_inj, BitVec.toNat_allOnes, h]
  have hzero : ∀ {n : Nat} (c : BitVec n), c = 0#n ↔ c.toNat = 0 := by
    intro n c
    rw [← BitVec.toNat_inj]
    simp
  rw [unpack_eq]
  split
  · rename_i hexponent
    split
    · rename_i hmantissa
      conv_rhs => rw [← packComponents_unpack b, hspecial hexponent, (hzero _).2 hmantissa]
      rfl
    · rename_i hmantissa
      exact (valid.eq_packedNaN (hspecial hexponent) (mt (hzero _).1 hmantissa)).symm
  · rename_i hexponent
    split
    · rename_i hsubnormal
      rw [pack_ofSignificand wide, if_pos hfraction, BitVec.ofNat_toNat, BitVec.setWidth_eq]
      · conv_rhs => rw [← packComponents_unpack b, (hzero _).2 hsubnormal]
        rfl
      · intro _
        refine exponentOf_of_digits (lt_trans hfraction ?_) le_rfl fun _ => rfl
        exact Nat.pow_lt_pow_right (by decide) (by unfold Format.mantissaBits; omega)
    · rename_i hnormal
      have hexp : (spec.minExponent + (((UnpackedFloat.unpackExponent b).toNat : Int) - 1) -
          spec.minExponent).toNat + 1 = (UnpackedFloat.unpackExponent b).toNat := by omega
      rw [pack_ofSignificand wide, if_neg (by omega), if_neg (by omega), hexp,
        Nat.add_sub_cancel_left, BitVec.ofNat_toNat, BitVec.setWidth_eq, BitVec.ofNat_toNat,
        BitVec.setWidth_eq, packComponents_unpack]
      intro _
      refine exponentOf_of_digits ?_ (by omega) fun h => by omega
      rw [Format.mantissaBits, Nat.pow_add]
      omega

end Unpacked

end RasterShader
