import Mathlib
import RasterShader.Arithmetic.Double
import RasterShader.Proofs.Arithmetic.Rounding

/-!
# Formats and the floats of the language

Constants go from one format to the other through exact fractions (`BinaryFormat.convert`), and the
arithmetic of doubles is that of the language.
-/

namespace RasterShader

open Float.Model (Format UnpackedFloat)
open Float.Model.UnpackedFloat (Sign)

/-! ## Two descriptions of a format -/

namespace BinaryFormat

/-- The description of a format of the language. -/
def ofSpec (spec : Format) : BinaryFormat :=
  ⟨spec.mantissaBitsWithoutImplicit, spec.exponentBits⟩

theorem ofSpec_binary64 : ofSpec .binary64 = .double := rfl

theorem ofSpec_binary32 : ofSpec .binary32 = .single := rfl

variable (spec : Format)

theorem leastExponent_ofSpec : (ofSpec spec).leastExponent = spec.minExponent := by
  have hbits : spec.mantissaBits = 1 + spec.mantissaBitsWithoutImplicit := rfl
  have hpow : ((Nat.pow 2 (spec.exponentBits - 1) : Nat) : Int) = 2 ^ (spec.exponentBits - 1) :=
    Int.natCast_pow ..
  simp only [leastExponent, ofSpec, Format.minExponent, hbits, hpow]
  push_cast
  ring

/-- A magnitude of a format with a sign, as it is packed. -/
theorem toNat_packComponents_eq_withSign (s : Sign) (e : BitVec spec.exponentBits)
    (m : BitVec spec.mantissaBitsWithoutImplicit) :
    (UnpackedFloat.packComponents spec s e m).toNat =
      (ofSpec spec).withSign (s == .negative)
        (e.toNat * 2 ^ spec.mantissaBitsWithoutImplicit + m.toNat) := by
  rw [Unpacked.toNat_packComponents]
  cases s with
  | positive =>
    have : Sign.positive.toBitVec.toNat = 0 := rfl
    rw [this, Nat.zero_mul, Nat.zero_add]
    rfl
  | negative =>
    have : Sign.negative.toBitVec.toNat = 1 := rfl
    have hpow : (ofSpec spec).signBit =
        2 ^ spec.exponentBits * 2 ^ spec.mantissaBitsWithoutImplicit := by
      rw [Nat.mul_comm, ← Nat.pow_add]
      rfl
    rw [this, Nat.one_mul, Nat.add_mul, withSign, hpow, Nat.add_assoc]
    rfl

/-- What a bit pattern stands for, in terms of its fields. -/
theorem decode_ofSpec (b : BitVec spec.numBits) :
    (ofSpec spec).decode b.toNat =
      if (UnpackedFloat.unpackExponent b).toNat = 2 ^ spec.exponentBits - 1 then
        if (UnpackedFloat.unpackMantissa b).toNat = 0 then
          .infinite (Sign.ofBitVec (UnpackedFloat.unpackSign b) == .negative)
        else .notANumber
      else if (UnpackedFloat.unpackExponent b).toNat = 0 then
        .finite (Sign.ofBitVec (UnpackedFloat.unpackSign b) == .negative)
          (UnpackedFloat.unpackMantissa b).toNat spec.minExponent false
      else
        .finite (Sign.ofBitVec (UnpackedFloat.unpackSign b) == .negative)
          (2 ^ spec.mantissaBitsWithoutImplicit + (UnpackedFloat.unpackMantissa b).toNat)
          (spec.minExponent + ((UnpackedFloat.unpackExponent b).toNat - 1 : Nat))
          ((UnpackedFloat.unpackMantissa b).toNat == 0) := by
  have hsignBit : (ofSpec spec).signBit =
      2 ^ spec.mantissaBitsWithoutImplicit * 2 ^ spec.exponentBits := (Nat.pow_add ..).trans rfl
  have hfraction : b.toNat % (ofSpec spec).signBit % 2 ^ spec.mantissaBitsWithoutImplicit =
      (UnpackedFloat.unpackMantissa b).toNat := by
    rw [Unpacked.toNat_unpackMantissa, hsignBit, Nat.mod_mul_right_mod]
  have hfield : b.toNat % (ofSpec spec).signBit / 2 ^ spec.mantissaBitsWithoutImplicit =
      (UnpackedFloat.unpackExponent b).toNat := by
    rw [Unpacked.toNat_unpackExponent, hsignBit, Nat.mod_mul_right_div_self]
  have hnegative : decide ((ofSpec spec).signBit ≤ b.toNat) =
      (Sign.ofBitVec (UnpackedFloat.unpackSign b) == .negative) := by
    have hsign := Unpacked.toNat_unpackSign b
    rw [Nat.div_div_eq_div_mul, ← hsignBit] at hsign
    have hpos : 0 < (ofSpec spec).signBit := Nat.two_pow_pos _
    obtain hbit | hbit := BitVec.eq_zero_or_eq_one (UnpackedFloat.unpackSign b)
    · rw [hbit] at hsign ⊢
      have hlt : b.toNat < (ofSpec spec).signBit :=
        (Nat.div_eq_zero_iff_lt hpos).1 hsign.symm
      rw [decide_eq_false (not_le.2 hlt)]
      rfl
    · rw [hbit] at hsign ⊢
      have hle : 1 ≤ b.toNat / (ofSpec spec).signBit := by
        rw [← hsign]
        rfl
      rw [Nat.le_div_iff_mul_le hpos, Nat.one_mul] at hle
      rw [decide_eq_true hle]
      rfl
  have hbits : Nat.pow 2 (ofSpec spec).fractionBits = 2 ^ spec.mantissaBitsWithoutImplicit := rfl
  have hspecial : (ofSpec spec).specialExponent = 2 ^ spec.exponentBits - 1 := rfl
  simp only [decode, hbits, hspecial, hfraction, hfield, hnegative, leastExponent_ofSpec]

/-! ## Rounding in both descriptions -/

/-- A power of two times a number, as a fraction. -/
theorem scaleByPow2_eq (num den : Nat) (e : Int) :
    scaleByPow2 num den e = (num * 2 ^ e.toNat, den * 2 ^ (-e).toNat) := by
  cases e with
  | ofNat e => simp [scaleByPow2]
  | negSucc e =>
    have hup : (Int.negSucc e).toNat = 0 := rfl
    simp [scaleByPow2, hup]

/-- The exponent to which a fraction is rounded. -/
def nearestExponent (fmt : BinaryFormat) (num den : Nat) : Int :=
  let precision := fmt.fractionBits + 1
  let guess : Int := (num.log2 : Int) - den.log2 - precision
  let fits (q : Int) : Bool :=
    let (n, d) := scaleByPow2 num den (-q)
    n / d < Nat.pow 2 precision
  let wanted := if fits guess then guess else if fits (guess + 1) then guess + 1 else guess + 2
  max wanted fmt.leastExponent

/-- The bit pattern of a rounded significand. -/
def encode (fmt : BinaryFormat) (m : Nat) (q : Int) : Nat :=
  if m < Nat.pow 2 fmt.fractionBits then m
  else if fmt.specialExponent ≤ (q - fmt.leastExponent).toNat + 1 then fmt.infinityBits
  else
    ((q - fmt.leastExponent).toNat + 1) * Nat.pow 2 fmt.fractionBits +
      (m - Nat.pow 2 fmt.fractionBits)

theorem nearest_eq_encode (fmt : BinaryFormat) {num : Nat} (hnum : num ≠ 0) (den : Nat) {m : Nat}
    (hm : roundHalfEven (scaleByPow2 num den (-fmt.nearestExponent num den)).1
      (scaleByPow2 num den (-fmt.nearestExponent num den)).2 = m) :
    fmt.nearest num den =
      if m = Nat.pow 2 (fmt.fractionBits + 1) then
        fmt.encode (Nat.pow 2 fmt.fractionBits) (fmt.nearestExponent num den + 1)
      else fmt.encode m (fmt.nearestExponent num den) := by
  subst hm
  rw [nearest, if_neg hnum]
  set q := fmt.nearestExponent num den with hq
  set m := roundHalfEven (scaleByPow2 num den (-q)).1 (scaleByPow2 num den (-q)).2 with hm
  calc _ = fmt.encode
        (if m = Nat.pow 2 (fmt.fractionBits + 1) then (Nat.pow 2 fmt.fractionBits, q + 1)
          else (m, q)).1
        (if m = Nat.pow 2 (fmt.fractionBits + 1) then (Nat.pow 2 fmt.fractionBits, q + 1)
          else (m, q)).2 := rfl
    _ = _ := by split <;> rfl

variable {spec}

/-- A number times a power of two is rounded to the exponent that it has in the format. -/
theorem nearestExponent_ofSpec {m : Nat} (hm : m ≠ 0) (e : Int) :
    (ofSpec spec).nearestExponent (m * 2 ^ e.toNat) (2 ^ (-e).toNat) =
      Unpacked.exponentOf spec m e := by
  unfold nearestExponent
  extract_lets precision guess fits wanted
  have hbits : spec.mantissaBits = 1 + spec.mantissaBitsWithoutImplicit := rfl
  have hprecision : precision = spec.mantissaBits := Nat.add_comm ..
  have hguess : guess = m.log2 + e - precision := by
    simp only [guess, log2_mul_pow hm, Nat.log2_two_pow]
    omega
  have hfits : ∀ q, fits q = decide (m * 2 ^ (e.toNat + (-q).toNat) <
      2 ^ (precision + ((-e).toNat + q.toNat))) := by
    intro q
    simp only [fits, scaleByPow2_eq, Int.neg_neg]
    congr 1
    rw [eq_iff_iff, Nat.div_lt_iff_lt_mul (by positivity), Nat.mul_assoc, ← Nat.pow_add,
      ← Nat.pow_add, Nat.pow_add 2 precision]
    rfl
  have hlow : fits guess = false := by
    rw [hfits, decide_eq_false_iff_not, not_lt]
    calc 2 ^ (precision + ((-e).toNat + guess.toNat))
        = 2 ^ m.log2 * 2 ^ (e.toNat + (-guess).toNat) := by
          rw [← Nat.pow_add]
          congr 1
          omega
      _ ≤ m * 2 ^ (e.toNat + (-guess).toNat) := Nat.mul_le_mul_right _ (Nat.log2_self_le hm)
  have hhigh : fits (guess + 1) = true := by
    rw [hfits, decide_eq_true_eq]
    calc m * 2 ^ (e.toNat + (-(guess + 1)).toNat)
        < 2 ^ (m.log2 + 1) * 2 ^ (e.toNat + (-(guess + 1)).toNat) :=
          Nat.mul_lt_mul_of_pos_right Nat.lt_log2_self (Nat.two_pow_pos _)
      _ = 2 ^ (precision + ((-e).toNat + (guess + 1).toNat)) := by
          rw [← Nat.pow_add]
          congr 1
          omega
  have hwanted : wanted = guess + 1 := by
    simp only [wanted, hlow, hhigh, Bool.false_eq_true, if_false, if_true]
  rw [hwanted, leastExponent_ofSpec, Unpacked.exponentOf_eq]
  omega

/-- Both descriptions of a format pack a number to the same bits. -/
theorem withSign_encode (wide : 2 ≤ spec.exponentBits) (s : Sign) {m : Nat} {e : Int}
    (canonical : m ≠ 0 → Unpacked.exponentOf spec m e = e) :
    (ofSpec spec).withSign (s == .negative) ((ofSpec spec).encode m e) =
      ((Unpacked.ofSignificand s m e).pack spec).toNat := by
  have hpow : Nat.pow 2 (ofSpec spec).fractionBits = 2 ^ spec.mantissaBitsWithoutImplicit := rfl
  have hspecial : (ofSpec spec).specialExponent = 2 ^ spec.exponentBits - 1 := rfl
  have hpos := Nat.two_pow_pos spec.exponentBits
  rw [Unpacked.pack_ofSignificand wide s canonical, encode, hpow, hspecial, leastExponent_ofSpec]
  split
  · rename_i hsmall
    rw [toNat_packComponents_eq_withSign, BitVec.toNat_ofNat, Nat.mod_eq_of_lt hsmall]
    simp
  · rename_i hlarge
    split
    · rw [if_pos (by omega), UnpackedFloat.packedInfinity, toNat_packComponents_eq_withSign,
        BitVec.neg_one_eq_allOnes, BitVec.toNat_allOnes]
      rfl
    · rename_i hfinite
      have hlt := Unpacked.lt_of_canonical (canonical (by
        have := Nat.two_pow_pos spec.mantissaBitsWithoutImplicit
        omega))
      rw [Format.mantissaBits, Nat.pow_add, Nat.pow_one] at hlt
      rw [if_neg (by omega), toNat_packComponents_eq_withSign, BitVec.toNat_ofNat,
        BitVec.toNat_ofNat, Nat.mod_eq_of_lt (by omega), Nat.mod_eq_of_lt (by omega)]

/-- Both descriptions of a format round a number to the same bits. -/
theorem withSign_nearest (wide : 2 ≤ spec.exponentBits) (s : Sign) {m : Nat} (hm : m ≠ 0) (e : Int) :
    (ofSpec spec).withSign (s == .negative)
        ((ofSpec spec).nearest (m * 2 ^ e.toNat) (2 ^ (-e).toNat)) =
      ((UnpackedFloat.round spec s m e).pack spec).toNat := by
  have hne : m * 2 ^ e.toNat ≠ 0 := by
    have := Nat.two_pow_pos e.toNat
    positivity
  have hexponent := @nearestExponent_ofSpec spec m hm e
  have hleast : spec.minExponent ≤ Unpacked.exponentOf spec m e := by
    rw [Unpacked.exponentOf_eq]
    omega
  have hsignificand : roundHalfEven
      (scaleByPow2 (m * 2 ^ e.toNat) (2 ^ (-e).toNat)
        (-(ofSpec spec).nearestExponent (m * 2 ^ e.toNat) (2 ^ (-e).toNat))).1
      (scaleByPow2 (m * 2 ^ e.toNat) (2 ^ (-e).toNat)
        (-(ofSpec spec).nearestExponent (m * 2 ^ e.toNat) (2 ^ (-e).toNat))).2 =
      Unpacked.significandAt m e (Unpacked.exponentOf spec m e) := by
    rw [hexponent, scaleByPow2_eq, Int.neg_neg, Nat.mul_assoc, ← Nat.pow_add, ← Nat.pow_add]
    exact Unpacked.roundHalfEven_pow m (by omega)
  have hfull : Nat.pow 2 ((ofSpec spec).fractionBits + 1) = 2 ^ spec.mantissaBits := by
    rw [Format.mantissaBits, Nat.add_comm]
    rfl
  have hle := Unpacked.significandAt_le spec m e
  rw [nearest_eq_encode _ hne _ hsignificand, hexponent, hfull, Unpacked.round_eq spec s hm]
  split
  · have hlt : 2 ^ spec.mantissaBitsWithoutImplicit < 2 ^ spec.mantissaBits :=
      Nat.pow_lt_pow_right (by decide) (by unfold Format.mantissaBits; omega)
    exact withSign_encode wide s fun _ =>
      Unpacked.exponentOf_of_digits hlt (by omega) fun h => absurd h (lt_irrefl _)
  · refine withSign_encode wide s fun _ => Unpacked.exponentOf_of_digits (by omega) hleast ?_
    intro hsmall
    by_contra hne
    have := Unpacked.le_significandAt hm hne
    omega

end BinaryFormat

namespace Unpacked

/-- A float rounded to a format. -/
def roundTo (spec : Format) : UnpackedFloat → UnpackedFloat
  | .finite s m e _ => UnpackedFloat.round spec s m e
  | x => x

theorem roundTo_ofSignificand (spec : Format) (s : Sign) (m : Nat) (e : Int) :
    roundTo spec (ofSignificand s m e) =
      if m = 0 then .zero s else UnpackedFloat.round spec s m e := by
  by_cases hm : m = 0
  · rw [ofSignificand, dif_pos hm, if_pos hm]
    rfl
  · rw [ofSignificand, dif_neg hm, if_neg hm]
    rfl

end Unpacked

namespace BinaryFormat

/-- Going through an exact fraction from one format to another is rounding. -/
theorem convert_ofSpec {source target : Format} (wide : 2 ≤ target.exponentBits)
    (b : BitVec source.numBits) :
    (ofSpec source).convert (ofSpec target) b.toNat =
      ((Unpacked.roundTo target (UnpackedFloat.unpack source b)).pack target).toNat := by
  have hfinite : ∀ (s : Sign) (m : Nat) (e : Int),
      (ofSpec target).withSign (s == .negative)
          ((ofSpec target).nearest (scaleByPow2 m 1 e).1 (scaleByPow2 m 1 e).2) =
        ((Unpacked.roundTo target (Unpacked.ofSignificand s m e)).pack target).toNat := by
    intro s m e
    rw [scaleByPow2_eq, Nat.one_mul, Unpacked.roundTo_ofSignificand]
    split
    · rename_i hm
      subst hm
      have hzero := toNat_packComponents_eq_withSign target s 0 0
      simp only [BitVec.ofNat_eq_ofNat, BitVec.toNat_ofNat, Nat.zero_mod, Nat.zero_mul,
        Nat.add_zero] at hzero
      rw [Nat.zero_mul, nearest, if_pos rfl, ← hzero]
      rfl
    · rename_i hm
      exact withSign_nearest wide s hm e
  rw [convert, decode_ofSpec, Unpacked.unpack_eq]
  by_cases hexponent : (UnpackedFloat.unpackExponent b).toNat = 2 ^ source.exponentBits - 1
  · by_cases hmantissa : (UnpackedFloat.unpackMantissa b).toNat = 0
    · have hinfinity := toNat_packComponents_eq_withSign target
        (.ofBitVec (UnpackedFloat.unpackSign b)) (-1#_) 0
      simp only [BitVec.neg_one_eq_allOnes, BitVec.toNat_allOnes, BitVec.ofNat_eq_ofNat,
        BitVec.toNat_ofNat, Nat.zero_mod, Nat.add_zero] at hinfinity
      simp only [if_pos hexponent, if_pos hmantissa]
      refine Eq.trans ?_ (hinfinity.symm.trans ?_)
      · rfl
      · rw [← BitVec.neg_one_eq_allOnes]
        rfl
    · have hnan := Unpacked.toNat_packComponents target .positive (-1#_)
        (BitVec.ofNat target.mantissaBitsWithoutImplicit 1 <<<
          (target.mantissaBitsWithoutImplicit - 1))
      rw [Unpacked.toNat_quietMantissa, BitVec.neg_one_eq_allOnes, BitVec.toNat_allOnes] at hnan
      simp only [if_pos hexponent, if_neg hmantissa]
      refine Eq.trans ?_ (hnan.symm.trans ?_)
      · rw [show Sign.positive.toBitVec.toNat = 0 from rfl, Nat.zero_mul, Nat.zero_add]
        rfl
      · rw [← BitVec.neg_one_eq_allOnes]
        rfl
  · by_cases hsubnormal : (UnpackedFloat.unpackExponent b).toNat = 0
    · simp only [if_neg hexponent, if_pos hsubnormal]
      exact hfinite ..
    · have hfield : (((UnpackedFloat.unpackExponent b).toNat - 1 : Nat) : Int) =
          (UnpackedFloat.unpackExponent b).toNat - 1 := by omega
      simp only [if_neg hexponent, if_neg hsubnormal, hfield]
      exact hfinite ..

end BinaryFormat

end RasterShader
