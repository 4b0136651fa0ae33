import Mathlib
import RasterShader.Proofs.Arithmetic.Double

/-!
# Integers as doubles

Doubles hold the integers up to 53 bits exactly (`Double.IsInt`), and as long as no result needs
more bits, they are added, negated and compared as integers are.  Zero is held by two doubles, which
differ in the sign only.
-/

namespace RasterShader

open Float.Model (Format UnpackedFloat)
open Float.Model.UnpackedFloat (Sign ExtendedMantissa)

namespace Unpacked

/-- The sign of an integer. -/
def signOf (n : Int) : Sign := if n < 0 then .negative else .positive

/-- An integer of up to 53 bits with all the digits of double precision. -/
def ofInteger (s : Sign) (n : Nat) : UnpackedFloat :=
  ofSignificand s (n * 2 ^ (52 - n.log2)) (-(52 - n.log2 : Nat))

theorem ofInteger_zero (s : Sign) : ofInteger s 0 = .zero s := by
  simp [ofInteger, ofSignificand]

theorem ofInteger_of_ne_zero (s : Sign) {n : Nat} (hn : n ≠ 0) :
    ofInteger s n = .finite s (n * 2 ^ (52 - n.log2)) (-(52 - n.log2 : Nat))
      (Nat.mul_pos (Nat.pos_of_ne_zero hn) (Nat.two_pow_pos _)) := by
  rw [ofInteger, ofSignificand, dif_neg (Nat.mul_ne_zero hn (Nat.two_pow_pos _).ne')]

theorem neg_ofInteger (s : Sign) (n : Nat) : (ofInteger s n).neg = ofInteger (-s) n :=
  neg_ofSignificand ..

/-- The exponent of an integer in double precision. -/
theorem exponentOf_integer {n : Nat} (hn : n ≠ 0) (hlt : n < 2 ^ 53) :
    exponentOf Format.binary64 (n * 2 ^ (52 - n.log2)) (-(52 - n.log2 : Nat)) =
      -(52 - n.log2 : Nat) := by
  have hlog : n.log2 < 53 := (Nat.log2_lt hn).2 hlt
  have hbits : Format.binary64.mantissaBits = 53 := rfl
  have hmin : Format.binary64.minExponent = -1074 := rfl
  have := exponentOf_mul_pow Format.binary64 hn (52 - n.log2) 0
  rw [zero_sub] at this
  rw [this, exponentOf_eq, hbits, hmin]
  omega

theorem canonical_ofInteger (s : Sign) {n : Nat} (hlt : n < 2 ^ 53) :
    Canonical Format.binary64 (ofInteger s n) := by
  refine canonical_ofSignificand fun h => ?_
  have hn : n ≠ 0 := by
    rintro rfl
    simp at h
  refine ⟨exponentOf_integer hn hlt, ?_⟩
  have hmin : Format.binary64.minExponent = -1074 := rfl
  rw [hmin]
  norm_num
  omega

/-- A number that is an integer of up to 53 bits is rounded to that integer. -/
theorem round_integer (s : Sign) {m n : Nat} {e : Int} {a b : Nat} (hlt : n < 2 ^ 53) (hn : n ≠ 0)
    (hvalue : m * 2 ^ a = n * 2 ^ b) (hexponent : e = a - b) :
    UnpackedFloat.round Format.binary64 s m e = ofInteger s n := by
  refine round_of_mul_pow_eq s (a := a + (52 - n.log2)) (b := b)
    (Nat.mul_ne_zero hn (Nat.two_pow_pos _).ne') (exponentOf_integer hn hlt) ?_ ?_
  · rw [Nat.pow_add, ← Nat.mul_assoc, hvalue]
    ring
  · push_cast
    omega

theorem normalize_integer {mantissa n : Int} {k : Nat} (hlt : n.natAbs < 2 ^ 53)
    (hvalue : mantissa = n * 2 ^ k) :
    UnpackedFloat.normalize Format.binary64 mantissa (-k) .positive =
      ofInteger (signOf n) n.natAbs := by
  have hpow : (0 : Int) < 2 ^ k := by positivity
  have hmul : n * 2 ^ k = Int.sign n * ((n.natAbs * 2 ^ k : Nat) : Int) := by
    push_cast
    rw [← mul_assoc, ← Int.natCast_natAbs, Int.sign_mul_natAbs]
  rcases lt_trichotomy n 0 with hn | rfl | hn
  · have hneg : mantissa < 0 := by
      rw [hvalue]
      exact mul_neg_of_neg_of_pos hn hpow
    have hnat : (-mantissa).toNat = n.natAbs * 2 ^ k := by
      rw [hvalue, hmul, Int.sign_eq_neg_one_of_neg hn]
      omega
    rw [UnpackedFloat.normalize, (Int.compare_eq_lt).2 hneg]
    simp only [signOf, if_pos hn]
    exact round_integer _ (a := 0) (b := k) hlt (by omega) (by simpa using hnat) (by simp)
  · rw [zero_mul] at hvalue
    subst hvalue
    exact (ofInteger_zero _).symm
  · have hpos : 0 < mantissa := by
      rw [hvalue]
      exact mul_pos hn hpow
    have hnat : mantissa.toNat = n.natAbs * 2 ^ k := by
      rw [hvalue, hmul, Int.sign_eq_one_of_pos hn]
      omega
    rw [UnpackedFloat.normalize, (Int.compare_eq_gt).2 hpos]
    simp only [signOf, if_neg (not_lt.2 hn.le)]
    exact round_integer _ (a := 0) (b := k) hlt (by omega) (by simpa using hnat) (by simp)

/-! ## Integer parts -/

/-- The integer part of `m * 2 ^ e`. -/
def wholePart (m : Nat) (e : Int) : Nat := m * 2 ^ e.toNat / 2 ^ (-e).toNat

theorem wholePart_mul_pow (m k : Nat) (e : Int) : wholePart (m * 2 ^ k) (e - k) = wholePart m e := by
  obtain ⟨c, hup, hdown⟩ : ∃ c, k + (e - k).toNat = e.toNat + c ∧
      (-(e - k)).toNat = (-e).toNat + c :=
    ⟨k + (e - k).toNat - e.toNat, by omega, by omega⟩
  rw [wholePart, wholePart, Nat.mul_assoc, ← Nat.pow_add, hup, hdown, Nat.pow_add, Nat.pow_add,
    ← Nat.mul_assoc, Nat.mul_div_mul_right _ _ (Nat.two_pow_pos c)]

theorem roundToInt_eq (s : Sign) (m : Nat) (e : Int) :
    UnpackedFloat.roundToInt s m e = s.apply (wholePart m e) := by
  have hshift : (0 - (e - (e.toNat : Int))).toNat = (-e).toNat := by omega
  have hup : (e - 0).toNat = e.toNat := by rw [sub_zero]
  simp only [UnpackedFloat.roundToInt, UnpackedFloat.decreaseExponent,
    UnpackedFloat.shiftToExponent, ExtendedMantissa.ofMantissaAndAccuracy, mantissa_shiftRight,
    Nat.shiftLeft_eq, hup, hshift]
  rfl

theorem wholePart_integer (n : Nat) :
    wholePart (n * 2 ^ (52 - n.log2)) (-(52 - n.log2 : Nat)) = n := by
  have := wholePart_mul_pow n (52 - n.log2) 0
  rw [zero_sub] at this
  rw [this]
  simp [wholePart]

theorem canonical_abs {spec : Format} {x : UnpackedFloat} (h : Canonical spec x) :
    Canonical spec x.abs := by
  cases x with
  | finite s m e hm => exact h
  | _ => trivial

end Unpacked

theorem toNat_ofNatClamp64 (n : Nat) : (UInt64.ofNatClamp n).toNat = min n (2 ^ 64 - 1) := by
  unfold UInt64.ofNatClamp
  have hsize : UInt64.size = 2 ^ 64 := rfl
  split <;> simp only [UInt64.toNat_ofNatLT] <;> omega

namespace Double

open Unpacked

theorem unpacked_abs (x : Float) : unpacked x.abs = (unpacked x).abs :=
  unpacked_ofModel_pack (canonical_abs (canonical_unpacked x))

/-- The size of a double as a 64-bit integer. -/
theorem toNat_toUInt64_abs {x : Float} {s : Sign} {m : Nat} {e : Int} {hm : 0 < m}
    (h : unpacked x = .finite s m e hm) :
    x.abs.toUInt64.toNat = min (wholePart m e) (2 ^ 64 - 1) := by
  have hword : x.abs.toUInt64 = (unpacked x.abs).toUInt64 := rfl
  rw [hword, unpacked_abs, h, UnpackedFloat.abs, UnpackedFloat.toUInt64, UnpackedFloat.toInt,
    roundToInt_eq, toNat_ofNatClamp64]
  rfl

theorem toNat_toUInt64_abs_zero {x : Float} {s : Sign} (h : unpacked x = .zero s) :
    x.abs.toUInt64.toNat = 0 := by
  have hword : x.abs.toUInt64 = (unpacked x.abs).toUInt64 := rfl
  rw [hword, unpacked_abs, h]
  rfl

/-- The double holds an integer of up to 53 bits. -/
def IsInt (x : Float) (n : Int) : Prop :=
  n.natAbs < 2 ^ 53 ∧
    (unpacked x = ofInteger (signOf n) n.natAbs ∨ n = 0 ∧ unpacked x = .zero .negative)

theorem IsInt.of_unpacked {x : Float} {n : Int} (hlt : n.natAbs < 2 ^ 53) {u : UnpackedFloat}
    (hx : x = .ofModel (.pack u)) (hu : u = ofInteger (signOf n) n.natAbs) : IsInt x n := by
  subst hx hu
  exact ⟨hlt, .inl (unpacked_ofModel_pack (canonical_ofInteger _ hlt))⟩

theorem IsInt.of_zero {x : Float} {s : Sign} (h : unpacked x = .zero s) : IsInt x 0 := by
  refine ⟨by decide, ?_⟩
  cases s with
  | positive => exact .inl (h.trans (ofInteger_zero _).symm)
  | negative => exact .inr ⟨rfl, h⟩

/-- What a double stands for that holds an integer: a zero, or the integer with all digits. -/
theorem IsInt.cases {x : Float} {n : Int} (h : IsInt x n) :
    (n = 0 ∧ ∃ s, unpacked x = .zero s) ∨
      (n ≠ 0 ∧ unpacked x = ofInteger (signOf n) n.natAbs) := by
  by_cases hn : n = 0
  · subst hn
    refine .inl ⟨rfl, ?_⟩
    rcases h.2 with h | ⟨-, h⟩
    · exact ⟨_, h.trans (ofInteger_zero _)⟩
    · exact ⟨_, h⟩
  · refine .inr ⟨hn, ?_⟩
    rcases h.2 with h | ⟨hzero, -⟩
    · exact h
    · exact absurd hzero hn

theorem isInt_toFloat {n : UInt64} (hlt : n.toNat < 2 ^ 53) : IsInt n.toFloat n.toNat := by
  refine .of_unpacked (by simpa using hlt) (u := UnpackedFloat.ofUInt64 Format.binary64 n) rfl ?_
  exact normalize_integer (k := 0) (by simpa using hlt) (by simp)

theorem isInt_neg {x : Float} {n : Int} (h : IsInt x n) : IsInt (-x) (-n) := by
  rcases h.cases with ⟨rfl, s, hx⟩ | ⟨hn, hx⟩
  · exact .of_zero (s := -s) (by rw [unpacked_neg, hx]; rfl)
  · refine ⟨by simpa using h.1, .inl ?_⟩
    have hsign : signOf (-n) = -signOf n := by
      unfold signOf
      split <;> split <;> first | rfl | omega
    rw [unpacked_neg, hx, neg_ofInteger, hsign, Int.natAbs_neg]

/-! ## Sums -/

theorem apply_signOf (n : Int) (k : Nat) :
    (signOf n).apply ((n.natAbs * 2 ^ k : Nat) : Int) = n * 2 ^ k := by
  unfold signOf
  split <;> simp only [Sign.apply] <;> push_cast
  · rename_i hn
    rw [abs_of_neg hn]
    ring
  · rename_i hn
    rw [abs_of_nonneg (not_lt.1 hn)]

/-- The digits of an integer at a lower exponent. -/
theorem decreaseExponent_integer (n : Nat) {k shift : Nat} (h : k ≤ shift) :
    (UnpackedFloat.decreaseExponent (n * 2 ^ k) (-k) (-shift)).1 = n * 2 ^ shift := by
  have hshift : (-(k : Int) - -(shift : Int)).toNat = shift - k := by omega
  simp only [UnpackedFloat.decreaseExponent, hshift, Nat.shiftLeft_eq]
  rw [Nat.mul_assoc, ← Nat.pow_add, Nat.add_sub_cancel' h]

theorem add_ofInteger {m n : Int} (hm : m ≠ 0) (hn : n ≠ 0) (hlt : (m + n).natAbs < 2 ^ 53) :
    UnpackedFloat.add Format.binary64 (ofInteger (signOf m) m.natAbs)
        (ofInteger (signOf n) n.natAbs) =
      ofInteger (signOf (m + n)) (m + n).natAbs := by
  set j := 52 - m.natAbs.log2 with hj
  set k := 52 - n.natAbs.log2 with hk
  rw [ofInteger_of_ne_zero _ (Int.natAbs_ne_zero.2 hm), ofInteger_of_ne_zero _
    (Int.natAbs_ne_zero.2 hn), ← hj, ← hk]
  have hmin : min (-(j : Int)) (-(k : Int)) = -((max j k : Nat) : Int) := by omega
  simp only [UnpackedFloat.add, hmin]
  refine normalize_integer (k := max j k) hlt ?_
  rw [decreaseExponent_integer _ (le_max_left ..), decreaseExponent_integer _ (le_max_right ..),
    apply_signOf, apply_signOf]
  ring

theorem isInt_add {x y : Float} {m n : Int} (hx : IsInt x m) (hy : IsInt y n)
    (hlt : (m + n).natAbs < 2 ^ 53) : IsInt (x + y) (m + n) := by
  have hsum : x + y = .ofModel (.pack (UnpackedFloat.add Format.binary64 (unpacked x)
    (unpacked y))) := rfl
  rcases hx.cases with ⟨rfl, s, hx⟩ | ⟨hm, hx⟩ <;> rcases hy.cases with ⟨rfl, t, hy⟩ | ⟨hn, hy⟩
  · rw [hx, hy] at hsum
    cases s <;> cases t <;>
      exact .of_zero (by rw [hsum]; exact unpacked_ofModel_pack trivial)
  · rw [hx, hy, ofInteger_of_ne_zero _ (Int.natAbs_ne_zero.2 hn)] at hsum
    rw [zero_add] at hlt ⊢
    exact .of_unpacked hlt hsum (ofInteger_of_ne_zero _ (Int.natAbs_ne_zero.2 hn)).symm
  · rw [hx, hy, ofInteger_of_ne_zero _ (Int.natAbs_ne_zero.2 hm)] at hsum
    rw [add_zero] at hlt ⊢
    exact .of_unpacked hlt hsum (ofInteger_of_ne_zero _ (Int.natAbs_ne_zero.2 hm)).symm
  · rw [hx, hy] at hsum
    exact .of_unpacked hlt hsum (add_ofInteger hm hn hlt)

/-! ## Integers as literals -/

theorem unpacked_one : unpacked (Float.ofBits 0x3FF0000000000000) = ofInteger .positive 1 := by
  rw [unpacked_ofBits]
  rfl

/-- Multiplying an integer by one keeps it. -/
theorem mul_ofInteger_one (s : Sign) {n : Nat} (hlt : n < 2 ^ 53) :
    UnpackedFloat.mul Format.binary64 (ofInteger s n) (ofInteger .positive 1) = ofInteger s n := by
  have hsign : s * .positive = s := by cases s <;> rfl
  rw [ofInteger_of_ne_zero .positive one_ne_zero]
  by_cases hn : n = 0
  · subst hn
    rw [ofInteger_zero, UnpackedFloat.mul, hsign]
  · have hone : Nat.log2 1 = 0 := by decide
    have hexponent : -((52 - n.log2 : Nat) : Int) + -((52 - Nat.log2 1 : Nat) : Int) =
        -(52 - n.log2 : Nat) - (52 : Nat) := by omega
    have hsignificand : n * 2 ^ (52 - n.log2) * (1 * 2 ^ (52 - Nat.log2 1)) =
        n * 2 ^ (52 - n.log2) * 2 ^ 52 := by rw [hone, Nat.one_mul]
    conv_lhs => rw [ofInteger_of_ne_zero s hn]
    rw [UnpackedFloat.mul, hsign, hexponent, hsignificand, roundWithAccuracy_exact]
    · refine round_integer s (a := 0) (b := 52 - n.log2 + 52) hlt hn ?_ ?_
      · rw [Nat.pow_add]
        ring
      · push_cast
        ring
    · have hne : n * 2 ^ (52 - n.log2) ≠ 0 := Nat.mul_ne_zero hn (Nat.two_pow_pos _).ne'
      rw [exponentOf_mul_pow _ hne, exponentOf_integer hn hlt]
      omega

theorem isInt_ofNat {n : Nat} (hlt : n < 2 ^ 53) : IsInt (Float.ofNat n) n := by
  have hword : n.toUInt64.toNat = n := Nat.mod_eq_of_lt (by omega)
  have hliteral : Float.ofNat n = n.toUInt64.toFloat * Float.ofBits 0x3FF0000000000000 :=
    dif_pos ⟨hlt, by decide⟩
  have hproduct : n.toUInt64.toFloat * Float.ofBits 0x3FF0000000000000 =
      .ofModel (.pack (UnpackedFloat.mul Format.binary64 (unpacked n.toUInt64.toFloat)
        (unpacked (Float.ofBits 0x3FF0000000000000)))) := rfl
  have hfloat := isInt_toFloat (n := n.toUInt64) (by rw [hword]; exact hlt)
  rw [hword] at hfloat
  rw [hliteral, hproduct, unpacked_one]
  rcases hfloat.cases with ⟨hn, s, h⟩ | ⟨-, h⟩
  · rw [hn, h, ofInteger_of_ne_zero .positive one_ne_zero]
    exact .of_zero (unpacked_ofModel_pack trivial)
  · rw [h, Int.natAbs_natCast, mul_ofInteger_one _ hlt]
    exact .of_unpacked (by simpa using hlt) rfl (by rw [Int.natAbs_natCast])

theorem isInt_ofInt {n : Int} (hlt : n.natAbs < 2 ^ 53) : IsInt (Float.ofInt n) n := by
  cases n with
  | ofNat n => exact isInt_ofNat hlt
  | negSucc n => exact isInt_neg (isInt_ofNat (n := n + 1) hlt)

/-! ## Comparisons -/

/-- Numbers with all their digits are compared by their exponents first. -/
theorem compare_digits {m n : Nat} (hm : m ≠ 0) (hn : n ≠ 0) (hmlt : m < 2 ^ 53) (hnlt : n < 2 ^ 53) :
    (compare (-((52 - m.log2 : Nat) : Int)) (-((52 - n.log2 : Nat) : Int))).then
      (compare (m * 2 ^ (52 - m.log2)) (n * 2 ^ (52 - n.log2))) = compare m n := by
  have hmlog : m.log2 < 53 := (Nat.log2_lt hm).2 hmlt
  have hnlog : n.log2 < 53 := (Nat.log2_lt hn).2 hnlt
  rcases lt_trichotomy m.log2 n.log2 with hlog | hlog | hlog
  · have hlt : m < n := (Nat.log2_lt hm).1 hlog |>.trans_le (Nat.log2_self_le hn)
    rw [Int.compare_eq_lt.2 (by omega), Nat.compare_eq_lt.2 hlt]
    rfl
  · have hpos := Nat.two_pow_pos (52 - n.log2)
    rw [hlog, Int.compare_eq_eq.2 rfl]
    rcases lt_trichotomy m n with hlt | rfl | hlt
    · rw [Nat.compare_eq_lt.2 hlt, Nat.compare_eq_lt.2 (Nat.mul_lt_mul_of_pos_right hlt hpos)]
      rfl
    · rw [Nat.compare_eq_eq.2 rfl, Nat.compare_eq_eq.2 rfl]
      rfl
    · rw [Nat.compare_eq_gt.2 hlt, Nat.compare_eq_gt.2 (Nat.mul_lt_mul_of_pos_right hlt hpos)]
      rfl
  · have hlt : n < m := (Nat.log2_lt hn).1 hlog |>.trans_le (Nat.log2_self_le hm)
    rw [Int.compare_eq_gt.2 (by omega), Nat.compare_eq_gt.2 hlt]
    rfl

/-- Doubles that hold integers are compared as the integers are. -/
theorem compare_unpacked {x y : Float} {m n : Int} (hx : IsInt x m) (hy : IsInt y n) :
    (unpacked x).compare (unpacked y) = some (compare m n) := by
  rcases hx.cases with ⟨rfl, s, hx'⟩ | ⟨hm, hx'⟩ <;> rcases hy.cases with ⟨rfl, t, hy'⟩ | ⟨hn, hy'⟩ <;>
    rw [hx', hy']
  · rfl
  · rw [ofInteger_of_ne_zero _ (Int.natAbs_ne_zero.2 hn)]
    rcases lt_or_gt_of_ne hn with h | h
    · rw [signOf, if_pos h, Int.compare_eq_gt.2 h]
      rfl
    · rw [signOf, if_neg (not_lt.2 h.le), Int.compare_eq_lt.2 h]
      rfl
  · rw [ofInteger_of_ne_zero _ (Int.natAbs_ne_zero.2 hm)]
    rcases lt_or_gt_of_ne hm with h | h
    · rw [signOf, if_pos h, Int.compare_eq_lt.2 h]
      rfl
    · rw [signOf, if_neg (not_lt.2 h.le), Int.compare_eq_gt.2 h]
      rfl
  · have hdigits := compare_digits (Int.natAbs_ne_zero.2 hm) (Int.natAbs_ne_zero.2 hn) hx.1 hy.1
    rw [ofInteger_of_ne_zero _ (Int.natAbs_ne_zero.2 hm),
      ofInteger_of_ne_zero _ (Int.natAbs_ne_zero.2 hn)]
    rcases lt_or_gt_of_ne hm with hm | hm <;> rcases lt_or_gt_of_ne hn with hn | hn
    · rw [signOf, if_pos hm, signOf, if_pos hn]
      simp only [UnpackedFloat.compare, hdigits]
      rcases lt_trichotomy m n with h | rfl | h
      · rw [Int.compare_eq_lt.2 h, Nat.compare_eq_gt.2 (by omega)]
        rfl
      · rw [Int.compare_eq_eq.2 rfl, Nat.compare_eq_eq.2 rfl]
        rfl
      · rw [Int.compare_eq_gt.2 h, Nat.compare_eq_lt.2 (by omega)]
        rfl
    · rw [signOf, if_pos hm, signOf, if_neg (not_lt.2 hn.le), Int.compare_eq_lt.2 (hm.trans hn)]
      rfl
    · rw [signOf, if_neg (not_lt.2 hm.le), signOf, if_pos hn, Int.compare_eq_gt.2 (hn.trans hm)]
      rfl
    · rw [signOf, if_neg (not_lt.2 hm.le), signOf, if_neg (not_lt.2 hn.le)]
      simp only [UnpackedFloat.compare, hdigits]
      rcases lt_trichotomy m n with h | rfl | h
      · rw [Int.compare_eq_lt.2 h, Nat.compare_eq_lt.2 (by omega)]
      · rw [Int.compare_eq_eq.2 rfl, Nat.compare_eq_eq.2 rfl]
      · rw [Int.compare_eq_gt.2 h, Nat.compare_eq_gt.2 (by omega)]

variable {x y : Float} {m n : Int}

theorem lt_iff (hx : IsInt x m) (hy : IsInt y n) : x < y ↔ m < n := by
  have h : x < y ↔ ((unpacked x).compare (unpacked y) == some .lt) = true :=
    decide_eq_true_iff (p := x.toModel < y.toModel)
  rw [h, compare_unpacked hx hy, ← Int.compare_eq_lt]
  simp

theorem le_iff (hx : IsInt x m) (hy : IsInt y n) : x ≤ y ↔ m ≤ n := by
  have h : x ≤ y ↔ ((unpacked x).compare (unpacked y)).any (·.isLE) = true :=
    decide_eq_true_iff (p := x.toModel ≤ y.toModel)
  rw [h, compare_unpacked hx hy, ← Int.isLE_compare]
  rfl

theorem beq_eq (hx : IsInt x m) (hy : IsInt y n) : (x == y) = decide (m = n) := by
  have h : (x == y) = ((unpacked x).compare (unpacked y) == some .eq) := rfl
  rw [h, compare_unpacked hx hy, Bool.eq_iff_iff, decide_eq_true_eq, ← Int.compare_eq_eq]
  simp

theorem isInt_zero : IsInt 0.0 0 := ⟨by decide, .inl rfl⟩

theorem isInt_one : IsInt 1.0 1 := ⟨by decide, .inl rfl⟩

theorem beq_zero (hx : IsInt x m) : (x == 0.0) = decide (m = 0) := beq_eq hx isInt_zero

theorem toNat_toUInt64_abs_of_isInt (hx : IsInt x n) : x.abs.toUInt64.toNat = n.natAbs := by
  have hlt := hx.1
  rcases hx.cases with ⟨rfl, s, h⟩ | ⟨hn, h⟩
  · exact toNat_toUInt64_abs_zero h
  · rw [ofInteger_of_ne_zero _ (Int.natAbs_ne_zero.2 hn)] at h
    rw [toNat_toUInt64_abs h, wholePart_integer]
    omega

/-- The integer that a double holds is its integer part. -/
theorem truncated_of_isInt (hx : IsInt x n) : truncated x = n := by
  have hlt := hx.1
  simp only [truncated, toNat_toUInt64_abs_of_isInt hx, lt_iff hx isInt_zero]
  split <;> omega

theorem IsInt.unique (hm : IsInt x m) (hn : IsInt x n) : m = n := by
  rw [← truncated_of_isInt hm, truncated_of_isInt hn]

end Double

end RasterShader
