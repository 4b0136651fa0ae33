import Mathlib
import RasterShader.Instruction.Builder

/-!
# Laws of the arithmetic that immediates rest on

A constant operand is moved to the right of a commutative operation, and a subtraction of a constant
becomes the addition of its negation.  For floats this file proves what that takes from the model
of floats: sums, products and comparisons do not depend on the order of the operands, and the
difference from a number is the sum with the number whose sign bit is flipped.  Operands that are
not numbers keep their sign and payload, and the first one counts if both are; so the constant must
be a number where the order changes (`BinaryOp.eval_comm`, `BinaryOp.eval_sub`).
-/

namespace RasterShader

open Float.Model (Format UnpackedFloat)

/-! ## Unpacked floats -/

namespace Unpacked

theorem add_comm (spec : Format) (x y : UnpackedFloat) : x.add spec y = y.add spec x := by
  cases x with
  | notANumber => cases y <;> rfl
  | infinity s =>
    cases y with
    | infinity t => cases s <;> cases t <;> rfl
    | _ => rfl
  | zero s =>
    cases y with
    | zero t => cases s <;> cases t <;> rfl
    | _ => rfl
  | finite s m e hm =>
    cases y with
    | finite t n f hn =>
      simp only [UnpackedFloat.add]
      rw [min_comm e f, Int.add_comm]
    | _ => rfl

theorem sign_mul_comm (s t : UnpackedFloat.Sign) : s * t = t * s := by
  cases s <;> cases t <;> rfl

theorem mul_comm (spec : Format) (x y : UnpackedFloat) : x.mul spec y = y.mul spec x := by
  cases x <;> cases y <;> simp only [UnpackedFloat.mul]
  case finite.finite s m e _ t n f _ => rw [sign_mul_comm, Nat.mul_comm, Int.add_comm]
  all_goals rw [sign_mul_comm]

/-- A difference is the sum with the negation. -/
theorem sub_eq_add_neg (spec : Format) (x y : UnpackedFloat) :
    x.sub spec y = x.add spec y.neg := by
  cases x with
  | notANumber => cases y <;> rfl
  | infinity s => cases y <;> rfl
  | zero s => cases y <;> rfl
  | finite s m e hm =>
    cases y with
    | finite t n f hn =>
      simp only [UnpackedFloat.sub, UnpackedFloat.add, UnpackedFloat.neg]
      have apply_neg : ∀ k : Int, (-t).apply k = -t.apply k := by
        intro k
        cases t
        · exact (Int.neg_neg k).symm
        · rfl
      rw [apply_neg, Int.sub_eq_add_neg]
    | _ => rfl

theorem swap_compare (x y : UnpackedFloat) :
    (x.compare y).map Ordering.swap = y.compare x := by
  have swap_finite : ∀ (m n : Nat) (e f : Int),
      ((compare e f).then (compare m n)).swap = (compare f e).then (compare n m) := by
    intro m n e f
    rw [Ordering.swap_then, Int.compare_swap, Nat.compare_swap]
  rcases x with (_ | _) | _ | (_ | _) | ⟨_ | _, m, e, hm⟩ <;>
    rcases y with (_ | _) | _ | (_ | _) | ⟨_ | _, n, f, hn⟩
  all_goals first
    | rfl
    | simp [UnpackedFloat.compare, swap_finite]

theorem beq_comm (x y : UnpackedFloat) : x.beq y = y.beq x := by
  rw [UnpackedFloat.beq, UnpackedFloat.beq, ← swap_compare x y]
  rcases x.compare y with _ | (_ | _ | _) <;> rfl

/-! ## Packed floats -/

theorem unpackSign_packComponents {spec : Format} (s : UnpackedFloat.Sign)
    (e : BitVec spec.exponentBits) (m : BitVec spec.mantissaBitsWithoutImplicit) :
    UnpackedFloat.unpackSign (UnpackedFloat.packComponents spec s e m) = s.toBitVec := by
  ext i hi
  obtain rfl : i = 0 := by omega
  simp [UnpackedFloat.unpackSign, UnpackedFloat.packComponents, BitVec.getLsbD_append,
    BitVec.getElem_append]

theorem ofBitVec_toBitVec (s : UnpackedFloat.Sign) :
    UnpackedFloat.Sign.ofBitVec s.toBitVec = s := by
  cases s <;> rfl

/-- Packed floats with opposite signs and otherwise equal parts. -/
theorem unpack_eq_neg {spec : Format} {b c : BitVec spec.numBits}
    (mantissa : UnpackedFloat.unpackMantissa c = UnpackedFloat.unpackMantissa b)
    (exponent : UnpackedFloat.unpackExponent c = UnpackedFloat.unpackExponent b)
    (sign : UnpackedFloat.Sign.ofBitVec (UnpackedFloat.unpackSign c) =
      -UnpackedFloat.Sign.ofBitVec (UnpackedFloat.unpackSign b)) :
    UnpackedFloat.unpack spec c = (UnpackedFloat.unpack spec b).neg := by
  simp only [UnpackedFloat.unpack, mantissa, exponent, sign]
  split
  · split <;> rfl
  · split
    · split <;> rfl
    · rfl

theorem unpack_packComponents_neg (spec : Format) (s : UnpackedFloat.Sign)
    (e : BitVec spec.exponentBits) (m : BitVec spec.mantissaBitsWithoutImplicit) :
    UnpackedFloat.unpack spec (UnpackedFloat.packComponents spec (-s) e m) =
      (UnpackedFloat.unpack spec (UnpackedFloat.packComponents spec s e m)).neg := by
  apply unpack_eq_neg
  · simp
  · simp
  · simp only [unpackSign_packComponents, ofBitVec_toBitVec]

theorem unpack_pack_neg (x : UnpackedFloat) :
    UnpackedFloat.unpack Format.binary32 (x.neg.pack Format.binary32) =
      (UnpackedFloat.unpack Format.binary32 (x.pack Format.binary32)).neg := by
  cases x with
  | notANumber => rfl
  | infinity s => exact unpack_packComponents_neg ..
  | zero s => exact unpack_packComponents_neg ..
  | finite s m e hm =>
    simp only [UnpackedFloat.neg, UnpackedFloat.pack, UnpackedFloat.packedInfinity]
    split
    · exact unpack_packComponents_neg ..
    · split <;> exact unpack_packComponents_neg ..

/-- Flipping the sign bit of a word negates the float that it stands for. -/
theorem unpack_fneg (x : UInt32) :
    UnpackedFloat.unpack Format.binary32 (Word.fneg x).toBitVec =
      (UnpackedFloat.unpack Format.binary32 x.toBitVec).neg := by
  have low : ∀ i < 31, (0x80000000#32).getLsbD i = false := by decide
  have flip : ∀ b : BitVec 1,
      UnpackedFloat.Sign.ofBitVec (b ^^^ 1#1) = -UnpackedFloat.Sign.ofBitVec b := by
    intro b
    obtain rfl | rfl := BitVec.eq_zero_or_eq_one b
    · rfl
    · rfl
  apply unpack_eq_neg
  · ext i hi
    have hi : i < 23 := hi
    simp [UnpackedFloat.unpackMantissa, Word.fneg, Word.signBit, low i (by omega)]
  · ext i hi
    have hi : i < 8 := hi
    simp [UnpackedFloat.unpackExponent, Word.fneg, Word.signBit, low (23 + i) (by omega)]
  · have hxor : BitVec.extractLsb 31 31 (x.toBitVec ^^^ 0x80000000#32) =
        BitVec.extractLsb 31 31 x.toBitVec ^^^ 1#1 := by
      rw [BitVec.extractLsb_xor]
      rfl
    exact (congrArg _ hxor).trans (flip _)

end Unpacked

/-! ## Words -/

namespace Word

/-- The number that a word stands for, as the operations on floats see it. -/
theorem unpack_ofBits (x : UInt32) :
    (Float32.ofBits x).toModel.unpack =
      UnpackedFloat.unpack Format.binary32
        ((UnpackedFloat.unpack Format.binary32 x.toBitVec).pack Format.binary32) := rfl

theorem unpack_ofBits_fneg (x : UInt32) :
    (Float32.ofBits (fneg x)).toModel.unpack = (Float32.ofBits x).toModel.unpack.neg := by
  rw [unpack_ofBits, unpack_ofBits, Unpacked.unpack_fneg, Unpacked.unpack_pack_neg]

theorem isNaN_fneg (x : UInt32) : isNaN (fneg x) = isNaN x := by
  have : magnitude (fneg x) = magnitude x := by
    have masked : ∀ i < 32, (0x80000000#32).getLsbD i = true →
        (0x7FFFFFFF#32).getLsbD i = false := by decide
    apply UInt32.eq_of_toBitVec_eq
    simp only [magnitude, fneg, signBit, UInt32.toBitVec_and, UInt32.toBitVec_xor]
    ext i hi
    have := masked i hi
    simp only [BitVec.getElem_and, BitVec.getElem_xor, UInt32.toBitVec_ofNat,
      BitVec.getLsbD_eq_getElem hi] at this ⊢
    cases h : (0x80000000#32)[i] with
    | false => simp
    | true => simp [this h]
  rw [isNaN, isNaN, this]

/-- The order of operands does not matter for a function that does not depend on it, if the first
one is a number. -/
theorem float2_comm {f : Float32 → Float32 → Float32} (hf : ∀ a b, f a b = f b a) {x y : UInt32}
    (h : isNaN x = false) : float2 f x y = float2 f y x := by
  simp only [float2, h, hf (.ofBits x)]
  rfl

theorem fadd_comm {x y : UInt32} (h : isNaN x = false) : fadd x y = fadd y x := by
  refine float2_comm (fun a b => ?_) h
  exact congrArg Float32.ofModel (congrArg Float32.Model.pack (Unpacked.add_comm ..))

theorem fmul_comm {x y : UInt32} (h : isNaN x = false) : fmul x y = fmul y x := by
  refine float2_comm (fun a b => ?_) h
  exact congrArg Float32.ofModel (congrArg Float32.Model.pack (Unpacked.mul_comm ..))

theorem feq_comm (x y : UInt32) : feq x y = feq y x := Unpacked.beq_comm ..

/-- Subtracting a number is adding it with its sign flipped. -/
theorem fsub_eq_fadd_fneg (x : UInt32) {y : UInt32} (h : isNaN y = false) :
    fsub x y = fadd x (fneg y) := by
  have difference : Float32.ofBits x - Float32.ofBits y =
      Float32.ofBits x + Float32.ofBits (fneg y) := by
    refine congrArg Float32.ofModel (congrArg Float32.Model.pack ?_)
    rw [unpack_ofBits_fneg]
    exact Unpacked.sub_eq_add_neg ..
  simp only [fsub, fadd, float2, isNaN_fneg, h, difference]
  rfl

end Word

/-! ## Operations -/

namespace BinaryOp

/-- Signed and unsigned operands give the same bits where the sign is ignored. -/
theorem eval_canonicalType (op : BinaryOp) (ty : NumType) (x y : UInt32) :
    op.eval (op.canonicalType ty) x y = op.eval ty x y := by
  cases ty with
  | uint => cases op <;> rfl
  | float | int => simp [canonicalType]

/-- A constant may be moved to the right of a commutative operation, unless it is no number and the
operation one on floats. -/
theorem eval_comm {op : BinaryOp} {ty : NumType} {x : UInt32} (hop : op.isCommutative = true)
    (hx : Code.isOrderSensitive ty x = false) (y : UInt32) : op.eval ty x y = op.eval ty y x := by
  have hnumber : ty = .float → Word.isNaN x = false := by
    rintro rfl
    simpa [Code.isOrderSensitive] using hx
  cases op with
  | add =>
    cases ty with
    | float => exact Word.fadd_comm (hnumber rfl)
    | int | uint => exact UInt32.add_comm x y
  | mul =>
    cases ty with
    | float => exact Word.fmul_comm (hnumber rfl)
    | int | uint => exact UInt32.mul_comm x y
  | cmpEq =>
    cases ty with
    | float => exact congrArg Word.ofBool (Word.feq_comm x y)
    | int | uint => simp only [eval, evalInt, evalUint, eq_comm]
  | cmpNe =>
    cases ty with
    | float => exact congrArg (fun b => Word.ofBool !b) (Word.feq_comm x y)
    | int | uint => simp only [eval, evalInt, evalUint, ne_comm]
  | bitwiseAnd => exact UInt32.and_comm x y
  | bitwiseXor => exact UInt32.xor_comm x y
  | _ => simp [isCommutative] at hop

/-- Subtracting a constant is adding its negation, unless it is no number and the subtraction one of
floats. -/
theorem eval_sub {ty : NumType} {y : UInt32} (hy : Code.isOrderSensitive ty y = false)
    (x : UInt32) : BinaryOp.sub.eval ty x y = BinaryOp.add.eval ty x (Code.negated ty y) := by
  cases ty with
  | float => exact Word.fsub_eq_fadd_fneg x (by simpa [Code.isOrderSensitive] using hy)
  | int | uint =>
    simp only [eval, evalInt, evalUint, Code.negated]
    rw [UInt32.zero_sub, UInt32.sub_eq_add_neg]

end BinaryOp

end RasterShader
