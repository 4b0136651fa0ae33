import Mathlib
import RasterShader.Arithmetic.Word
import RasterShader.Constant.Fold

/-!
# Folded integer arithmetic and that of the machine

Constants are folded with integers of any size, and the result is wrapped to 32 bits; the machine
computes with 32-bit words.  For sums, differences, products and quotients of signed integers the
two agree, except for the one quotient that does not fit into 32 bits
(`Constant.foldInteger_eq_evalInt_iff`): folding wraps it, and the machine gives zero.
-/

namespace RasterShader

namespace Word

theorem ofInt_toInt (x : UInt32) : ofInt (toInt x) = x := by
  simp [ofInt, toInt]

theorem ofInt_wrapSigned (n : Int) : ofInt (Constant.wrapSigned n) = ofInt n := by
  have hwrap : Int32.ofInt (n.bmod 4294967296) = Int32.ofInt n := by
    rw [← Int32.toInt_inj, Int32.toInt_ofInt, Int32.toInt_ofInt]
    exact Int.bmod_bmod
  rw [ofInt, Constant.wrapSigned, hwrap]
  rfl

theorem ofInt_add (m n : Int) : ofInt (m + n) = ofInt m + ofInt n := by
  simp [ofInt, Int32.ofInt_add]

theorem ofInt_sub (m n : Int) : ofInt (m - n) = ofInt m - ofInt n := by
  simp [ofInt, Int32.ofInt_sub]

theorem ofInt_mul (m n : Int) : ofInt (m * n) = ofInt m * ofInt n := by
  simp [ofInt, Int32.ofInt_mul]

theorem ofInt_tdiv (x y : UInt32) :
    ofInt ((toInt x).tdiv (toInt y)) = (signed x / signed y).toUInt32 := by
  have hquotient : Int32.ofInt ((signed x).toInt.tdiv (signed y).toInt) = signed x / signed y := by
    rw [← Int32.toInt_inj, Int32.toInt_ofInt, Int32.toInt_div]
  exact congrArg Int32.toUInt32 hquotient

end Word

namespace Constant

open Word

/-- The operation of the machine that an operator of integers stands for. -/
def machineOp? : Operator → Option BinaryOp
  | .plus => some .add
  | .minus => some .sub
  | .star => some .mul
  | .slash => some .div
  | _ => none

/-- A folded result is that of the machine unless it is the quotient that overflows. -/
theorem foldInteger_eq_evalInt_iff {op : Operator} {machineOp : BinaryOp}
    (hop : machineOp? op = some machineOp) {x y : UInt32} {n : Int}
    (h : foldInteger true op (toInt x) (toInt y) = .ok (some n)) :
    ofInt (wrapSigned n) = machineOp.evalInt x y ↔
      ¬(op = .slash ∧ x = signBit ∧ y = allOnes) := by
  rw [ofInt_wrapSigned]
  cases op with
  | plus =>
    cases hop
    cases h
    simp [BinaryOp.evalInt, ofInt_add, ofInt_toInt]
  | minus =>
    cases hop
    cases h
    simp [BinaryOp.evalInt, ofInt_sub, ofInt_toInt]
  | star =>
    cases hop
    cases h
    simp [BinaryOp.evalInt, ofInt_mul, ofInt_toInt]
  | slash =>
    cases hop
    simp only [foldInteger] at h
    split at h
    · cases h
    · cases h
      rw [ofInt_tdiv]
      by_cases hoverflows : x = signBit ∧ y = allOnes
      · obtain ⟨rfl, rfl⟩ := hoverflows
        decide
      · simp only [BinaryOp.evalInt, Bool.and_eq_true, decide_eq_true_eq, hoverflows, if_false]
        simp
  | _ => cases hop

/-- The quotient of the least integer by -1 is folded to the least integer again, where the machine
gives zero. -/
theorem foldInteger_quotient_overflows :
    (foldInteger true .slash (toInt signBit) (toInt allOnes)).map (·.map fun n =>
      ofInt (wrapSigned n)) = .ok (some signBit) ∧ BinaryOp.div.evalInt signBit allOnes = 0 := by
  decide

end Constant

end RasterShader
