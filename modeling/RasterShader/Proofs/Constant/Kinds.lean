import Mathlib
import RasterShader.Codegen.Slots
import RasterShader.Proofs.Arithmetic.Integer
import RasterShader.Proofs.Constant.Division

/-!
# Values of a number kind

Slot values are doubles; `NumberKind.Holds` says which of them a slot of a kind can have.  Integers
of the kind are read off their words again (`Word.toInt_ofInt`, `Word.toNat_ofInt`).
-/

namespace RasterShader

open Double

namespace NumberKind

/-- The integers of a kind of 32 bits. -/
def InRange : NumberKind → Int → Prop
  | .signed, n => -2147483648 ≤ n ∧ n < 2147483648
  | .unsigned, n => 0 ≤ n ∧ n < 4294967296
  | _, _ => False

instance (kind : NumberKind) (n : Int) : Decidable (kind.InRange n) := by
  cases kind <;> unfold InRange <;> infer_instance

/-- A slot of the kind can have the value: a number, an integer in the range of the kind, or one of
the two truth values. -/
def Holds : NumberKind → Float → Prop
  | .float, v => v.isNaN = false
  | .signed, v => ∃ n, IsInt v n ∧ InRange .signed n
  | .unsigned, v => ∃ n, IsInt v n ∧ InRange .unsigned n
  | .boolean, v => v = 0.0 ∨ v = 1.0
  | .nonnumeric, _ => True

variable {kind : NumberKind} {n : Int}

/-- Integers of either kind fit into 33 bits with their sign. -/
theorem InRange.natAbs_lt (h : kind.InRange n) : n.natAbs < 4294967296 := by
  cases kind <;> simp only [InRange] at h <;> omega

/-- An integer kind. -/
def IsInteger (kind : NumberKind) : Prop := kind = .signed ∨ kind = .unsigned

theorem holds_iff_of_isInteger {v : Float} (h : kind.IsInteger) :
    kind.Holds v ↔ ∃ n, IsInt v n ∧ kind.InRange n := by
  obtain rfl | rfl := h <;> rfl

end NumberKind

namespace Word

theorem toNat_ofInt_eq_emod (n : Int) : ((ofInt n).toNat : Int) = n % 4294967296 := by
  have hbits : (ofInt n).toNat = (BitVec.ofInt 32 n).toNat := rfl
  rw [hbits, BitVec.toNat_ofInt]
  omega

/-- Integers have one word if they differ by a multiple of 2 ^ 32. -/
theorem ofInt_eq_ofInt_iff {m n : Int} : ofInt m = ofInt n ↔ m % 4294967296 = n % 4294967296 := by
  rw [← toNat_ofInt_eq_emod, ← toNat_ofInt_eq_emod, ← UInt32.toNat_inj]
  omega

theorem toNat_ofInt {n : Int} (h : NumberKind.unsigned.InRange n) : ((ofInt n).toNat : Int) = n := by
  obtain ⟨hlow, hhigh⟩ := h
  rw [toNat_ofInt_eq_emod]
  omega

theorem toInt_ofInt {n : Int} (h : NumberKind.signed.InRange n) : toInt (ofInt n) = n := by
  obtain ⟨hlow, hhigh⟩ := h
  have hbits : toInt (ofInt n) = (Int32.ofInt n).toInt := rfl
  rw [hbits, Int32.toInt_ofInt]
  exact Int.bmod_eq_of_le (by simp [Int32.size]; omega) (by simp [Int32.size]; omega)

/-- The integers of a kind have different words. -/
theorem ofInt_inj {kind : NumberKind} {m n : Int} (hm : kind.InRange m) (hn : kind.InRange n) :
    ofInt m = ofInt n ↔ m = n := by
  rw [ofInt_eq_ofInt_iff]
  cases kind <;> simp only [NumberKind.InRange] at hm hn <;> omega

end Word

/-! ## Comparisons of words -/

namespace NumberKind

/-- How the machine reads the words of an integer kind. -/
def integerType (kind : NumberKind) : NumType := if kind = .unsigned then .uint else .int

variable {kind : NumberKind} {m n : Int}

theorem eval_cmpLt (integer : kind.IsInteger) (hm : kind.InRange m) (hn : kind.InRange n) :
    BinaryOp.cmpLt.eval kind.integerType (Word.ofInt m) (Word.ofInt n) = Word.ofBool (m < n) := by
  obtain rfl | rfl := integer
  · have hlt : Word.signed (Word.ofInt m) < Word.signed (Word.ofInt n) ↔ m < n := by
      rw [Int32.lt_iff_toInt_lt]
      exact Iff.of_eq (congrArg₂ (· < ·) (Word.toInt_ofInt hm) (Word.toInt_ofInt hn))
    simp [integerType, BinaryOp.eval, BinaryOp.evalInt, hlt]
  · have hlt : Word.ofInt m < Word.ofInt n ↔ m < n := by
      have hm' := Word.toNat_ofInt hm
      have hn' := Word.toNat_ofInt hn
      rw [UInt32.lt_iff_toNat_lt]
      omega
    simp [integerType, BinaryOp.eval, BinaryOp.evalUint, hlt]

theorem eval_cmpLe (integer : kind.IsInteger) (hm : kind.InRange m) (hn : kind.InRange n) :
    BinaryOp.cmpLe.eval kind.integerType (Word.ofInt m) (Word.ofInt n) = Word.ofBool (m ≤ n) := by
  obtain rfl | rfl := integer
  · have hle : Word.signed (Word.ofInt m) ≤ Word.signed (Word.ofInt n) ↔ m ≤ n := by
      rw [Int32.le_iff_toInt_le]
      exact Iff.of_eq (congrArg₂ (· ≤ ·) (Word.toInt_ofInt hm) (Word.toInt_ofInt hn))
    simp [integerType, BinaryOp.eval, BinaryOp.evalInt, hle]
  · have hle : Word.ofInt m ≤ Word.ofInt n ↔ m ≤ n := by
      have hm' := Word.toNat_ofInt hm
      have hn' := Word.toNat_ofInt hn
      rw [UInt32.le_iff_toNat_le]
      omega
    simp [integerType, BinaryOp.eval, BinaryOp.evalUint, hle]

theorem eval_cmpEq (kind : NumberKind) (x y : UInt32) :
    BinaryOp.cmpEq.eval kind.integerType x y = Word.ofBool (x = y) := by
  unfold integerType
  split <;> rfl

theorem eval_cmpNe (kind : NumberKind) (x y : UInt32) :
    BinaryOp.cmpNe.eval kind.integerType x y = Word.ofBool (x ≠ y) := by
  unfold integerType
  split <;> rfl

end NumberKind

theorem literalBits_of_isInt {kind : NumberKind} (h : kind.IsInteger) {v : Float} {n : Int}
    (hv : IsInt v n) : literalBits v kind = Word.ofInt n := by
  obtain rfl | rfl := h <;> rw [literalBits, truncated_of_isInt hv]

end RasterShader
