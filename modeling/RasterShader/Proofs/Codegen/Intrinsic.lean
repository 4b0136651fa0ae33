import Mathlib
import RasterShader.Proofs.Codegen.Operand

/-!
# What intrinsic functions leave on the stack

The slots of the arguments and the result of an intrinsic are those of its declarations
(`Intrinsic.Fits`): most have one result per component of the first argument, and take a scalar in
the place of the others; products and lengths have a single result.  From such arguments every
expansion leaves exactly the slots of the result.
-/

namespace RasterShader

/-- A value of the type fills `n` slots, as it is or repeated. -/
def Ty.Spreads (ty : Ty) (n : Nat) : Prop := ty.slotCount = n ∨ ty.slotCount = 1

namespace Intrinsic

/-- The slots of an intrinsic with one argument. -/
def Fits1 (f : Intrinsic) (x result : Ty) : Prop :=
  match f with
  | length | any | all => result.slotCount = 1
  | determinant => x.slotCount = x.columns * x.columns ∧ result.slotCount = 1
  | _ => result.slotCount = x.slotCount

/-- The slots of an intrinsic with two arguments. -/
def Fits2 (f : Intrinsic) (x y result : Ty) : Prop :=
  match f with
  | step => 0 < result.slotCount ∧ x.Spreads result.slotCount ∧ y.Spreads result.slotCount
  | distance | dot => y.slotCount = x.slotCount ∧ result.slotCount = 1
  | cross => x.slotCount = 3 ∧ y.slotCount = 3 ∧ result.slotCount = 3
  | reflect | greaterThan | greaterThanEqual =>
    y.slotCount = x.slotCount ∧ result.slotCount = x.slotCount
  | _ => y.Spreads x.slotCount ∧ result.slotCount = x.slotCount

/-- The slots of an intrinsic with three arguments. -/
def Fits3 (f : Intrinsic) (x y z result : Ty) : Prop :=
  match f with
  | clamp =>
    y.Spreads x.slotCount ∧ z.Spreads x.slotCount ∧ result.slotCount = x.slotCount
  | mix => y.slotCount = x.slotCount ∧ z.Spreads x.slotCount ∧ result.slotCount = x.slotCount
  | smoothstep =>
    0 < result.slotCount ∧ x.Spreads result.slotCount ∧ y.Spreads result.slotCount ∧
      z.Spreads result.slotCount
  | refract => y.slotCount = x.slotCount ∧ z.slotCount = 1 ∧ result.slotCount = x.slotCount
  | _ =>
    y.slotCount = x.slotCount ∧ z.slotCount = x.slotCount ∧ result.slotCount = x.slotCount

/-- The slots of the arguments and the result of an intrinsic. -/
def Fits (f : Intrinsic) (arguments : List Ty) (result : Ty) : Prop :=
  match arguments with
  | [x] => 0 < x.slotCount ∧ f.Fits1 x result
  | [x, y] => 0 < x.slotCount ∧ f.Fits2 x y result
  | [x, y, z] => 0 < x.slotCount ∧ f.Fits3 x y z result
  | _ => True

end Intrinsic

namespace Operand

open Gen Builder

variable {W : Widths} {x y z : Operand} {b : Builder} {n : Nat}

/-! ## Short sequences -/

theorem adds_dotTop : b.Adds (dotTop n b) (1 - 2 * n) := by
  unfold dotTop
  by_cases hn : n = 1
  · rw [if_pos hn, hn]
    exact adds_binary.of_eq (by norm_num)
  · rw [if_neg hn]
    exact adds_emit

theorem adds_lengthTop : b.Adds (lengthTop n b) (1 - n) := by
  unfold lengthTop
  by_cases hn : n = 1
  · rw [if_pos hn, hn]
    exact adds_unary.of_eq (by norm_num)
  · rw [if_neg hn]
    refine ((adds_pushClone.trans adds_emit).trans adds_unary).of_eq ?_
    simp only [Op.stackUsage]
    ring

theorem adds_signTop {kind : NumType} : b.Adds (signTop kind n b) 0 := by
  cases kind with
  | float => exact (adds_withConstant.trans adds_withConstant).trans adds_withConstant
  | int => exact adds_withConstant.trans adds_withConstant
  | uint => exact adds_withConstant.trans adds_withConstant

theorem moves_unary (op : UnaryOp) (kind : NumType) (hx : x.Fits W) :
    Moves W (x.unary op kind) x.slots :=
  (hx.push.seq (moves_build fun _ => adds_unary)).of_eq (add_zero _)

theorem moves_componentwise (op : BinaryOp) (kind : NumType) (hx : x.Fits W) (hy : y.Fits W)
    (hn : 0 < n) (hslots : x.slots = n) (hspreads : y.ty.Spreads n) :
    Moves W (componentwise op kind x y n) n := by
  refine ((hx.push_of_slots hslots).seq ((moves_pushSplatted hy.push hspreads hn).seq
    (moves_build fun b => adds_binary))).of_eq ?_
  ring

theorem moves_scaled (factor : UInt32) (hx : x.Fits W) : Moves W (x.scaled factor) x.slots :=
  (hx.push.seq (moves_build fun _ => adds_withConstant)).of_eq (add_zero _)

theorem adds_rotatedLeft {distance : Nat} :
    b.Adds ((b.pushClone 3 distance).swizzle 3 [1, 2, 0]) 3 :=
  (adds_pushClone.trans (adds_swizzle (by decide))).of_eq (by norm_num)

theorem adds_rotatedRight {distance : Nat} :
    b.Adds ((b.pushClone 3 distance).swizzle 3 [2, 0, 1]) 3 :=
  (adds_pushClone.trans (adds_swizzle (by decide))).of_eq (by norm_num)

theorem moves_cross (hx : x.Fits W) (hy : y.Fits W) (hxslots : x.slots = 3)
    (hyslots : y.slots = 3) : Moves W (x.cross y) 3 := by
  refine ((hx.push_of_slots hxslots).seq ((hy.push_of_slots hyslots).seq
    (moves_build fun b => (((((adds_rotatedLeft.trans adds_rotatedRight).trans adds_binary).trans
      adds_rotatedRight).trans adds_rotatedLeft).trans (adds_binary.trans adds_binary)).trans
      (adds_swizzle (by decide))))).of_eq ?_
  norm_num

theorem moves_convertColor (call : HostCall) (hx : x.Fits W) :
    Moves W (convertColor call x) x.slots := by
  refine (hx.push.seq (moves_build fun b => (((adds_pushConstant.trans adds_popColor).trans
    adds_emit).trans adds_pushInput).trans adds_discard)).of_eq ?_
  simp only [Op.stackUsage]
  push_cast
  ring

end Operand

namespace Intrinsic

open Gen Builder Operand

variable {W : Widths} {x y z : Operand} {f : Intrinsic} {fail : GenM Unit} {result : Ty}

/-- An intrinsic with one operand, whose result has as many slots unless it is a single one. -/
theorem moves_push1 (kind : NumType) (hfail : ∀ n, Moves W fail n) (hx : x.Fits W)
    (hn : 0 < x.slots) (h : f.Fits1 x.ty result) :
    Moves W (f.push1 fail kind x.slots x) result.slotCount := by
  -- After the operand, the words change by the difference.
  have after {act : GenM Unit} {m : Int} (hact : Moves W act m)
      (hm : x.slots + m = result.slotCount) :
      Moves W (x.push >>= fun _ => act) result.slotCount :=
    (hx.push.seq hact).of_eq hm
  have whole {act : GenM Unit} (hact : Moves W act x.slots)
      (hresult : result.slotCount = x.slots) : Moves W act result.slotCount :=
    hact.of_eq (congrArg Nat.cast hresult.symm)
  cases f with
  | sign =>
    have h : result.slotCount = x.slots := h
    exact after (moves_build fun b => adds_signTop) (by omega)
  | fract =>
    have h : result.slotCount = x.slots := h
    refine after (moves_build fun b => (adds_pushClone.trans adds_unary).trans adds_binary) ?_
    omega
  | saturate =>
    have h : result.slotCount = x.slots := h
    exact after (moves_build fun b => adds_withConstant.trans adds_withConstant) (by omega)
  | radians => exact whole (moves_scaled _ hx) h
  | degrees => exact whole (moves_scaled _ hx) h
  | length =>
    have h : result.slotCount = 1 := h
    exact after (moves_build fun b => adds_lengthTop) (by omega)
  | normalize =>
    have h : result.slotCount = x.slots := h
    refine after (moves_build fun b => ((((adds_pushClone.trans adds_pushClone).trans
      adds_dotTop).trans adds_unary).trans adds_pushDuplicates).trans adds_binary) ?_
    omega
  | transpose =>
    have h : result.slotCount = x.slots := h
    exact after (moves_build fun b => adds_emit) (by simp [Op.stackUsage, h])
  | determinant =>
    obtain ⟨hsize, h⟩ : x.slots = x.ty.columns * x.ty.columns ∧ result.slotCount = 1 := h
    exact after (moves_build fun b => adds_emit) (by simp [Op.stackUsage, h, hsize])
  | inverse =>
    have h : result.slotCount = x.slots := h
    exact after (moves_build fun b => adds_emit) (by simp [Op.stackUsage, h])
  | any =>
    have h : result.slotCount = 1 := h
    exact after (moves_build (adds_foldBooleans _ hn)) (by omega)
  | all =>
    have h : result.slotCount = 1 := h
    exact after (moves_build (adds_foldBooleans _ hn)) (by omega)
  | not =>
    have h : result.slotCount = x.slots := h
    exact after (moves_complement _) (by omega)
  | toLinearSrgb => exact whole (moves_convertColor _ hx) h
  | fromLinearSrgb => exact whole (moves_convertColor _ hx) h
  | abs | floor | ceil | sqrt | inversesqrt | exp | exp2 | log | log2 | sin | cos | tan | asin
  | acos | atan => exact whole (moves_unary _ kind hx) h
  | _ => exact hfail _

/-- An intrinsic with two operands. -/
theorem moves_push2 (kind : NumType) (hfail : ∀ n, Moves W fail n) (hx : x.Fits W)
    (hy : y.Fits W) (hn : 0 < x.slots) (h : f.Fits2 x.ty y.ty result) :
    Moves W (f.push2 fail result kind x.slots x y) result.slotCount := by
  have after {act : GenM Unit} {m : Int} (hact : Moves W act m)
      (hm : x.slots + (y.slots + m) = result.slotCount) :
      Moves W (x.push >>= fun _ => y.push >>= fun _ => act) result.slotCount :=
    (hx.push.seq (hy.push.seq hact)).of_eq hm
  cases f with
  | step =>
    obtain ⟨hpos, hxs, hys⟩ := h
    refine ((moves_pushSplatted hx.push hxs hpos).seq ((moves_pushSplatted hy.push hys hpos).seq
      (moves_build fun b => (adds_binary.trans adds_pushConstant).trans adds_binary))).of_eq ?_
    ring
  | distance =>
    obtain ⟨hys, h⟩ : y.slots = x.slots ∧ result.slotCount = 1 := h
    exact after (moves_build fun b => adds_binary.trans adds_lengthTop) (by omega)
  | dot =>
    obtain ⟨hys, h⟩ : y.slots = x.slots ∧ result.slotCount = 1 := h
    exact after (moves_build fun b => adds_dotTop) (by omega)
  | cross =>
    obtain ⟨hxs, hys, h⟩ : x.slots = 3 ∧ y.slots = 3 ∧ result.slotCount = 3 := h
    rw [h]
    exact moves_cross hx hy hxs hys
  | reflect =>
    obtain ⟨hys, h⟩ : y.slots = x.slots ∧ result.slotCount = x.slots := h
    refine after (moves_build fun b => (((((adds_pushClone.trans adds_pushClone).trans
      adds_dotTop).trans adds_withConstant).trans adds_pushDuplicates).trans adds_binary).trans
      adds_binary) ?_
    omega
  | greaterThan | greaterThanEqual =>
    obtain ⟨hys, h⟩ : y.slots = x.slots ∧ result.slotCount = x.slots := h
    rw [h]
    exact moves_componentwise _ kind hy hx hn hys (.inl rfl)
  | atan | pow | mod | min | max | matrixCompMult | lessThan | lessThanEqual | equal | notEqual =>
    obtain ⟨hys, h⟩ : y.ty.Spreads x.slots ∧ result.slotCount = x.slots := h
    rw [h]
    exact moves_componentwise _ kind hx hy hn rfl hys
  | _ => exact hfail _

/-- An intrinsic with three operands. -/
theorem moves_push3 (kind : NumType) (hfail : ∀ n, Moves W fail n) (hx : x.Fits W)
    (hy : y.Fits W) (hz : z.Fits W) (hn : 0 < x.slots) (h : f.Fits3 x.ty y.ty z.ty result) :
    Moves W (f.push3 fail result kind x.slots x y z) result.slotCount := by
  cases f with
  | clamp =>
    obtain ⟨hys, hzs, h⟩ : y.ty.Spreads x.slots ∧ z.ty.Spreads x.slots ∧
      result.slotCount = x.slots := h
    refine (hx.push.seq ((moves_pushSplatted hy.push hys hn).seq ((moves_build fun b =>
      adds_binary).seq ((moves_pushSplatted hz.push hzs hn).seq (moves_build fun b =>
      adds_binary))))).of_eq ?_
    omega
  | mix =>
    obtain ⟨hys, hzs, h⟩ : y.slots = x.slots ∧ z.ty.Spreads x.slots ∧
      result.slotCount = x.slots := h
    refine (hx.push.seq (hy.push.seq ((moves_pushSplatted hz.push hzs hn).seq (moves_build fun b =>
      adds_ternary)))).of_eq ?_
    omega
  | smoothstep =>
    obtain ⟨hpos, hxs, hys, hzs⟩ := h
    refine ((moves_pushSplatted hx.push hxs hpos).seq ((moves_pushSplatted hy.push hys hpos).seq
      ((moves_pushSplatted hz.push hzs hpos).seq (moves_build fun b => adds_ternary)))).of_eq ?_
    ring
  | refract =>
    obtain ⟨hys, hzs, h⟩ : y.slots = x.slots ∧ z.slots = 1 ∧ result.slotCount = x.slots := h
    simp only [push3]
    by_cases hwide : 4 < x.slots
    · rw [if_pos hwide]
      exact Moves.throw
    · rw [if_neg hwide]
      refine (hx.push.seq ((moves_build fun b => adds_pushZeros).seq (hy.push.seq ((moves_build
        fun b => adds_pushZeros).seq (hz.push.seq (moves_build fun b =>
        adds_emit.trans adds_discard)))))).of_eq ?_
      simp only [Op.stackUsage]
      omega
  | faceforward =>
    obtain ⟨hys, hzs, h⟩ : y.slots = x.slots ∧ z.slots = x.slots ∧ result.slotCount = x.slots := h
    refine (hx.push.seq ((moves_build fun b => adds_pushClone).seq ((moves_negate x.ty _).seq
      ((moves_build fun b => adds_pushZeros).seq (hy.push.seq (hz.push.seq (moves_build fun b =>
      ((adds_dotTop.trans adds_binary).trans adds_pushDuplicates).trans
      adds_ternary))))))).of_eq ?_
    omega
  | _ => exact hfail _

/-- The call of an intrinsic leaves the slots of its result. -/
theorem moves_push {call : Expr} {arguments : List Operand}
    (harguments : ∀ x ∈ arguments, x.Fits W) (h : f.Fits (arguments.map Operand.ty) call.ty) :
    Moves W (f.push call arguments) call.ty.slotCount := by
  have hfail (n : Int) : Moves W (throw (.intrinsicCall call.text)) n := Moves.throw
  match arguments with
  | [] => exact Moves.throw
  | [x] =>
    refine Affects.lift_bind fun kind _ => ?_
    exact moves_push1 kind hfail (harguments x (by simp)) h.1 h.2
  | [x, y] =>
    refine Affects.lift_bind fun kind _ => ?_
    exact moves_push2 kind hfail (harguments x (by simp)) (harguments y (by simp)) h.1 h.2
  | [x, y, z] =>
    refine Affects.lift_bind fun kind _ => ?_
    exact moves_push3 kind hfail (harguments x (by simp)) (harguments y (by simp))
      (harguments z (by simp)) h.1 h.2
  | x :: _ :: _ :: _ :: _ =>
    refine Affects.lift_bind fun kind _ => ?_
    exact Moves.throw

end Intrinsic

end RasterShader
