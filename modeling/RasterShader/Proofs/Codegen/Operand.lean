import Mathlib
import RasterShader.Proofs.Codegen.Place

/-!
# What operations leave on the stack

An operand fits when its value is pushed as a word for each slot of its type, and its place has as
many slots (`Operand.Fits`).  Every operation of the language makes a fitting operand out of
fitting ones, provided that the slots of the operands are what type checking makes them.

Of what type checking establishes only the number of slots matters here.  The rules are stated per
operation: `Operator.Fits` for binary operations, `Conversion.Fits` for conversions.
-/

namespace RasterShader

namespace Operand

open Gen Builder

/-- The operand is pushed and found in as many slots as its type has. -/
structure Fits (W : Widths) (x : Operand) : Prop where
  push : Moves W x.push x.slots
  place : Finds W x.place x.slots

variable {W : Widths} {x y left right : Operand} {ty result : Ty} {n : Nat}

theorem Fits.push_of_slots (hx : x.Fits W) (h : x.slots = n) : Moves W x.push n :=
  h ▸ hx.push

theorem fits_ofValue {push : GenM Unit} (h : Moves W push ty.slotCount) :
    (ofValue ty push).Fits W := by
  refine ⟨h, ?_⟩
  refine Affects.bind (affects_scratch ty) fun range hrange => ?_
  refine h.bind ?_
  refine Moves.bind (moves_build fun b => adds_popSlotsUnmasked) ?_
  refine Affects.pure ⟨trivial, hrange⟩ fun s => ?_
  rw [hrange]
  simp

theorem fits_ofPlace {place : GenM Place} (h : Finds W place ty.slotCount) :
    (ofPlace ty place).Fits W := by
  refine ⟨?_, h⟩
  refine Affects.bind h fun p hp => ?_
  refine (moves_pushPlace hp.1).bind ?_
  refine (affects_releasePlace p).of_eq fun s _ => ?_
  rw [hp.2]
  simp only [slots, ofPlace]
  abel

theorem moves_pushSplatted (hx : Moves W x.push x.slots) (h : x.slots = n ∨ x.slots = 1)
    (hn : 0 < n) : Moves W (x.pushSplatted n) n := by
  unfold pushSplatted
  refine hx.bind ?_
  by_cases hsplat : x.slots = 1 ∧ 1 < n
  · rw [if_pos hsplat]
    refine Affects.of_eq (moves_build fun b => adds_pushDuplicates) fun s _ => ?_
    rw [← sub_smul, hsplat.1]
    congr 1
    omega
  · rw [if_neg hsplat]
    refine Affects.pure trivial fun s => ?_
    have hslots : x.slots = n := by omega
    rw [hslots, sub_self]

theorem adds_pushWords (words : List UInt32) (b : Builder) :
    b.Adds (words.foldl (fun b word => b.pushConstant word 1) b) words.length := by
  induction words generalizing b with
  | nil => exact .refl b
  | cons word rest ih =>
    refine (adds_pushConstant.trans (ih _)).of_eq ?_
    rw [List.length_cons]
    push_cast
    ring

theorem moves_pushWords (words : List UInt32) : Moves W (pushWords words) words.length :=
  moves_build (adds_pushWords words)

/-! ## Variables -/

theorem moves_pushVariable (ctx : CodeContext) {v : Variable}
    (hv : v.ty.slotCount = W.slots v.id) (hcoord : isFragCoord v = true → v.ty.slotCount = 4) :
    Moves W (pushVariable ctx v) (W.slots v.id) := by
  unfold pushVariable
  by_cases hfrag : isFragCoord v = true
  · simp only [hfrag, if_true]
    refine (moves_build fun b => adds_pushInput).of_eq ?_
    rw [← hv, hcoord hfrag]
    rfl
  simp only [hfrag, Bool.false_eq_true, if_false]
  refine Affects.get_bind fun g hg => ?_
  rcases hlookup : g.immutableVars.lookup v.id with _ | range
  · refine Affects.bind (affects_variablePlace ctx hv hcoord) fun p hp => ?_
    refine Affects.of_eq (moves_pushPlace hp.2.1) fun s _ => ?_
    rw [hp.2.2, sub_zero]
  · have hcount := hg.immutableVars _ (mem_of_lookup hlookup)
    simp only at hcount ⊢
    rw [← hcount]
    split
    · rename_i hone _
      rw [hone]
      exact moves_build fun b => adds_pushConstant
    · exact moves_build fun b => adds_pushSlots

theorem fits_ofVariable (ctx : CodeContext) {v : Variable} (hty : ty.slotCount = v.ty.slotCount)
    (hv : v.ty.slotCount = W.slots v.id) (hcoord : isFragCoord v = true → v.ty.slotCount = 4) :
    (ofVariable ctx ty v).Fits W := by
  have hslots : (ofVariable ctx ty v).slots = W.slots v.id := hty.trans hv
  constructor
  · rw [hslots]
    exact moves_pushVariable ctx hv hcoord
  · rw [hslots]
    exact finds_variablePlace ctx hv hcoord

/-! ## Arithmetic -/

/-- A factor of a matrix product has the slots of its shape. -/
theorem size_factorShape (ty : Ty) (side : Bool) : (factorShape ty side).size = ty.slotCount := by
  unfold factorShape
  by_cases hmatrix : ty.isMatrix = true
  · rw [if_pos hmatrix]
    cases ty with
    | matrix s columns rows => rfl
    | _ => cases hmatrix
  · rw [if_neg hmatrix]
    cases side <;> simp [Shape.size]

/-- The words that an operation finds of its left operand: a scalar is repeated unless the product
is one of linear algebra. -/
def leftWords (op : Operator) (left right result : Ty) : Nat :=
  if op == .star && isMatrixProduct left right then left.slotCount else result.slotCount

theorem moves_applyArithmetic (op : Operator) (ty : NumType) (n : Nat) :
    Moves W (applyArithmetic op ty n) (-n) := by
  cases op with
  | percent =>
    unfold applyArithmetic
    by_cases hfloat : (ty == .float) = true
    · simp only [hfloat, if_true]
      exact moves_build fun b => adds_binary
    · simp only [hfloat, Bool.false_eq_true, if_false]
      refine moves_build fun b => (((adds_pushClone.trans adds_binary).trans adds_binary).trans
        adds_binary).of_eq ?_
      push_cast
      ring
  | plus | minus | star | slash | bitwiseAnd | bitwiseOr | bitwiseXor =>
    exact moves_build fun b => adds_binary
  | _ => exact Moves.throw

end Operand

/-- The slots of the operands and the result of an arithmetic operation.  In a product of linear
algebra the columns come from the right factor and the rows from the left one; in every other
operation an operand has the slots of the result or is a scalar. -/
def Operator.Combines (op : Operator) (left right result : Ty) : Prop :=
  if op == .star && Operand.isMatrixProduct left right then
    result.slotCount =
      (Operand.factorShape right false).columns * (Operand.factorShape left true).rows
  else
    0 < result.slotCount ∧ (left.slotCount = result.slotCount ∨ left.slotCount = 1) ∧
      (right.slotCount = result.slotCount ∨ right.slotCount = 1)

namespace Operand

open Gen Builder

variable {W : Widths} {x y left right : Operand} {ty result : Ty} {n : Nat}

theorem moves_pushArithmetic {op : Operator} {left : Ty} (hright : right.Fits W)
    (h : op.Combines left right.ty result) :
    Moves W (pushArithmetic op left right result)
      (result.slotCount - leftWords op left right.ty result) := by
  unfold pushArithmetic leftWords
  unfold Operator.Combines at h
  by_cases hproduct : (op == .star && isMatrixProduct left right.ty) = true
  · simp only [hproduct, if_true] at h ⊢
    refine (hright.push.seq (moves_build fun b => adds_emit)).of_eq ?_
    simp only [Op.stackUsage, size_factorShape, h, slots]
    push_cast
    ring
  · simp only [hproduct, Bool.false_eq_true, if_false] at h ⊢
    refine Affects.lift_bind fun kind _ => ?_
    refine ((moves_pushSplatted hright.push h.2.2 h.1).seq (moves_applyArithmetic op kind _)).of_eq ?_
    ring

theorem moves_arithmetic {op : Operator} (hleft : left.Fits W) (hright : right.Fits W)
    (h : op.Combines left.ty right.ty result) :
    Moves W (arithmetic op left right result) result.slotCount := by
  have hrest := moves_pushArithmetic hright h
  unfold arithmetic
  unfold leftWords at hrest
  unfold Operator.Combines at h
  by_cases hproduct : (op == .star && isMatrixProduct left.ty right.ty) = true
  · simp only [hproduct, if_true] at h hrest ⊢
    refine (hleft.push.seq hrest).of_eq ?_
    simp only [slots]
    ring
  · simp only [hproduct, Bool.false_eq_true, if_false] at h hrest ⊢
    refine ((moves_pushSplatted hleft.push h.2.1 h.1).seq hrest).of_eq ?_
    ring

theorem adds_foldBooleans (op : BinaryOp) (hn : 0 < n) (b : Builder) :
    b.Adds (foldBooleans op n b) (1 - n) := by
  induction n using Nat.strongRecOn generalizing b with
  | ind n ih =>
    rw [foldBooleans]
    by_cases hone : n ≤ 1
    · rw [if_pos hone]
      refine (Adds.refl b).of_eq ?_
      omega
    · rw [if_neg hone]
      refine (adds_binary.trans (ih (n - n / 2) (by omega) (by omega) _)).of_eq ?_
      omega

/-- An operation with a constant leaves as many words as it finds. -/
theorem adds_withConstant {b : Builder} {bits : UInt32} {op : BinaryOp} {kind : NumType} :
    b.Adds ((b.pushConstant bits n).binary op kind n) 0 :=
  (adds_pushConstant.trans adds_binary).of_eq (add_neg_cancel _)

theorem moves_negate (ty : Ty) (n : Nat) : Moves W (negate ty n) 0 := by
  refine Affects.lift_bind fun kind _ => ?_
  cases kind with
  | float => exact moves_build fun b => adds_withConstant
  | int => exact moves_build fun b => adds_withConstant
  | uint => exact moves_build fun b => adds_withConstant

theorem moves_complement (n : Nat) : Moves W (complement n) 0 :=
  moves_build fun _ => adds_withConstant

/-! ## Comparisons -/

theorem moves_compare (op : BinaryOp) (hleft : left.Fits W) (hright : right.Fits W)
    (h : right.slots = left.slots) : Moves W (compare op left right) left.slots := by
  refine Affects.lift_bind fun kind _ => ?_
  refine (hleft.push.seq (hright.push.seq (moves_build fun b => adds_binary))).of_eq ?_
  rw [h]
  ring

theorem length_swappedHalves (n : Nat) : (swappedHalves n).length = 2 * n := by
  simp [swappedHalves]
  omega

theorem mem_swappedHalves {n c : Nat} (h : c ∈ swappedHalves n) : c < 2 * n := by
  simp only [swappedHalves, List.mem_append, List.mem_map, List.mem_range] at h
  omega

theorem moves_compareSwapped (op : BinaryOp) (hasEffects : Bool) (hleft : left.Fits W)
    (hright : right.Fits W) (h : right.slots = left.slots) :
    Moves W (compareSwapped op left right hasEffects) left.slots := by
  refine Affects.lift_bind fun kind _ => ?_
  cases hasEffects with
  | true =>
    simp only [if_true]
    refine (hleft.push.seq (hright.push.seq ((moves_build fun b => adds_swizzle ?_).seq
      (moves_build fun b => adds_binary)))).of_eq ?_
    · exact fun c hc => mem_swappedHalves hc
    · rw [h, length_swappedHalves]
      push_cast
      ring
  | false =>
    simp only [Bool.false_eq_true, if_false]
    refine (hright.push.seq (hleft.push.seq (moves_build fun b => adds_binary))).of_eq ?_
    rw [h]
    ring

theorem adds_compareRuns (op fold : BinaryOp) (n : Nat) (runs : List (NumType × Nat))
    (hruns : ∀ run ∈ runs, 0 < run.2) (offset results : Nat) (b : Builder) :
    b.Adds (compareRuns op fold n offset results runs b) runs.length := by
  induction runs generalizing offset results b with
  | nil => exact .refl b
  | cons run rest ih =>
    obtain ⟨kind, count⟩ := run
    have hcount : 0 < count := hruns _ (List.mem_cons_self ..)
    have hrest := ih fun run hrun => hruns run (List.mem_cons_of_mem _ hrun)
    refine ((((adds_pushClone.trans adds_pushClone).trans adds_binary).trans
      (adds_foldBooleans fold hcount _)).trans (hrest ..)).of_eq ?_
    rw [List.length_cons]
    push_cast
    ring

/-- A run is not empty. -/
theorem pos_of_mem_runs {kinds : List NumType} {run : NumType × Nat} (h : run ∈ runs kinds) :
    0 < run.2 := by
  obtain ⟨group, -, hgroup⟩ := List.mem_filterMap.1 h
  rcases group with _ | ⟨kind, rest⟩
  · cases hgroup
  · simp only [List.head?_cons, Option.map_some, Option.some.injEq] at hgroup
    rw [← hgroup]
    exact Nat.succ_pos _

theorem mapM_kinds_length {kinds : List NumberKind} {f : NumberKind → GenM NumType}
    {closed : Nat} {β : Type} {rest : List NumType → GenM β} {ε : Int → β → Effect}
    {Q : β → Prop} (hf : ∀ kind, Affects W 0 (f kind) (fun _ _ => 0) fun _ => True)
    (hrest : ∀ types, types.length = kinds.length → Affects W closed (rest types) ε Q) :
    Affects W closed (kinds.mapM f >>= rest) ε Q := by
  induction kinds generalizing rest with
  | nil =>
    rw [List.mapM_nil, pure_bind]
    exact hrest [] rfl
  | cons kind kinds ih =>
    rw [List.mapM_cons, bind_assoc]
    refine Affects.bind (hf kind) fun ty _ => ?_
    rw [bind_assoc]
    simp only [sub_zero, pure_bind]
    refine ih fun types htypes => hrest _ ?_
    rw [List.length_cons, htypes, List.length_cons]

/-- Whole values are compared to one boolean. -/
theorem moves_equality (negated : Bool) (hleft : left.Fits W) (hright : right.Fits W)
    (h : right.slots = left.slots) (hkinds : left.ty.slotKinds.length = left.slots) :
    Moves W (equality left right negated) 1 := by
  unfold equality
  generalize (if negated = true then (BinaryOp.cmpNe, BinaryOp.bitwiseOr)
    else (BinaryOp.cmpEq, BinaryOp.bitwiseAnd)) = ops
  obtain ⟨op, fold⟩ := ops
  refine mapM_kinds_length (fun kind => ?_) fun types htypes => ?_
  · intro g a g' hg hrun
    obtain ⟨-, rfl⟩ := GenM.lift_eq_ok.1 hrun
    exact ⟨.refl hg, trivial⟩
  refine hleft.push.bind (hright.push.bind ?_)
  rw [h]
  rcases hruns : runs types with _ | ⟨⟨kind, count⟩, _ | ⟨second, others⟩⟩
  · refine Affects.of_eq (moves_build fun b => adds_discard.trans adds_pushConstant) fun s _ => ?_
    push_cast
    module
  · -- There is a run only where there are slots.
    have hpos : 0 < left.slots := by
      rw [← hkinds, ← htypes]
      refine List.length_pos_iff.2 fun hnil => ?_
      rw [hnil] at hruns
      simp [runs] at hruns
    refine Affects.of_eq (moves_build fun b => adds_binary.trans (adds_foldBooleans fold hpos _))
      fun s _ => ?_
    module
  · have hall : ∀ run ∈ (kind, count) :: second :: others, 0 < run.2 := by
      intro run hrun
      rw [← hruns] at hrun
      exact pos_of_mem_runs hrun
    refine Moves.bind (moves_build fun b => (adds_compareRuns op fold left.slots _ hall 0 0 b).trans
      (adds_foldBooleans fold (by simp) _)) ?_
    refine Affects.bind (affects_scratch .bool) fun range hrange => ?_
    have hcount : range.count = 1 := hrange
    refine Affects.of_eq (moves_build fun b => (adds_popSlotsUnmasked.trans adds_discard).trans
      adds_pushSlots) fun s _ => ?_
    rw [hcount]
    push_cast
    module

/-! ## Choices -/

/-- Choosing between values of no slots leaves the test. -/
theorem moves_select {test ifTrue ifFalse : GenM Unit} (htest : Moves W test 1)
    (htrue : Moves W ifTrue n) (hfalse : Moves W ifFalse n) :
    Moves W (select n test ifTrue ifFalse) (max n 1 : Nat) := by
  refine (hfalse.seq (htrue.seq (htest.seq
    (moves_build fun b => adds_pushDuplicates.trans adds_ternary)))).of_eq ?_
  omega

theorem moves_choose {test ifTrue ifFalse : GenM Unit} (trueIsTrivial falseIsTrivial : Bool)
    (htest : Moves W test 1) (htrue : Moves W ifTrue n) (hfalse : Moves W ifFalse n) :
    Moves W (choose n test ifTrue trueIsTrivial ifFalse falseIsTrivial) n := by
  unfold choose
  refine affects_enable_bind (fun b => Adds.refl b) ?_
  refine Affects.bind affects_createStack fun t _ => ?_
  refine Affects.bind (affects_onStack ((moves_build fun b => adds_pushMask).seq
    (htest.seq (moves_build fun b => adds_emit)))) fun _ _ => ?_
  refine Affects.bind affects_newLabel fun falseLabel _ => ?_
  refine Affects.bind affects_newLabel fun exitLabel _ => ?_
  refine Moves.bind_of_cond (moves_build fun b => adds_branch) ?_
  refine htrue.bind (Moves.bind (moves_build fun b => adds_label) ?_)
  refine Affects.bind (affects_onStack (moves_build fun b => adds_emit)) fun _ _ => ?_
  refine Moves.bind_of_cond (moves_build fun b => adds_branch) ?_
  refine hfalse.bind (Moves.bind (moves_build fun b => adds_select.trans adds_label) ?_)
  refine Affects.bind (affects_onStack (moves_build fun b => adds_discard.trans adds_popMask))
    fun _ _ => ?_
  refine Affects.bind (affects_recycleStack t) fun _ _ => ?_
  refine Affects.of_eq (affects_disable fun b => Adds.refl b) fun s _ => ?_
  simp only [Op.stackUsage]
  push_cast
  module

/-- Both sides of a choice are computed in all lanes, since that costs less than masks. -/
def selects (test ifTrue ifFalse : Expr) : Bool :=
  !(test.hasSideEffects || ifTrue.hasSideEffects || ifFalse.hasSideEffects) &&
    ifTrue.isTrivial && ifFalse.isTrivial

theorem ternary_eq (n : Nat) (testExpr trueExpr falseExpr : Expr) (test ifTrue ifFalse : Operand) :
    ternary n testExpr trueExpr falseExpr test ifTrue ifFalse =
      if selects testExpr trueExpr falseExpr then select n test.push ifTrue.push ifFalse.push
      else choose n test.push ifTrue.push trueExpr.isTrivial ifFalse.push falseExpr.isTrivial :=
  rfl

/-- A choice leaves the slots of its sides, unless it is between values of no slots that are both
computed: then the test is left. -/
theorem moves_ternary (testExpr trueExpr falseExpr : Expr) {test ifTrue ifFalse : Operand}
    (htest : test.Fits W) (htrue : ifTrue.Fits W) (hfalse : ifFalse.Fits W)
    (hbool : test.slots = 1) (htrueSlots : ifTrue.slots = n) (hfalseSlots : ifFalse.slots = n) :
    Moves W (ternary n testExpr trueExpr falseExpr test ifTrue ifFalse)
      (if selects testExpr trueExpr falseExpr then max n 1 else n : Nat) := by
  have htest := htest.push_of_slots hbool
  have htrue := htrue.push_of_slots htrueSlots
  have hfalse := hfalse.push_of_slots hfalseSlots
  rw [ternary_eq]
  by_cases hselects : selects testExpr trueExpr falseExpr = true
  · rw [if_pos hselects, if_pos hselects]
    exact moves_select htest htrue hfalse
  · rw [if_neg hselects, if_neg hselects]
    exact moves_choose _ _ htest htrue hfalse

theorem moves_logical (op : BinaryOp) (hleft : left.Fits W) (hright : right.Fits W)
    (hleftSlots : left.slots = 1) (hrightSlots : right.slots = 1) :
    Moves W (logical op left right) 1 := by
  refine (hleft.push.seq (hright.push.seq (moves_build fun b => adds_binary))).of_eq ?_
  rw [hleftSlots, hrightSlots]
  norm_num

/-! ## Assignments -/

theorem moves_assign (ctx : CodeContext) (hx : x.Fits W) {value : Place → GenM Unit}
    (hvalue : ∀ p : Place, p.Sound → p.slotCount = x.slots → Moves W (value p) n) :
    Moves W (assign ctx x value) n := by
  refine Affects.bind hx.place fun p hp => ?_
  refine (hvalue p hp.1 hp.2).bind ((moves_storePlace ctx p).bind ?_)
  refine (affects_releasePlace p).of_eq fun s _ => ?_
  module

theorem moves_stepByOne (op : Operator) (ty : Ty) : Moves W (stepByOne op ty) 0 := by
  have hstep (step : BinaryOp) : Moves W (do
      build (·.pushConstant (literalBits 1.0 ty.numberKind) ty.slotCount)
      let kind ← NumType.ofTy ty
      build (·.binary step kind ty.slotCount)) 0 := by
    refine Moves.bind (moves_build fun b => adds_pushConstant) (Affects.lift_bind fun kind _ => ?_)
    exact Affects.of_eq (moves_build fun b => adds_binary) fun s _ => by module
  cases op with
  | plusPlus => exact hstep .add
  | minusMinus => exact hstep .sub
  | _ => exact Moves.throw

theorem moves_prefixed (ctx : CodeContext) (op : Operator) (hx : x.Fits W) :
    Moves W (prefixed ctx op x) x.slots := by
  have hstep : Moves W (assign ctx x fun place => do
      pushPlace place
      stepByOne op x.ty) x.slots := by
    refine moves_assign ctx hx fun p hp hslots => ?_
    refine ((moves_pushPlace hp).seq (moves_stepByOne op x.ty)).of_eq ?_
    rw [hslots, add_zero]
  cases op with
  | plus => exact hx.push
  | minus => exact (hx.push.seq (moves_negate x.ty _)).of_eq (add_zero _)
  | logicalNot => exact (hx.push.seq (moves_complement _)).of_eq (add_zero _)
  | bitwiseNot => exact (hx.push.seq (moves_build fun b => adds_unary)).of_eq (add_zero _)
  | plusPlus => exact hstep
  | minusMinus => exact hstep
  | _ => exact Moves.throw

theorem moves_postfixed (ctx : CodeContext) (op : Operator) (hx : x.Fits W) :
    Moves W (postfixed ctx op x) x.slots := by
  refine Affects.bind hx.place fun p hp => ?_
  refine (moves_pushPlace hp.1).bind (Moves.bind (moves_build fun b => adds_pushClone) ?_)
  refine (moves_stepByOne op x.ty).bind ((moves_storePlace ctx p).bind ?_)
  refine Moves.bind (moves_build fun b => adds_discard) ?_
  refine (affects_releasePlace p).of_eq fun s _ => ?_
  rw [hp.2]
  module

end Operand

/-! ## Binary operations -/

/-- The slots of the operands and the result of a binary operation. -/
def Operator.Fits (op : Operator) (left right result : Ty) : Prop :=
  match op with
  | .comma => right.slotCount = result.slotCount
  | .assign => left.slotCount = result.slotCount ∧ right.slotCount = result.slotCount
  | .plusEq | .minusEq | .starEq | .slashEq | .percentEq | .shlEq | .shrEq | .bitwiseAndEq
  | .bitwiseOrEq | .bitwiseXorEq =>
    left.slotCount = result.slotCount ∧ op.removeAssignment.Combines left right left
  | .logicalAnd | .logicalOr | .logicalXor =>
    left.slotCount = 1 ∧ right.slotCount = 1 ∧ result.slotCount = 1
  | .eqEq | .neq => right.slotCount = left.slotCount ∧ result.slotCount = 1
  | .lt | .ltEq | .gt | .gtEq =>
    left.slotCount = 1 ∧ right.slotCount = 1 ∧ result.slotCount = 1
  | op => op.Combines left right result

namespace Operand

open Gen Builder

variable {W : Widths} {x left right : Operand} {ty result : Ty}

/-- Computing into the place of the left operand leaves the new value. -/
theorem moves_assignArithmetic (ctx : CodeContext) {op : Operator} (hleft : left.Fits W)
    (hright : right.Fits W) (h : op.Combines left.ty right.ty left.ty) :
    Moves W (assign ctx left fun place => do
      pushPlace place
      pushArithmetic op left.ty right left.ty) left.slots := by
  refine moves_assign ctx hleft fun p hp hslots => ?_
  refine ((moves_pushPlace hp).seq (moves_pushArithmetic hright h)).of_eq ?_
  rw [hslots]
  have hwords : leftWords op left.ty right.ty left.ty = left.slots := by
    unfold leftWords
    split <;> rfl
  rw [hwords]
  simp only [slots]
  ring

theorem moves_binary (ctx : CodeContext) {op : Operator} (leftExpr rightExpr : Expr)
    (hleft : left.Fits W) (hright : right.Fits W) (h : op.Fits left.ty right.ty result)
    (hkinds : left.ty.slotKinds.length = left.slots) :
    Moves W (binary ctx result op leftExpr rightExpr left right) result.slotCount := by
  have hconst (bits : UInt32) : Moves W (build (·.pushConstant bits 1)) 1 :=
    moves_build fun b => adds_pushConstant
  cases op with
  | comma =>
    refine (hleft.push.seq ((moves_build fun b => adds_discard).seq hright.push)).of_eq ?_
    have h : right.slots = result.slotCount := h
    rw [h]
    ring
  | assign =>
    have h : left.slots = result.slotCount ∧ right.slots = result.slotCount := h
    refine moves_assign ctx hleft fun p _ _ => ?_
    rw [← h.2]
    exact hright.push
  | plusEq | minusEq | starEq | slashEq | percentEq | shlEq | shrEq | bitwiseAndEq | bitwiseOrEq
  | bitwiseXorEq =>
    refine (moves_assignArithmetic ctx hleft hright h.2).of_eq ?_
    exact congrArg Nat.cast h.1
  | logicalAnd =>
    obtain ⟨hl, hr, hresult⟩ : left.slots = 1 ∧ right.slots = 1 ∧ result.slotCount = 1 := h
    simp only [binary, hresult]
    split
    · exact moves_choose _ _ (hleft.push_of_slots hl) (hright.push_of_slots hr) (hconst _)
    · exact moves_logical _ hleft hright hl hr
  | logicalOr =>
    obtain ⟨hl, hr, hresult⟩ : left.slots = 1 ∧ right.slots = 1 ∧ result.slotCount = 1 := h
    simp only [binary, hresult]
    split
    · exact moves_choose _ _ (hleft.push_of_slots hl) (hconst _) (hright.push_of_slots hr)
    · exact moves_logical _ hleft hright hl hr
  | logicalXor =>
    obtain ⟨hl, hr, hresult⟩ : left.slots = 1 ∧ right.slots = 1 ∧ result.slotCount = 1 := h
    rw [hresult]
    exact moves_logical _ hleft hright hl hr
  | eqEq =>
    obtain ⟨hslots, hresult⟩ : right.slots = left.slots ∧ result.slotCount = 1 := h
    rw [hresult]
    exact moves_equality false hleft hright hslots hkinds
  | neq =>
    obtain ⟨hslots, hresult⟩ : right.slots = left.slots ∧ result.slotCount = 1 := h
    rw [hresult]
    exact moves_equality true hleft hright hslots hkinds
  | lt | ltEq =>
    obtain ⟨hl, hr, hresult⟩ : left.slots = 1 ∧ right.slots = 1 ∧ result.slotCount = 1 := h
    rw [hresult, ← hl]
    exact moves_compare _ hleft hright (hr.trans hl.symm)
  | gt | gtEq =>
    obtain ⟨hl, hr, hresult⟩ : left.slots = 1 ∧ right.slots = 1 ∧ result.slotCount = 1 := h
    rw [hresult, ← hl]
    exact moves_compareSwapped _ _ hleft hright (hr.trans hl.symm)
  | _ => exact moves_arithmetic hleft hright h

end Operand

/-! ## Conversions -/

/-- The slots of the operand and the result of a conversion. -/
def Conversion.Fits (conversion : Conversion) (source target : Ty) : Prop :=
  match conversion with
  | .cast => source.slotCount = target.slotCount
  | .splat => source.slotCount = 1 ∧ 0 < target.slotCount
  | .diagonal => source.slotCount = 1 ∧ target.slotCount = target.columns * target.rows
  | .resize =>
    source.slotCount = source.columns * source.rows ∧
      target.slotCount = target.columns * target.rows

namespace Operand

open Gen Builder

variable {W : Widths} {x : Operand} {ty : Ty}

theorem moves_castTop (source target : NumberKind) (n : Nat) :
    Moves W (castTop source target n) 0 := by
  unfold castTop
  by_cases hsame : source = target
  · rw [if_pos hsame]
    exact Moves.pure
  · rw [if_neg hsame]
    cases source <;> cases target
    all_goals first
      | exact Moves.pure
      | exact Moves.throw
      | exact moves_build fun b => adds_unary
      | exact moves_build fun b => adds_withConstant

theorem moves_convert {conversion : Conversion} (hx : x.Fits W) (h : conversion.Fits x.ty ty) :
    Moves W (convert conversion ty x) ty.slotCount := by
  cases conversion with
  | cast =>
    have h : x.slots = ty.slotCount := h
    refine (hx.push.seq (moves_castTop _ _ _)).of_eq ?_
    rw [h, add_zero]
  | splat =>
    obtain ⟨hone, hpos⟩ : x.slots = 1 ∧ 0 < ty.slotCount := h
    refine (hx.push.seq (moves_build fun b => adds_pushDuplicates)).of_eq ?_
    omega
  | diagonal =>
    obtain ⟨hone, hsize⟩ : x.slots = 1 ∧ ty.slotCount = ty.columns * ty.rows := h
    refine (hx.push.seq (moves_build fun b => adds_emit)).of_eq ?_
    rw [hone, hsize]
    simp [Op.stackUsage, Shape.size]
  | resize =>
    obtain ⟨hsource, htarget⟩ : x.slots = x.ty.columns * x.ty.rows ∧
      ty.slotCount = ty.columns * ty.rows := h
    refine (hx.push.seq (moves_build fun b => adds_emit)).of_eq ?_
    rw [hsource, htarget]
    simp [Op.stackUsage, Shape.size]

end Operand

end RasterShader
