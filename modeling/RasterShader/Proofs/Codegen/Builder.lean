import Mathlib
import RasterShader.Codegen.Intrinsic
import RasterShader.Proofs.Code.Depth

/-!
# What calls of a builder add to the current stack

A call of a builder changes the depth of the current stack by an amount that the call alone
determines, and no other depth: the instructions before it, which it may join, trim or replace, do
not matter.  `Builder.Adds` says so of one builder and the next one; it composes, so that the amount
of a sequence of calls is the sum of the amounts.

Depths are functions from stacks to integers, and `word s` is the depth of one word on stack `s`.
That makes every balance an equation between linear combinations of words.
-/

namespace RasterShader

/-- The depths of one word on a stack. -/
def word (s : Int) : Int → Int := Pi.single s 1

theorem smul_word_apply (n s t : Int) : (n • word s) t = if s = t then n else 0 := by
  by_cases h : s = t
  · subst h
    simp [word]
  · simp [word, h]

namespace Builder

/-- The depth of every stack after the instructions so far. -/
def depth (b : Builder) : Int → Int := stackDepth b.code

/-- From one builder to another, the current stack gains `n` words and nothing else changes but the
instructions and the labels in use. -/
structure Adds (b b' : Builder) (n : Int) : Prop where
  stack : b'.stack = b.stack
  maskDepth : b'.maskDepth = b.maskDepth
  depth : b'.depth = b.depth + n • word b.stack

variable {b b' b'' : Builder} {m n : Int} {k : Nat}

namespace Adds

theorem refl (b : Builder) : b.Adds b 0 := ⟨rfl, rfl, by simp⟩

theorem trans (h : b.Adds b' m) (h' : b'.Adds b'' n) : b.Adds b'' (m + n) := by
  refine ⟨h'.stack.trans h.stack, h'.maskDepth.trans h.maskDepth, ?_⟩
  rw [h'.depth, h.depth, h.stack]
  module

theorem of_eq (h : b.Adds b' m) (hmn : m = n) : b.Adds b' n := hmn ▸ h

/-- Replacing the code adds what the code is deeper by. -/
theorem of_code {code : Code}
    (h : ∀ t, stackDepth code t = stackDepth b.code t + if b.stack = t then n else 0) :
    b.Adds { b with code } n := by
  refine ⟨rfl, rfl, ?_⟩
  funext t
  rw [Pi.add_apply, smul_word_apply]
  exact h t

end Adds

/-! ## Single instructions -/

theorem adds_emit {op : Op} : b.Adds (b.emit op) op.stackUsage := by
  apply Adds.of_code
  intro t
  rw [stackDepth_cons]
  exact add_comm _ _

/-- An operation on `k` words whose usage is a multiple of `k` may be left out when there are
none. -/
theorem adds_emitCounted {op : Op} (h : k = 0 → op.stackUsage = 0) :
    b.Adds (b.emitCounted k op) op.stackUsage := by
  unfold emitCounted
  by_cases hk : k = 0
  · rw [if_pos hk, h hk]
    exact .refl b
  · rw [if_neg hk]
    exact adds_emit

theorem adds_setLabelCount {count : Nat} : b.Adds { b with labelCount := count } 0 :=
  ⟨rfl, rfl, by simp [depth]⟩

/-! ## Control flow -/

theorem adds_label {label : Int} : b.Adds (b.label label) 0 := by
  apply Adds.of_code
  intro t
  rw [stackDepth_cons, Code.stackDepth_withoutBranchesTo]
  simp [Op.stackUsage]

theorem adds_jump {label : Int} : b.Adds (b.jump label) 0 := by
  unfold jump
  split
  · exact .refl b
  · apply Adds.of_code
    intro t
    rw [stackDepth_cons, Code.stackDepth_withoutConditionalsTo]
    simp [Op.stackUsage]

theorem adds_branch {condition : BranchCondition} {label : Int} :
    b.Adds (b.branch condition label) 0 := by
  unfold branch
  split
  · exact .refl b
  · exact adds_emit

/-! ## Pushes -/

theorem adds_pushConstant {bits : UInt32} : b.Adds (b.pushConstant bits k) k := by
  unfold pushConstant
  by_cases hk : k = 0
  · rw [if_pos hk, hk]
    exact .refl b
  · rw [if_neg hk]
    exact .of_code fun t => Code.stackDepth_pushConstant b.stack t k bits b.code

theorem adds_pushZeros : b.Adds (b.pushZeros k) k := adds_pushConstant

theorem adds_pushSlots {space : SlotSpace} {range : SlotRange} :
    b.Adds (b.pushSlots space range) range.count := by
  unfold pushSlots
  by_cases hk : range.count = 0
  · rw [if_pos hk, hk]
    exact .refl b
  · rw [if_neg hk]
    exact .of_code fun t => Code.stackDepth_pushSlots b.stack t space range b.code

theorem adds_pushIndirect {space : SlotSpace} {fixed : SlotRange} {offsetStack : Int}
    {limit : Nat} : b.Adds (b.pushIndirect space fixed offsetStack limit) fixed.count :=
  adds_emit

theorem adds_pushClone {distance : Nat} : b.Adds (b.pushClone k distance) k :=
  adds_emitCounted fun hk => by simp [Op.stackUsage, hk]

theorem adds_pushCloneFromStack {stack : Int} {distance : Nat} :
    b.Adds (b.pushCloneFromStack k stack distance) k :=
  adds_emitCounted fun hk => by simp [Op.stackUsage, hk]

theorem adds_pushMask {mask : Mask} : b.Adds (b.pushMask mask) 1 :=
  .of_code fun t => Code.stackDepth_pushMask b.stack t mask b.code

theorem adds_pushInput {input : Input} : b.Adds (b.pushInput input) 4 := adds_emit

theorem adds_pad : b.Adds (b.pad k) k :=
  adds_emitCounted fun hk => by simp [Op.stackUsage, hk]

/-! ## Pops and stores -/

theorem adds_popMask {mask : Mask} : b.Adds (b.popMask mask) (-1) := adds_emit

theorem adds_popColor {register : ColorRegister} : b.Adds (b.popColor register) (-4) := adds_emit

theorem adds_discard : b.Adds (b.discard k) (-k) := by
  apply Adds.of_code
  intro t
  rw [Code.stackDepth_discard]
  split <;> omega

theorem adds_copyToSlotsUnmasked {target : SlotRange} {distance : Nat} :
    b.Adds (b.copyToSlotsUnmasked target distance) 0 :=
  adds_emitCounted fun _ => rfl

theorem adds_copyToSlots {target : SlotRange} {distance : Nat} :
    b.Adds (b.copyToSlots target distance) 0 := by
  unfold copyToSlots
  split
  · exact adds_emitCounted fun _ => rfl
  · exact adds_copyToSlotsUnmasked

theorem adds_copyToIndirect {fixed : SlotRange} {offsetStack : Int} {limit distance : Nat} :
    b.Adds (b.copyToIndirect fixed offsetStack limit distance) 0 :=
  adds_emit

theorem adds_swizzleToSlots {target : SlotRange} {components : List Nat} {distance : Nat} :
    b.Adds (b.swizzleToSlots target components distance) 0 :=
  adds_emit

theorem adds_swizzleToIndirect {fixed : SlotRange} {offsetStack : Int} {limit : Nat}
    {components : List Nat} {distance : Nat} :
    b.Adds (b.swizzleToIndirect fixed offsetStack limit components distance) 0 :=
  adds_emit

theorem adds_popSlots {target : SlotRange} : b.Adds (b.popSlots target) (-target.count) :=
  (adds_copyToSlots.trans adds_discard).of_eq (zero_add _)

theorem adds_popSlotsUnmasked {target : SlotRange} :
    b.Adds (b.popSlotsUnmasked target) (-target.count) :=
  (adds_copyToSlotsUnmasked.trans adds_discard).of_eq (zero_add _)

theorem adds_popSlotsIndirect {fixed : SlotRange} {offsetStack : Int} {limit : Nat} :
    b.Adds (b.popSlotsIndirect fixed offsetStack limit) (-fixed.count) :=
  (adds_copyToIndirect.trans adds_discard).of_eq (zero_add _)

theorem adds_copySlotsMasked {target source : Nat} :
    b.Adds (b.copySlotsMasked target source k) 0 :=
  adds_emitCounted fun _ => rfl

theorem adds_copySlotsUnmasked {target source : Nat} :
    b.Adds (b.copySlotsUnmasked target source k) 0 := by
  unfold copySlotsUnmasked
  split
  · exact .refl b
  · apply Adds.of_code
    intro t
    rw [Code.stackDepth_copySlots]
    simp

theorem adds_zeroSlots {range : SlotRange} : b.Adds (b.zeroSlots range) 0 := by
  unfold zeroSlots
  split
  · exact .refl b
  · apply Adds.of_code
    intro t
    rw [Code.stackDepth_zeroSlots]
    simp

theorem adds_traceVar {range : SlotRange} : b.Adds (b.traceVar range) 0 :=
  adds_emitCounted fun _ => rfl

/-! ## Arithmetic -/

theorem adds_unary {op : UnaryOp} {ty : NumType} : b.Adds (b.unary op ty k) 0 :=
  adds_emitCounted fun _ => rfl

theorem adds_binary {op : BinaryOp} {ty : NumType} : b.Adds (b.binary op ty k) (-k) := by
  unfold binary
  by_cases hk : k = 0
  · simp only [hk, if_true]
    exact .refl b
  · simp only [hk, if_false]
    generalize hfolded : (if op.hasImmediateForm (op.canonicalType ty) = true then
      b.code.foldImmediate? b.stack op (op.canonicalType ty) k else none) = folded
    cases folded with
    | none => exact adds_emit
    | some code =>
      have hfold : b.code.foldImmediate? b.stack op (op.canonicalType ty) k = some code := by
        by_cases himm : op.hasImmediateForm (op.canonicalType ty) = true
        · rwa [if_pos himm] at hfolded
        · rw [if_neg himm] at hfolded
          cases hfolded
      apply Adds.of_code
      intro t
      rw [Code.stackDepth_foldImmediate b.stack t hfold]
      split <;> omega

theorem adds_ternary {op : TernaryOp} {ty : NumType} : b.Adds (b.ternary op ty k) (-2 * k) :=
  adds_emitCounted fun hk => by simp [Op.stackUsage, hk]

theorem adds_select : b.Adds (b.select k) (-k) :=
  adds_emitCounted fun hk => by simp [Op.stackUsage, hk]

/-- A swizzle of words that it consumes leaves as many as it has components. -/
theorem adds_swizzle {consumed : Nat} {components : List Nat}
    (h : ∀ c ∈ components, c < consumed) :
    b.Adds (b.swizzle consumed components) (components.length - consumed) := by
  have husage := (Code.trimIdentity_usage h).1
  unfold swizzle
  rcases htrim : Code.trimIdentity consumed components with ⟨rest, _ | ⟨c, others⟩⟩
  · rw [htrim] at husage
    refine adds_discard.of_eq ?_
    simpa using husage
  · rw [htrim] at husage
    refine adds_emit.of_eq ?_
    rw [Code.stackUsage_selection]
    exact husage

theorem adds_pushDuplicates : b.Adds (b.pushDuplicates k) k := by
  induction k using Nat.strongRecOn generalizing b with
  | ind k ih =>
    rw [pushDuplicates]
    by_cases hk : k = 0
    · rw [if_pos hk, hk]
      exact .refl b
    · rw [if_neg hk]
      have hzero : ∀ c ∈ List.replicate (min k 15 + 1) 0, c < 1 := by
        intro c hc
        rw [List.eq_of_mem_replicate hc]
        exact Nat.zero_lt_one
      refine ((adds_swizzle hzero).trans (ih (k - min k 15) (by omega))).of_eq ?_
      rw [List.length_replicate]
      omega

end Builder

end RasterShader
