import Mathlib
import RasterShader.Proofs.Code.Branches
import RasterShader.Proofs.Codegen.Builder

/-!
# What each call of a builder adds to the stacks

A `BuilderCall` is any call of a builder at all.  `BuilderCall.effect` is by how much a call is
meant to deepen the current stack; it is read off the call, in terms of the words that operations
take and leave (`Op.words`), and knows nothing of the instructions that are there.

Whatever a call joins, trims, folds, cancels or drops, it adds its effect to the depth of the
current stack and nothing to any other (`BuilderCall.depth_apply`).  So the depths after any calls
are sums of effects, taken on the stacks that the calls were made on
(`BuilderCall.calls_have_their_effects`).
-/

namespace RasterShader

/-! ## Words taken and left -/

namespace Op

/-- How many words an operation takes off its stack, and how many it leaves in their place. -/
def words : Op → Nat × Nat
  | pushConstant count _ | pushClone count _ | pushCloneFromStack count _ _
  | pushCloneIndirect count _ _ _ | pad count => (0, count)
  | pushSlots _ range | pushIndirect _ range _ _ => (0, range.count)
  | pushMask _ => (0, 1)
  | pushInput _ => (0, 4)
  | popMask _ | popAndReenableLoop | mergeLoop => (1, 0)
  | popCoords => (2, 0)
  | popColor _ => (4, 0)
  | discard count => (count, 0)
  | reenableLoop => (1, 1)
  | mergeCondition _ | matchCase _ => (2, 2)
  | unary _ _ count => (count, count)
  -- on slots in place, the stack is left alone
  | binaryImm _ _ count _ slot => if slot.isSome then (0, 0) else (count, count)
  | binary _ _ count | select count => (2 * count, count)
  | ternary _ _ count => (3 * count, count)
  | swizzle consumed count _ | shuffle consumed count _ _ => (consumed, count)
  | transpose shape => (shape.size, shape.size)
  | diagonal shape => (1, shape.size)
  | resize source target => (source.size, target.size)
  | multiply left right => (left.size + right.size, right.columns * left.rows)
  | inverse size => (size * size, size * size)
  | determinant size => (size * size, 1)
  | dot count => (2 * count, 1)
  -- two vectors of four components and the ratio of the indices
  | refract => (9, 4)
  | copyToSlots _ _ _ | copyToIndirect _ _ _ _ | swizzleToSlots _ _ _ _
  | swizzleToIndirect _ _ _ _ _ _ | copySlots _ _ _ _ | zeroSlots _ | storeImmutable _ _
  | initLaneMasks | maskOffLoop | maskOffReturn | continueLoop _ | storeCoords _ | storeInput _ _
  | loadColor _ _ | label _ | branch _ _ | invoke _ | trace _ => (0, 0)

/-- The usage of an operation is what it leaves less what it takes. -/
theorem stackUsage_eq (op : Op) : op.stackUsage = op.words.2 - op.words.1 := by
  cases op with
  | binaryImm op ty count bits slot => cases slot <;> simp [stackUsage, words]
  | binary | ternary | select =>
    simp only [stackUsage, words]
    omega
  | _ => simp [stackUsage, words]

end Op

/-! ## Effects of calls -/

/-- How much a call is meant to deepen the current stack. -/
def Call.effect : Call → Int
  | pushConstant _ count | pushClone count _ | pushCloneFromStack count _ _
  | pushDuplicates count => count
  | pushSlots _ range => range.count
  | pushMask _ => 1
  | discard count | binary _ _ count | select count => -count
  | popSlots target | popSlotsUnmasked target | popSlotsIndirect target _ _ => -target.count
  | ternary _ _ count => -2 * count
  | swizzle consumed components => components.length - consumed
  | emit op => op.words.2 - op.words.1
  | setStack _ | enableMaskWrites | disableMaskWrites | copyToSlots _ _ | copyToSlotsUnmasked _ _
  | copySlotsMasked _ _ _ | copySlotsUnmasked _ _ _ | zeroSlots _ | unary _ _ _ | traceVar _ => 0

/-- Any call of a builder. -/
inductive BuilderCall where
  | flow (call : FlowCall)
  /-- Raises the top over words that are still there. -/
  | pad (count : Nat)

namespace BuilderCall

/-- Makes a call. -/
def apply (b : Builder) : BuilderCall → Builder
  | flow call => call.apply b
  | pad count => b.pad count

/-- How much a call is meant to deepen the current stack. Labels and branches leave it alone. -/
def effect : BuilderCall → Int
  | flow (.data call) => call.effect
  | flow _ => 0
  | pad count => count

/-- The current stack after a call. -/
def stackAfter (stack : Int) : BuilderCall → Int
  | flow (.data (.setStack s)) => s
  | _ => stack

/-- A swizzle chooses among the words that it consumes. -/
def Chooses : BuilderCall → Prop
  | flow (.data (.swizzle consumed components)) => ∀ c ∈ components, c < consumed
  | _ => True

/-- The builder after calls. -/
def build (calls : List BuilderCall) : Builder := calls.foldl apply .empty

/-- How much calls are meant to deepen stack `t` in all, if the first is made on stack `stack`. -/
def effects (t stack : Int) : List BuilderCall → Int
  | [] => 0
  | call :: calls =>
    (if t = stack then call.effect else 0) + effects t (call.stackAfter stack) calls

/-! ## One call -/

variable {b : Builder} {call : BuilderCall}

/-- A call leaves the current stack that it says, and adds its effect to the depth of the stack that
it was made on. -/
structure Balances (b : Builder) (call : BuilderCall) : Prop where
  stack : (call.apply b).stack = call.stackAfter b.stack
  depth : (call.apply b).depth = b.depth + call.effect • word b.stack

/-- Calls that stay on the current stack balance by what they add to it. -/
theorem Balances.of_adds (h : b.Adds (call.apply b) call.effect)
    (hstack : call.stackAfter b.stack = b.stack) : Balances b call :=
  ⟨h.stack.trans hstack.symm, h.depth⟩

theorem balances_data {call : Call} (h : (flow (.data call)).Chooses) :
    Balances b (flow (.data call)) := by
  cases call with
  | setStack | enableMaskWrites | disableMaskWrites =>
    refine ⟨rfl, ?_⟩
    rw [effect, Call.effect, zero_smul, add_zero]
    rfl
  | pushConstant => exact .of_adds Builder.adds_pushConstant rfl
  | pushSlots => exact .of_adds Builder.adds_pushSlots rfl
  | pushClone => exact .of_adds Builder.adds_pushClone rfl
  | pushCloneFromStack => exact .of_adds Builder.adds_pushCloneFromStack rfl
  | pushMask => exact .of_adds Builder.adds_pushMask rfl
  | discard => exact .of_adds Builder.adds_discard rfl
  | copyToSlots => exact .of_adds Builder.adds_copyToSlots rfl
  | copyToSlotsUnmasked => exact .of_adds Builder.adds_copyToSlotsUnmasked rfl
  | popSlots => exact .of_adds Builder.adds_popSlots rfl
  | popSlotsUnmasked => exact .of_adds Builder.adds_popSlotsUnmasked rfl
  | popSlotsIndirect => exact .of_adds Builder.adds_popSlotsIndirect rfl
  | copySlotsMasked => exact .of_adds Builder.adds_copySlotsMasked rfl
  | copySlotsUnmasked => exact .of_adds Builder.adds_copySlotsUnmasked rfl
  | zeroSlots => exact .of_adds Builder.adds_zeroSlots rfl
  | unary => exact .of_adds Builder.adds_unary rfl
  | binary => exact .of_adds Builder.adds_binary rfl
  | ternary => exact .of_adds Builder.adds_ternary rfl
  | select => exact .of_adds Builder.adds_select rfl
  | pushDuplicates => exact .of_adds Builder.adds_pushDuplicates rfl
  | traceVar => exact .of_adds Builder.adds_traceVar rfl
  | swizzle => exact .of_adds (Builder.adds_swizzle h) rfl
  | emit op => exact .of_adds (Builder.adds_emit.of_eq op.stackUsage_eq) rfl

/-- Every call balances, whatever instructions it meets. -/
theorem balances (h : call.Chooses) : Balances b call := by
  cases call with
  | pad => exact .of_adds Builder.adds_pad rfl
  | flow call =>
    cases call with
    | data => exact balances_data h
    | nextLabel => exact .of_adds Builder.adds_setLabelCount rfl
    | label => exact .of_adds Builder.adds_label rfl
    | jump => exact .of_adds Builder.adds_jump rfl
    | branch => exact .of_adds Builder.adds_branch rfl

/-- A call adds its effect to the depth of the current stack, and nothing to any other. -/
theorem depth_apply (h : call.Chooses) (t : Int) :
    stackDepth (call.apply b).code t =
      stackDepth b.code t + if t = b.stack then call.effect else 0 := by
  have hdepth : (call.apply b).depth t = (b.depth + call.effect • word b.stack) t :=
    congrFun (balances h).depth t
  rw [Pi.add_apply, smul_word_apply] at hdepth
  simp only [eq_comm (a := t)]
  exact hdepth

/-! ## All calls -/

/-- What calls add to the depth of a stack is the sum of the effects of those made on it. -/
theorem depth_foldl (calls : List BuilderCall) (h : ∀ call ∈ calls, call.Chooses) (t : Int) :
    stackDepth (calls.foldl apply b).code t = stackDepth b.code t + effects t b.stack calls := by
  induction calls generalizing b with
  | nil => simp [effects]
  | cons call calls ih =>
    obtain ⟨hcall, hcalls⟩ := List.forall_mem_cons.1 h
    rw [List.foldl_cons, ih hcalls, depth_apply hcall, (balances hcall).stack, effects, add_assoc]

/-- After any calls, every call adds its nominal effect to the depth of the current stack and
nothing to that of any other, so that every depth is the sum of the effects of the calls made on
its stack. -/
theorem calls_have_their_effects (calls : List BuilderCall) :
    (∀ call : BuilderCall, call.Chooses → ∀ t,
      stackDepth (call.apply (build calls)).instructions t =
        stackDepth (build calls).instructions t +
          if t = (build calls).stack then call.effect else 0) ∧
    ((∀ call ∈ calls, call.Chooses) →
      ∀ t, stackDepth (build calls).instructions t = effects t 0 calls) := by
  constructor
  · intro call hcall t
    simp only [Builder.instructions, stackDepth_reverse]
    exact depth_apply hcall t
  · intro h t
    rw [Builder.instructions, stackDepth_reverse, build, depth_foldl calls h]
    exact zero_add _

/-- A word on one stack and a branch to the next label; then on another stack two words, and the sum
of a slot and a constant, which is stored to the slot. -/
def storedSum : List BuilderCall :=
  [.flow (.data (.setStack 1)), .pad 1, .flow (.branch .anyLanesActive 0), .flow (.label 0),
    .flow (.data (.setStack 0)), .flow (.data (.pushConstant 3 2)),
    .flow (.data (.pushSlots .value ⟨0, 1⟩)), .flow (.data (.pushConstant 5 1)),
    .flow (.data (.binary .add .int 1)), .flow (.data (.copyToSlotsUnmasked ⟨0, 1⟩ 1))]

/-- Discarding the sum and one of the words puts an operation on the slot in place of three
instructions, and takes two words from the stack. -/
theorem calls_have_their_effects_storedSum :
    (∀ call ∈ storedSum, call.Chooses) ∧
      ((flow (.data (.discard 2))).apply (build storedSum)).instructions =
        [⟨.pad 1, 1⟩, ⟨.label 0, 1⟩, ⟨.pushConstant 2 3, 0⟩,
          ⟨.binaryImm .add .int 1 5 (some 0), 0⟩, ⟨.discard 1, 0⟩] ∧
      stackDepth (build storedSum).instructions 0 = 3 ∧
      stackDepth ((flow (.data (.discard 2))).apply (build storedSum)).instructions 0 = 1 ∧
      stackDepth ((flow (.data (.discard 2))).apply (build storedSum)).instructions 1 = 1 := by
  have chooses : ∀ call ∈ storedSum, call.Chooses := by simp [storedSum, Chooses]
  obtain ⟨step, total⟩ := calls_have_their_effects storedSum
  specialize total chooses
  have hstack : (build storedSum).stack = 0 := rfl
  have zero : stackDepth (build storedSum).instructions 0 = 3 := (total 0).trans (by decide)
  have one : stackDepth (build storedSum).instructions 1 = 1 := (total 1).trans (by decide)
  refine ⟨chooses, by decide +kernel, zero, ?_, ?_⟩
  · rw [step _ (by simp [Chooses]), zero, hstack]
    rfl
  · rw [step _ (by simp [Chooses]), one, hstack]
    rfl

end BuilderCall

end RasterShader
