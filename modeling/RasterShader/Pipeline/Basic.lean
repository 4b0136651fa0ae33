import RasterShader.Instruction.Builder
import RasterShader.Pipeline.Error
import RasterShader.Trace

/-!
# Pipelines

A `Pipeline` is a finished list of instructions with the number of slots it needs. Every stack is
given room for the deepest point it reaches anywhere in the list, after the slots of variables and
one stack after the other, so that each push and pop has a slot of its own that is known before
the program runs.
-/

namespace RasterShader

/-- Depths of stacks by number; stacks past the end are empty. -/
structure StackDepths where
  now : List Int
  most : List Nat
deriving Repr, Inhabited

/-- A finished list of instructions. -/
structure Pipeline where
  instructions : List Instruction
  valueSlots : Nat
  uniformSlots : Nat
  immutableSlots : Nat
  labelCount : Nat
  /-- Deepest point of each stack. -/
  stackDepths : List Nat
  debugTrace : Option DebugTrace
deriving Inhabited

namespace StackDepths

/-- No stack. -/
def empty : StackDepths := ⟨[], []⟩

/-- Room for one more stack number. -/
def cover (depths : StackDepths) (stack : Nat) : StackDepths :=
  ⟨depths.now ++ List.replicate (stack + 1 - depths.now.length) 0,
    depths.most ++ List.replicate (stack + 1 - depths.most.length) 0⟩

/-- The depths after an instruction. -/
def step (depths : StackDepths) (index : Nat) (i : Instruction) :
    Except PipelineError StackDepths :=
  match i.stack with
  | .negSucc _ => .error (.invalidStack index i.stack)
  | .ofNat stack =>
    let depths := depths.cover stack
    let depth := depths.now.getD stack 0 + i.op.stackUsage
    if depth < 0 then .error (.underflow stack index i.op)
    else .ok ⟨depths.now.set stack depth,
      depths.most.set stack (max (depths.most.getD stack 0) depth.toNat)⟩

/-- The depths after a list of instructions, the first of which has a given place. -/
def after (depths : StackDepths) (index : Nat) : List Instruction →
    Except PipelineError StackDepths
  | [] => .ok depths
  | i :: rest => do (← depths.step index i).after (index + 1) rest

/-- Every stack is empty in the end. -/
def balanced (depths : StackDepths) : Except PipelineError Unit :=
  match depths.now.zipIdx.find? fun (depth, _) => depth != 0 with
  | some (depth, stack) => .error (.unbalanced stack depth)
  | none => .ok ()

end StackDepths

namespace Pipeline

/-- Finishes a list of instructions, if no stack underflows and all are empty in the end. -/
def ofInstructions (instructions : List Instruction)
    (valueSlots uniformSlots immutableSlots labelCount : Nat) (debugTrace : Option DebugTrace) :
    Except PipelineError Pipeline := do
  let depths ← StackDepths.empty.after 0 instructions
  depths.balanced
  return { instructions, valueSlots, uniformSlots, immutableSlots, labelCount,
           stackDepths := depths.most, debugTrace }

/-- Finishes the instructions of a builder. -/
def ofBuilder (b : Builder) (valueSlots uniformSlots immutableSlots : Nat)
    (debugTrace : Option DebugTrace) : Except PipelineError Pipeline :=
  ofInstructions b.instructions valueSlots uniformSlots immutableSlots b.labelCount debugTrace

/-- Slots of all stacks together. -/
def stackSlots (pipeline : Pipeline) : Nat := pipeline.stackDepths.foldr (· + ·) 0

/-- The first slot of a stack. -/
def stackBase (pipeline : Pipeline) (stack : Nat) : Nat :=
  pipeline.valueSlots + (pipeline.stackDepths.take stack).foldr (· + ·) 0

end Pipeline

/-- Memory of a running pipeline. Value slots, those of the stacks included, hold one word per lane;
uniforms and immutable slots are shared by all lanes. -/
structure SlotData (lanes : Nat) where
  values : Array (Vector UInt32 lanes)
  immutable : Array UInt32
  uniforms : Array UInt32

namespace SlotData

/-- All words zero. -/
def zero (lanes valueSlots immutableSlots uniformSlots : Nat) : SlotData lanes where
  values := Array.replicate valueSlots (Vector.replicate lanes 0)
  immutable := Array.replicate immutableSlots 0
  uniforms := Array.replicate uniformSlots 0

/-- Words of the value slots, slot by slot. -/
def words {lanes : Nat} (data : SlotData lanes) : List UInt32 :=
  data.values.toList.flatMap Vector.toList

/-- Bytes of the value and immutable words. -/
def byteSize {lanes : Nat} (data : SlotData lanes) : Nat :=
  4 * (data.values.size * lanes + data.immutable.size)

end SlotData

/-- Memory for a pipeline, all words zero. -/
def Pipeline.allocate (pipeline : Pipeline) (lanes : Nat) : SlotData lanes :=
  .zero lanes (pipeline.valueSlots + pipeline.stackSlots) pipeline.immutableSlots
    pipeline.uniformSlots

end RasterShader
