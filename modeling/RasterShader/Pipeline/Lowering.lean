import RasterShader.Pipeline.Basic
import RasterShader.Stage.Basic

/-!
# Lowering instructions to stages

`Pipeline.lower` walks the instructions once and keeps the current depth of every stack, from which
the slots that an operation reads and writes follow (`Op.stage?`). Branches are emitted with
their label, and given an offset when all labels have been placed.

Hosts that run each stage in a call of its own need a chance to return: a `stackRewind` is emitted
after every `rewindInterval` stages and before every backward branch. Hosts with tail calls never
need one.
-/

namespace RasterShader

/-- Provides the stages that a program cannot run itself. -/
structure Host where
  /-- The stages of a child effect, by its sort and place among the children; `none` rejects it. -/
  child : EffectKind → Nat → Option (List Stage)
  toLinearSrgb : List Stage
  fromLinearSrgb : List Stage

/-- The condition of a branch whose stack has a given top. -/
def BranchCondition.toStage (top : Nat) : BranchCondition → StageCondition
  | .always => .always
  | .allLanesActive => .allLanesActive
  | .anyLanesActive => .anyLanesActive
  | .noLanesActive => .noLanesActive
  | .noLanesEqual value => .noLanesEqual (top - 1) value

/-- The stage of an operation on a stack whose next free slot is `top`; `topOf` gives the next free
slots of other stacks. Operations that only move the top, and those that are not a single stage of
this program, have none. -/
def Op.stage? (top : Nat) (topOf : Int → Nat) : Op → Option Stage
  | .pushConstant count bits => some (.splat top count bits)
  | .pushSlots .value range => some (.copySlots top range.index range.count false)
  | .pushSlots .uniform range => some (.copyUniform top range.index range.count)
  | .pushSlots .immutable range => some (.copyImmutable top range.index range.count)
  | .pushIndirect space fixed offsetStack limit =>
    some (.copyFromIndirect top fixed.index fixed.count (topOf offsetStack - 1) limit space)
  | .pushClone count distance => some (.copySlots top (top - distance) count false)
  | .pushCloneFromStack count stack distance =>
    some (.copySlots top (topOf stack - distance) count false)
  | .pushCloneIndirect count stack distance offsetStack =>
    some (.copyFromIndirect top (topOf stack - distance) count (topOf offsetStack - 1) (topOf stack)
      .value)
  | .pushMask mask => some (.storeMask mask top)
  | .pushInput input => some (.storeInput input top)
  | .popMask mask => some (.loadMask mask (top - 1))
  | .popAndReenableLoop | .reenableLoop => some (.reenableLoop (top - 1))
  | .popCoords => some (.loadCoords (top - 2))
  | .popColor register => some (.loadColor register (top - 4))
  | .copyToSlots masked target distance =>
    some (.copySlots target.index (top - distance) target.count masked)
  | .copyToIndirect fixed offsetStack limit distance =>
    some (.copyToIndirect fixed.index (top - distance) fixed.count (topOf offsetStack - 1) limit)
  | .swizzleToSlots target count packed distance =>
    some (.swizzleCopy target (top - distance) (unpackNybbles packed count))
  | .swizzleToIndirect target count packed distance offsetStack limit =>
    some (.swizzleCopyToIndirect target (top - distance) (unpackNybbles packed count)
      (topOf offsetStack - 1) limit)
  | .copySlots masked target source count => some (.copySlots target source count masked)
  | .zeroSlots range => some (.zeroSlots range.index range.count)
  | .initLaneMasks => some .initLaneMasks
  | .mergeCondition inverted => some (.mergeCondition inverted (top - 2))
  | .mergeLoop => some (.mergeLoop (top - 1))
  | .maskOffLoop => some .maskOffLoop
  | .maskOffReturn => some .maskOffReturn
  | .continueLoop stack => some (.continueLoop (topOf stack - 1))
  | .matchCase value => some (.matchCase (top - 2) value)
  | .storeCoords target => some (.storeCoords target.index)
  | .storeInput input target => some (.storeInput input target.index)
  | .loadColor register source => some (.loadColor register source.index)
  | .unary op ty count => some (.unary op ty (top - count) count)
  | .binary op ty count => some (.binary op ty (top - 2 * count) (top - count) count)
  | .binaryImm op ty count bits slot =>
    some (.binaryImm op ty (slot.getD (top - count)) count bits)
  | .ternary op ty count => some (.ternary op ty (top - 3 * count) count)
  | .select count => some (.select (top - 2 * count) (top - count) count)
  | .swizzle consumed count packed =>
    some (.swizzle (top - consumed) consumed (unpackNybbles packed count))
  | .shuffle consumed count low high =>
    some (.swizzle (top - consumed) consumed
      (unpackNybbles low count ++ unpackNybbles high (count - 8)))
  | .transpose shape => some (.transpose (top - shape.size) shape)
  | .diagonal shape => some (.diagonal (top - 1) shape)
  | .resize source target => some (.resize (top - source.size) source target)
  | .multiply left right => some (.multiply (top - (left.size + right.size)) left right)
  | .inverse size => some (.inverse (top - size * size) size)
  | .determinant size => some (.determinant (top - size * size) size)
  | .dot count => some (.dot (top - 2 * count) count)
  | .refract => some (.refract (top - 9))
  | .trace mark => some (.trace mark)
  | .pad _ | .discard _ | .storeImmutable .. | .label _ | .branch .. | .invoke _ => none

/-- A stage, or a branch that knows its label only. -/
inductive Emitted where
  | stage (stage : Stage)
  | branch (condition : StageCondition) (label : Int)

/-- The label of an emitted branch. -/
def Emitted.label? : Emitted → Option Int
  | .branch _ label => some label
  | .stage _ => none

/-- State of a lowering. -/
structure Lowering where
  emitted : Array Emitted
  /-- How many stages were emitted before each label that has been placed. -/
  labels : Array (Option Nat)
  /-- Current depth of each stack. -/
  depths : List Nat
  /-- How many stages were emitted up to the last rewind. -/
  lastRewind : Nat
  immutable : Array UInt32

namespace Lowering

/-- Stages between two rewinds, at least. -/
def rewindInterval : Nat := 500

/-- Before the first instruction. -/
def start (pipeline : Pipeline) : Lowering where
  emitted := #[]
  labels := Array.replicate pipeline.labelCount none
  depths := pipeline.stackDepths.map fun _ => 0
  lastRewind := 0
  immutable := Array.replicate pipeline.immutableSlots 0

/-- Before the first instruction, on memory that has some words in its immutable slots. The slots
that are missing are zero. -/
def startOn (pipeline : Pipeline) (immutable : Array UInt32) : Lowering :=
  { start pipeline with
    immutable :=
      immutable ++ Array.replicate (pipeline.immutableSlots - immutable.size) 0 }

/-- Emits a stage. -/
def emit (s : Lowering) (stage : Stage) : Lowering :=
  { s with emitted := s.emitted.push (.stage stage) }

/-- Emits the stages of a host, which may have moved the base of the slots. -/
def emitHost (s : Lowering) (stages : List Stage) : Lowering :=
  (stages.foldl emit s).emit .setBasePointer

/-- Emits a rewind. -/
def rewind (s : Lowering) : Lowering :=
  let s := s.emit .stackRewind
  { s with lastRewind := s.emitted.size }

/-- Where a label has been placed. -/
def placed? (s : Lowering) : Int → Option Nat
  | .ofNat label => s.labels[label]?.join
  | .negSucc _ => none

/-- The next free slot of a stack. -/
def topOf (pipeline : Pipeline) (s : Lowering) (stack : Int) : Nat :=
  pipeline.stackBase stack.toNat + s.depths.getD stack.toNat 0

/-- Moves the top of the stack that an instruction works on. -/
def moveTop (s : Lowering) (i : Instruction) : Lowering :=
  let stack := i.stack.toNat
  { s with depths := s.depths.set stack (s.depths.getD stack 0 + i.op.stackUsage).toNat }

/-- Lowers one operation. -/
def lowerOp (pipeline : Pipeline) (host : Option Host) (tailCalls : Bool) (s : Lowering)
    (i : Instruction) : Except PipelineError Lowering :=
  let top := s.topOf pipeline i.stack
  match i.op with
  | .storeImmutable slot bits =>
    if slot < s.immutable.size then
      .ok { s with immutable := s.immutable.setIfInBounds slot bits }
    else .error (.immutableOutOfRange slot)
  | .label label =>
    if 0 ≤ label ∧ label.toNat < s.labels.size then
      .ok { s with labels := s.labels.setIfInBounds label.toNat (some s.emitted.size) }
    else .error (.unallocatedLabel label)
  | .branch condition label =>
    let s := if !tailCalls && (s.placed? label).isSome then s.rewind else s
    .ok { s with emitted := s.emitted.push (.branch (condition.toStage top) label) }
  | .invoke call =>
    match host, call with
    | none, _ => .error (.noHost i.op)
    | some host, .child kind index =>
      match host.child kind index with
      | some stages => .ok (s.emitHost stages)
      | none => .error (.rejectedChild index i.op)
    | some host, .toLinearSrgb => .ok (s.emitHost host.toLinearSrgb)
    | some host, .fromLinearSrgb => .ok (s.emitHost host.fromLinearSrgb)
  | op =>
    match op.stage? top (s.topOf pipeline) with
    | some stage => .ok (s.emit stage)
    | none => .ok s

/-- Lowers one instruction. -/
def lowerInstruction (pipeline : Pipeline) (host : Option Host) (tailCalls : Bool) (s : Lowering)
    (i : Instruction) : Except PipelineError Lowering := do
  let due := !tailCalls && rewindInterval ≤ s.emitted.size - s.lastRewind
  let s ← (if due then s.rewind else s).lowerOp pipeline host tailCalls i
  return s.moveTop i

/-- The stage at a given place, with branches led to their labels. -/
def resolve (s : Lowering) (place : Nat) : Emitted → Except PipelineError Stage
  | .stage stage => .ok stage
  | .branch condition label =>
    match s.placed? label with
    | some target => .ok (.branch condition (target - place))
    | none => .error (.unplacedLabel label)

end Lowering

/-- A pipeline ready to run. -/
structure Lowered where
  stages : Array Stage
  /-- The label of each stage that is a branch. -/
  labels : Array (Option Int)
  /-- Words of the immutable slots. -/
  immutable : Array UInt32

/-- Lowers the instructions to stages, from a given state on. -/
def Pipeline.lowerFrom (pipeline : Pipeline) (s : Lowering) (host : Option Host)
    (tailCalls : Bool) : Except PipelineError Lowered := do
  let s ← pipeline.instructions.foldlM (·.lowerInstruction pipeline host tailCalls ·) s
  let stages ← s.emitted.toList.zipIdx.mapM fun (e, place) => s.resolve place e
  return { stages := stages.toArray, labels := s.emitted.map Emitted.label?,
           immutable := s.immutable }

/-- Lowers the instructions to stages. -/
def Pipeline.lower (pipeline : Pipeline) (host : Option Host) (tailCalls : Bool) :
    Except PipelineError Lowered :=
  pipeline.lowerFrom (.start pipeline) host tailCalls

/-- Lowers the instructions to stages that run on given memory. -/
def Pipeline.lowerOn {lanes : Nat} (pipeline : Pipeline) (data : SlotData lanes)
    (host : Option Host) (tailCalls : Bool) : Except PipelineError Lowered :=
  pipeline.lowerFrom (.startOn pipeline data.immutable) host tailCalls

/-- The uniform slots filled from a list of words, with zeros where it is too short. -/
def Pipeline.uniformWords (pipeline : Pipeline) (uniforms : List UInt32) : Array UInt32 :=
  (uniforms.take pipeline.uniformSlots ++
    List.replicate (pipeline.uniformSlots - uniforms.length) 0).toArray

/-- Gives memory the immutable words of a lowered pipeline and the given uniforms. -/
def Pipeline.loadOn {lanes : Nat} (pipeline : Pipeline) (lowered : Lowered)
    (data : SlotData lanes) (uniforms : List UInt32) : SlotData lanes :=
  { data with
    immutable := lowered.immutable
    uniforms := pipeline.uniformWords uniforms }

/-- Memory for a lowered pipeline, with its immutable words and the given uniforms. -/
def Pipeline.load (pipeline : Pipeline) (lowered : Lowered) (lanes : Nat)
    (uniforms : List UInt32) : SlotData lanes :=
  pipeline.loadOn lowered (pipeline.allocate lanes) uniforms

end RasterShader
