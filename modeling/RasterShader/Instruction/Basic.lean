import RasterShader.Arithmetic.Operation
import RasterShader.Slot
import RasterShader.Ty.Basic

/-!
# Instructions

Code is generated for a machine with several stacks of words, next to the slots of variables. An
`Instruction` is an operation (`Op`) together with the stack it works on. Operands that are not on
that stack are part of the operation: slots, counts, constants, labels, and the numbers of other
stacks. Distances are counted in slots from the top of a stack down.

`Op.stackUsage` is the net change of the depth of the instruction's stack.
-/

namespace RasterShader

/-! ## Components packed into words -/

/-- Packs up to eight components of four bits each, the first one in the lowest bits. -/
def packNybbles (components : List Nat) : UInt32 :=
  (components.take 8).foldr (fun c packed => packed <<< 4 ||| UInt32.ofNat (c % 16)) 0

/-- The first `count` of eight packed components. -/
def unpackNybbles (packed : UInt32) (count : Nat) : List Nat :=
  (List.range (min count 8)).map fun i => (packed.toNat >>> (4 * i)) % 16

/-! ## Operations -/

/-- When a branch is taken. -/
inductive BranchCondition where
  | always
  | allLanesActive
  | anyLanesActive
  | noLanesActive
  /-- No active lane has the given word on top of the stack. -/
  | noLanesEqual (value : UInt32)
deriving DecidableEq, Repr, Inhabited

/-- Stages that a program asks its host for. -/
inductive HostCall where
  /-- A child effect, by its place among the children. -/
  | child (kind : EffectKind) (index : Nat)
  | toLinearSrgb
  | fromLinearSrgb
deriving DecidableEq, Repr, Inhabited

/-- What a traced program tells about its progress. -/
inductive TraceMark where
  | line (number : Int)
  | var (range : SlotRange)
  | enter (function : Int)
  | exit (function : Int)
  /-- Change of the depth of nested scopes. -/
  | scope (delta : Int)
deriving DecidableEq, Repr, Inhabited

/-- Operations on stacks and slots. -/
inductive Op where
  /-- Pushes a word `count` times. -/
  | pushConstant (count : Nat) (bits : UInt32)
  | pushSlots (space : SlotSpace) (range : SlotRange)
  /-- Pushes `fixed.count` slots from `fixed.index`, moved by the offset on top of another stack
  but not past `limit`, on. -/
  | pushIndirect (space : SlotSpace) (fixed : SlotRange) (offsetStack : Int) (limit : Nat)
  /-- Pushes a copy of `count` slots, the first of which is `distance` below the top. -/
  | pushClone (count distance : Nat)
  | pushCloneFromStack (count : Nat) (stack : Int) (distance : Nat)
  /-- As `pushCloneFromStack`, moved by the offset on top of `offsetStack` but not past the top. -/
  | pushCloneIndirect (count : Nat) (stack : Int) (distance : Nat) (offsetStack : Int)
  | pushMask (mask : Mask)
  | pushInput (input : Input)
  /-- Raises the top over words that are still there. -/
  | pad (count : Nat)
  | popMask (mask : Mask)
  /-- Adds the popped lanes to the loop mask. -/
  | popAndReenableLoop
  /-- Pops the first two components of the source color. -/
  | popCoords
  | popColor (register : ColorRegister)
  | discard (count : Nat)
  /-- Copies to slots without popping. -/
  | copyToSlots (masked : Bool) (target : SlotRange) (distance : Nat)
  | copyToIndirect (fixed : SlotRange) (offsetStack : Int) (limit distance : Nat)
  /-- Scatters `count` words to the packed components of the slots from `target` on. -/
  | swizzleToSlots (target count : Nat) (packed : UInt32) (distance : Nat)
  | swizzleToIndirect (target count : Nat) (packed : UInt32) (distance : Nat)
      (offsetStack : Int) (limit : Nat)
  | copySlots (masked : Bool) (target source count : Nat)
  | zeroSlots (range : SlotRange)
  | storeImmutable (slot : Nat) (bits : UInt32)
  | initLaneMasks
  /-- The condition mask becomes the second word from the top and the top, or its complement. -/
  | mergeCondition (inverted : Bool)
  /-- Removes from the loop mask all but the popped lanes. -/
  | mergeLoop
  /-- Adds the lanes on top of the stack to the loop mask. -/
  | reenableLoop
  | maskOffLoop
  | maskOffReturn
  /-- Moves the active lanes from the loop mask to the mask on top of another stack. -/
  | continueLoop (stack : Int)
  /-- With a switch value and the lanes not yet matched on top, activates the lanes with a given
  value and takes them from those not yet matched. -/
  | matchCase (value : UInt32)
  | storeCoords (target : SlotRange)
  | storeInput (input : Input) (target : SlotRange)
  | loadColor (register : ColorRegister) (source : SlotRange)
  | unary (op : UnaryOp) (ty : NumType) (count : Nat)
  | binary (op : BinaryOp) (ty : NumType) (count : Nat)
  /-- A constant right operand; on the top of the stack, or on slots in place. -/
  | binaryImm (op : BinaryOp) (ty : NumType) (count : Nat) (bits : UInt32) (slot : Option Nat)
  | ternary (op : TernaryOp) (ty : NumType) (count : Nat)
  /-- Replaces the first of two operands by the second in active lanes. -/
  | select (count : Nat)
  /-- Replaces `consumed` words by `count` of them, chosen by the packed components. -/
  | swizzle (consumed count : Nat) (packed : UInt32)
  /-- As `swizzle`, for up to sixteen components. -/
  | shuffle (consumed count : Nat) (low high : UInt32)
  | transpose (shape : Shape)
  | diagonal (shape : Shape)
  | resize (source target : Shape)
  | multiply (left right : Shape)
  | inverse (size : Nat)
  | determinant (size : Nat)
  | dot (count : Nat)
  | refract
  | label (label : Int)
  | branch (condition : BranchCondition) (label : Int)
  | invoke (call : HostCall)
  | trace (mark : TraceMark)
deriving DecidableEq, Repr, Inhabited

namespace Op

/-- The label a branch goes to. -/
def branchTarget? : Op → Option Int
  | branch _ target => some target
  | _ => none

/-- An unconditional branch. -/
def isJump : Op → Bool
  | branch .always _ => true
  | _ => false

/-- Net change of the depth of the stack an operation works on. -/
def stackUsage : Op → Int
  | pushConstant count _ | pushClone count _ | pushCloneFromStack count .. | pad count
  | pushCloneIndirect count .. => count
  | pushSlots _ range | pushIndirect _ range _ _ => range.count
  | pushMask _ => 1
  | pushInput _ => 4
  | popMask _ | popAndReenableLoop | mergeLoop => -1
  | popCoords => -2
  | popColor _ => -4
  | discard count | binary _ _ count | select count => -count
  | ternary _ _ count => -2 * count
  | swizzle consumed count _ | shuffle consumed count _ _ => count - consumed
  | diagonal shape => shape.size - 1
  | resize source target => target.size - source.size
  | multiply left right => right.columns * left.rows - (left.size + right.size)
  | determinant size => 1 - size * size
  | dot count => 1 - 2 * count
  | refract => -5
  | copyToSlots .. | copyToIndirect .. | swizzleToSlots .. | swizzleToIndirect .. | copySlots ..
  | zeroSlots _ | storeImmutable .. | initLaneMasks | mergeCondition _ | reenableLoop | maskOffLoop
  | maskOffReturn | continueLoop _ | matchCase _ | storeCoords _ | storeInput .. | loadColor ..
  | unary .. | binaryImm .. | transpose _ | inverse _ | label _ | branch .. | invoke _
  | trace _ => 0

end Op

/-- An operation and the stack it works on. -/
structure Instruction where
  op : Op
  stack : Int
deriving DecidableEq, Repr, Inhabited

end RasterShader
