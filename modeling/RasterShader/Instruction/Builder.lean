import RasterShader.Arithmetic.Word
import RasterShader.Instruction.Basic

/-!
# Emitting instructions

A `Builder` holds the instructions emitted so far. Each call looks at the latest of them that are on
the same stack, and replaces them where something cheaper does the same: neighbouring pushes join,
a discarded push disappears, a constant operand becomes an immediate, a value that is pushed only
to be stored is copied directly. Branches to the next instruction and code that no path reaches
are dropped.

Code is kept as a list with the latest instruction first (`Code`), so that what a call looks at is
at the front. The replacements are functions on code; the calls are functions on builders.
-/

namespace RasterShader

/-- Instructions, the latest first. -/
abbrev Code := List Instruction

namespace Code

/-! ## Joining with what was emitted last -/

/-- Pushes a word several times, joining a push of the same word. -/
def pushConstant (stack : Int) (count : Nat) (bits : UInt32) : Code → Code
  | ⟨.pushConstant n b, s⟩ :: rest =>
    if s = stack ∧ b = bits then ⟨.pushConstant (n + count) bits, stack⟩ :: rest
    else ⟨.pushConstant count bits, stack⟩ :: ⟨.pushConstant n b, s⟩ :: rest
  | code => ⟨.pushConstant count bits, stack⟩ :: code

/-- Pushes slots, joining a push of the slots just before them. -/
def pushSlots (stack : Int) (space : SlotSpace) (range : SlotRange) : Code → Code
  | ⟨.pushSlots p r, s⟩ :: rest =>
    if s = stack ∧ p = space ∧ r.stop = range.index then
      ⟨.pushSlots space ⟨r.index, r.count + range.count⟩, stack⟩ :: rest
    else ⟨.pushSlots space range, stack⟩ :: ⟨.pushSlots p r, s⟩ :: rest
  | code => ⟨.pushSlots space range, stack⟩ :: code

/-- Copies slots, joining a copy that ends where this one begins. -/
def copySlots (stack : Int) (target source count : Nat) : Code → Code
  | ⟨.copySlots false t r n, s⟩ :: rest =>
    if s = stack ∧ t + n = target ∧ r + n = source then
      ⟨.copySlots false t r (n + count), stack⟩ :: rest
    else ⟨.copySlots false target source count, stack⟩ :: ⟨.copySlots false t r n, s⟩ :: rest
  | code => ⟨.copySlots false target source count, stack⟩ :: code

/-- Clears slots, joining a clearing of the slots just before them. -/
def zeroSlots (stack : Int) (range : SlotRange) : Code → Code
  | ⟨.zeroSlots r, s⟩ :: rest =>
    if s = stack ∧ r.stop = range.index then
      ⟨.zeroSlots ⟨r.index, r.count + range.count⟩, stack⟩ :: rest
    else ⟨.zeroSlots range, stack⟩ :: ⟨.zeroSlots r, s⟩ :: rest
  | code => ⟨.zeroSlots range, stack⟩ :: code

/-- Pushes a mask. If it was popped just before, its word is still above the top. -/
def pushMask (stack : Int) (mask : Mask) : Code → Code
  | ⟨.popMask m, s⟩ :: rest =>
    if s = stack ∧ m = mask then ⟨.pad 1, stack⟩ :: ⟨.popMask m, s⟩ :: rest
    else ⟨.pushMask mask, stack⟩ :: ⟨.popMask m, s⟩ :: rest
  | code => ⟨.pushMask mask, stack⟩ :: code

/-! ## Discarding -/

/-- A push whose topmost words may be left out: how many it pushes, and the push of so many. -/
def trimmable? : Op → Option (Nat × (Nat → Op))
  | .pushConstant count bits => some (count, fun n => .pushConstant n bits)
  | .pushSlots space range => some (range.count, fun n => .pushSlots space ⟨range.index, n⟩)
  | .pushClone count distance => some (count, fun n => .pushClone n distance)
  | .pushCloneFromStack count stack distance =>
    some (count, fun n => .pushCloneFromStack n stack distance)
  | .pad count => some (count, .pad)
  | _ => none

/-- An operation that only changes words on top of the stack, in place: how many. -/
def inPlace? : Op → Option Nat
  | .unary _ _ count => some count
  | .binaryImm _ _ count _ none => some count
  | _ => none

/-- The code that stores a just computed value to slots when nothing else needs the value: a push
of slots becomes a copy between slots, and an immediate operation on those same slots runs on them
in place. A copy between slots that overlap would read what it has written, so there the value has
to stay on the stack. -/
def storeDirectly? (stack : Int) (target : SlotRange) : Code → Option Code
  | ⟨.pushSlots .value source, s⟩ :: rest =>
    if s = stack ∧ source.count = target.count then
      if source.index = target.index then some rest
      else if source.overlaps target then none
      else some (copySlots stack target.index source.index target.count rest)
    else none
  | ⟨.binaryImm op ty count bits none, s⟩ :: ⟨.pushSlots .value source, s'⟩ :: rest =>
    if s = stack ∧ s' = stack ∧ count = target.count ∧ source = target then
      some (⟨.binaryImm op ty count bits (some target.index), s⟩ :: rest)
    else none
  | _ => none

/-- Copying slots adds at most one instruction. -/
theorem length_copySlots_le (stack : Int) (target source count : Nat) (code : Code) :
    (copySlots stack target source count code).length ≤ code.length + 1 := by
  fun_cases copySlots stack target source count code <;> simp

/-- Storing directly does not lengthen the code before the store. -/
theorem length_storeDirectly?_le {stack : Int} {target : SlotRange} {code code' : Code}
    (h : storeDirectly? stack target code = some code') : code'.length ≤ code.length := by
  unfold storeDirectly? at h
  grind [length_copySlots_le]

/-- Discards words from the top of the stack, taking back what only served to compute them. -/
def discard (stack : Int) (count : Nat) (code : Code) : Code :=
  if count = 0 then code
  else
    match code with
    | [] => [⟨.discard count, stack⟩]
    | i :: rest =>
      if i.stack ≠ stack then ⟨.discard count, stack⟩ :: i :: rest
      else
        match i.op, trimmable? i.op, inPlace? i.op with
        | .discard n, _, _ => ⟨.discard (n + count), stack⟩ :: rest
        | _, some (n, push), _ =>
          if n ≤ count then discard stack (count - n) rest else ⟨push (n - count), stack⟩ :: rest
        | _, _, some n =>
          if n ≤ count then discard stack count rest
          else ⟨.discard count, stack⟩ :: i :: rest
        | .copyToSlots false target distance, _, _ =>
          if distance = target.count ∧ target.count ≤ count then
            match _h : storeDirectly? stack target rest with
            | some code' => discard stack (count - target.count) code'
            | none => ⟨.discard count, stack⟩ :: i :: rest
          else ⟨.discard count, stack⟩ :: i :: rest
        | _, _, _ => ⟨.discard count, stack⟩ :: i :: rest
termination_by code.length
decreasing_by
  · exact Nat.lt_succ_self rest.length
  · exact Nat.lt_succ_self rest.length
  · exact Nat.lt_succ_of_le (length_storeDirectly?_le _h)

/-! ## Immediates -/

/-- The constant that added gives what `bits` subtracted does. -/
def negated (ty : NumType) (bits : UInt32) : UInt32 :=
  match ty with
  | .float => Word.fneg bits
  | .int | .uint => 0 - bits

/-- The immediate form of an operation. Subtraction adds the negated constant. -/
def immediate (op : BinaryOp) (ty : NumType) (count : Nat) (bits : UInt32) : Op :=
  match op with
  | .sub => .binaryImm .add ty count (negated ty bits) none
  | op => .binaryImm op ty count bits none

/-- A push of `n` constants without its topmost `count`. -/
def dropConstants (stack : Int) (n count : Nat) (bits : UInt32) (rest : Code) : Code :=
  if n = count then rest else ⟨.pushConstant (n - count) bits, stack⟩ :: rest

/-- A float constant whose sign and payload the order of operands would decide. -/
def isOrderSensitive (ty : NumType) (bits : UInt32) : Bool := ty == .float && Word.isNaN bits

/-- The code of an operation one of whose operands is a constant that was just pushed: the right
one, or the left one if the operation is commutative and slots were pushed after it. -/
def foldImmediate? (stack : Int) (op : BinaryOp) (ty : NumType) (count : Nat) : Code → Option Code
  | ⟨.pushConstant n bits, s⟩ :: rest =>
    if s = stack ∧ count ≤ n ∧ !(isOrderSensitive ty bits && op == .sub) then
      some (⟨immediate op ty count bits, stack⟩ :: dropConstants stack n count bits rest)
    else none
  | ⟨.pushSlots space range, s⟩ :: ⟨.pushConstant n bits, s'⟩ :: rest =>
    if s = stack ∧ s' = stack ∧ op.isCommutative ∧ range.count = count ∧ count ≤ n ∧
        !isOrderSensitive ty bits then
      some (⟨immediate op ty count bits, stack⟩ :: ⟨.pushSlots space range, s⟩ ::
        dropConstants stack n count bits rest)
    else none
  | _ => none

/-! ## Swizzles -/

/-- Leaves the leading components that stay where they are out of a swizzle: the words it consumes
and the components that remain. -/
def trimIdentity (consumed : Nat) (components : List Nat) : Nat × List Nat :=
  match components with
  | 0 :: rest =>
    if rest.contains 0 then (consumed, components)
    else trimIdentity (consumed - 1) (rest.map (· - 1))
  | _ => (consumed, components)
termination_by components.length

/-- The operation that replaces `consumed` words by the chosen ones. -/
def selection (consumed : Nat) (components : List Nat) : Op :=
  if consumed ≤ 4 ∧ components.length ≤ 4 then
    .swizzle consumed components.length (packNybbles components)
  else
    .shuffle consumed components.length (packNybbles components) (packNybbles (components.drop 8))

/-! ## Branches -/

/-- Code before a label, without the branches that go there anyway. -/
def withoutBranchesTo (label : Int) (code : Code) : Code :=
  code.dropWhile fun i => i.op.branchTarget? == some label

/-- Code before a jump, without the conditional branches to the same place. -/
def withoutConditionalsTo (label : Int) (code : Code) : Code :=
  code.dropWhile fun i => !i.op.isJump && i.op.branchTarget? == some label

/-- The last instruction jumps away, so that what follows is reached through a label only. -/
def endsInJump : Code → Bool
  | i :: _ => i.op.isJump
  | [] => false

end Code

/-- The instructions emitted so far and the state of emission. -/
structure Builder where
  code : Code
  /-- The stack that calls work on. -/
  stack : Int
  labelCount : Nat
  /-- Nesting of constructs in which lanes may be inactive, so that stores have to be masked. -/
  maskDepth : Nat
deriving Inhabited

namespace Builder

/-- No instructions. -/
def empty : Builder := ⟨[], 0, 0, 0⟩

/-- The instructions in order. -/
def instructions (b : Builder) : List Instruction := b.code.reverse

/-- Emits an operation on the current stack. -/
def emit (b : Builder) (op : Op) : Builder := { b with code := ⟨op, b.stack⟩ :: b.code }

/-- Emits an operation on `count` words, unless there are none. -/
def emitCounted (b : Builder) (count : Nat) (op : Op) : Builder :=
  if count = 0 then b else b.emit op

/-- A label that has not been used. -/
def nextLabel (b : Builder) : Int × Builder :=
  (b.labelCount, { b with labelCount := b.labelCount + 1 })

/-- Works on another stack. -/
def setStack (b : Builder) (stack : Int) : Builder := { b with stack }

/-- Enters a construct in which lanes may be inactive. -/
def enableMaskWrites (b : Builder) : Builder := { b with maskDepth := b.maskDepth + 1 }

/-- Leaves such a construct. -/
def disableMaskWrites (b : Builder) : Builder := { b with maskDepth := b.maskDepth - 1 }

/-- Stores have to be masked. -/
def maskWritesEnabled (b : Builder) : Bool := 0 < b.maskDepth

/-! ## Control flow -/

/-- Places a label. -/
def label (b : Builder) (label : Int) : Builder :=
  { b with code := ⟨.label label, b.stack⟩ :: b.code.withoutBranchesTo label }

/-- Branches unconditionally. -/
def jump (b : Builder) (label : Int) : Builder :=
  if b.code.endsInJump then b
  else { b with code := ⟨.branch .always label, b.stack⟩ :: b.code.withoutConditionalsTo label }

/-- Branches under a condition. -/
def branch (b : Builder) (condition : BranchCondition) (label : Int) : Builder :=
  if b.code.endsInJump then b else b.emit (.branch condition label)

/-! ## Pushes -/

/-- Pushes a word several times. -/
def pushConstant (b : Builder) (bits : UInt32) (count : Nat) : Builder :=
  if count = 0 then b else { b with code := b.code.pushConstant b.stack count bits }

/-- Pushes zeros. -/
def pushZeros (b : Builder) (count : Nat) : Builder := b.pushConstant 0 count

/-- Pushes slots of one of the memories. -/
def pushSlots (b : Builder) (space : SlotSpace) (range : SlotRange) : Builder :=
  if range.count = 0 then b else { b with code := b.code.pushSlots b.stack space range }

/-- Pushes slots at an offset that is on top of another stack. -/
def pushIndirect (b : Builder) (space : SlotSpace) (fixed : SlotRange) (offsetStack : Int)
    (limit : Nat) : Builder :=
  b.emit (.pushIndirect space fixed offsetStack limit)

/-- Pushes a copy of words of the stack. -/
def pushClone (b : Builder) (count distance : Nat) : Builder :=
  b.emitCounted count (.pushClone count distance)

/-- Pushes a copy of words of another stack. -/
def pushCloneFromStack (b : Builder) (count : Nat) (stack : Int) (distance : Nat) : Builder :=
  b.emitCounted count (.pushCloneFromStack count stack distance)

/-- Pushes a copy of words of another stack at an offset that is on top of a third one. -/
def pushCloneIndirect (b : Builder) (count : Nat) (stack : Int) (distance : Nat)
    (offsetStack : Int) : Builder :=
  b.emit (.pushCloneIndirect count stack distance offsetStack)

/-- Pushes a mask. -/
def pushMask (b : Builder) (mask : Mask) : Builder :=
  { b with code := b.code.pushMask b.stack mask }

/-- Pushes an input. -/
def pushInput (b : Builder) (input : Input) : Builder := b.emit (.pushInput input)

/-- Raises the top over words that are still there. -/
def pad (b : Builder) (count : Nat) : Builder := b.emitCounted count (.pad count)

/-! ## Pops and stores -/

/-- Pops a mask. -/
def popMask (b : Builder) (mask : Mask) : Builder := b.emit (.popMask mask)

/-- Pops a color. -/
def popColor (b : Builder) (register : ColorRegister) : Builder := b.emit (.popColor register)

/-- Discards words. -/
def discard (b : Builder) (count : Nat) : Builder :=
  { b with code := b.code.discard b.stack count }

/-- Copies words to slots in all lanes. -/
def copyToSlotsUnmasked (b : Builder) (target : SlotRange) (distance : Nat) : Builder :=
  b.emitCounted target.count (.copyToSlots false target distance)

/-- Copies words to slots, in active lanes where lanes may be inactive. -/
def copyToSlots (b : Builder) (target : SlotRange) (distance : Nat) : Builder :=
  if b.maskWritesEnabled then b.emitCounted target.count (.copyToSlots true target distance)
  else b.copyToSlotsUnmasked target distance

/-- Copies words to slots at an offset that is on top of another stack. -/
def copyToIndirect (b : Builder) (fixed : SlotRange) (offsetStack : Int) (limit distance : Nat) :
    Builder :=
  b.emit (.copyToIndirect fixed offsetStack limit distance)

/-- Scatters words to components of slots. -/
def swizzleToSlots (b : Builder) (target : SlotRange) (components : List Nat) (distance : Nat) :
    Builder :=
  b.emit (.swizzleToSlots target.index components.length (packNybbles components) distance)

/-- Scatters words to components of slots at an offset that is on top of another stack. -/
def swizzleToIndirect (b : Builder) (fixed : SlotRange) (offsetStack : Int) (limit : Nat)
    (components : List Nat) (distance : Nat) : Builder :=
  b.emit (.swizzleToIndirect fixed.index components.length (packNybbles components) distance
    offsetStack limit)

/-- Pops words to slots, in active lanes where lanes may be inactive. -/
def popSlots (b : Builder) (target : SlotRange) : Builder :=
  (b.copyToSlots target target.count).discard target.count

/-- Pops words to slots at an offset that is on top of another stack. -/
def popSlotsIndirect (b : Builder) (fixed : SlotRange) (offsetStack : Int) (limit : Nat) :
    Builder :=
  (b.copyToIndirect fixed offsetStack limit fixed.count).discard fixed.count

/-- Pops words to slots in all lanes. -/
def popSlotsUnmasked (b : Builder) (target : SlotRange) : Builder :=
  (b.copyToSlotsUnmasked target target.count).discard target.count

/-- Copies slots to slots in active lanes. -/
def copySlotsMasked (b : Builder) (target source count : Nat) : Builder :=
  b.emitCounted count (.copySlots true target source count)

/-- Copies slots to slots in all lanes. -/
def copySlotsUnmasked (b : Builder) (target source count : Nat) : Builder :=
  if count = 0 then b else { b with code := b.code.copySlots b.stack target source count }

/-- Clears slots in all lanes. -/
def zeroSlots (b : Builder) (range : SlotRange) : Builder :=
  if range.count = 0 then b else { b with code := b.code.zeroSlots b.stack range }

/-! ## Arithmetic -/

/-- Applies an operation to one operand. -/
def unary (b : Builder) (op : UnaryOp) (ty : NumType) (count : Nat) : Builder :=
  b.emitCounted count (.unary op ty count)

/-- Applies an operation to two operands. -/
def binary (b : Builder) (op : BinaryOp) (ty : NumType) (count : Nat) : Builder :=
  let ty := op.canonicalType ty
  let folded :=
    if op.hasImmediateForm ty then b.code.foldImmediate? b.stack op ty count else none
  if count = 0 then b
  else
    match folded with
    | some code => { b with code }
    | none => b.emit (.binary op ty count)

/-- Applies an operation to three operands. -/
def ternary (b : Builder) (op : TernaryOp) (ty : NumType) (count : Nat) : Builder :=
  b.emitCounted count (.ternary op ty count)

/-- Replaces the first of two operands by the second in active lanes. -/
def select (b : Builder) (count : Nat) : Builder := b.emitCounted count (.select count)

/-- Replaces `consumed` words by those with the given places among them. -/
def swizzle (b : Builder) (consumed : Nat) (components : List Nat) : Builder :=
  match Code.trimIdentity consumed components with
  | (consumed, []) => b.discard consumed
  | (consumed, components) => b.emit (Code.selection consumed components)

/-- Repeats the top word `count` more times. -/
def pushDuplicates (b : Builder) (count : Nat) : Builder :=
  if count = 0 then b
  else
    (b.swizzle 1 (List.replicate (min count 15 + 1) 0)).pushDuplicates (count - min count 15)
termination_by count

/-! ## Traces -/

/-- Tells the values of slots. -/
def traceVar (b : Builder) (range : SlotRange) : Builder :=
  b.emitCounted range.count (.trace (.var range))

end Builder

end RasterShader
