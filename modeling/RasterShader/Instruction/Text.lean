import RasterShader.Arithmetic.Word
import RasterShader.Instruction.Basic

/-!
# Instructions as text

Every operation has a title, which errors name it by. An instruction is written as a row: the
title, two slots (a dash where there is none), four numbers, and the stack.
-/

namespace RasterShader

/-- Title of a number type. -/
def NumType.title : NumType → String
  | float => "Float"
  | int => "Int"
  | uint => "Uint"

/-- Title of an operation on one operand. -/
def UnaryOp.title : UnaryOp → String
  | abs => "Abs"
  | floor => "Floor"
  | ceil => "Ceil"
  | sin => "Sin"
  | cos => "Cos"
  | tan => "Tan"
  | asin => "Asin"
  | acos => "Acos"
  | atan => "Atan"
  | sqrt => "Sqrt"
  | exp => "Exp"
  | exp2 => "Exp2"
  | log => "Log"
  | log2 => "Log2"
  | invsqrt => "Invsqrt"
  | bitwiseNot => "BitwiseNot"
  | castToFloatFromInt => "CastToFloatFromInt"
  | castToFloatFromUint => "CastToFloatFromUint"
  | castToIntFromFloat => "CastToIntFromFloat"
  | castToUintFromFloat => "CastToUintFromFloat"

/-- Title of an operation on two operands. -/
def BinaryOp.title : BinaryOp → String
  | add => "Add"
  | sub => "Sub"
  | mul => "Mul"
  | div => "Div"
  | mod => "Mod"
  | min => "Min"
  | max => "Max"
  | cmpLt => "CmpLt"
  | cmpLe => "CmpLe"
  | cmpEq => "CmpEq"
  | cmpNe => "CmpNe"
  | bitwiseAnd => "BitwiseAnd"
  | bitwiseOr => "BitwiseOr"
  | bitwiseXor => "BitwiseXor"
  | atan2 => "Atan2"
  | pow => "Pow"

/-- Title of an operation on three operands. -/
def TernaryOp.title : TernaryOp → String
  | mix => "Mix"
  | smoothstep => "Smoothstep"

/-- Title of a mask. -/
def Mask.title : Mask → String
  | condition => "ConditionMask"
  | loop => "LoopMask"
  | returns => "ReturnMask"

namespace Op

/-- Title of an operation. -/
def title : Op → String
  | pushConstant .. => "PushConstant"
  | pushSlots .value _ => "PushSlots"
  | pushSlots .uniform _ => "PushUniform"
  | pushSlots .immutable _ => "PushImmutable"
  | pushIndirect .value .. => "PushSlotsIndirect"
  | pushIndirect .uniform .. => "PushUniformIndirect"
  | pushIndirect .immutable .. => "PushImmutableIndirect"
  | pushClone .. => "PushClone"
  | pushCloneFromStack .. => "PushCloneFromStack"
  | pushCloneIndirect .. => "PushCloneIndirectFromStack"
  | pushMask mask => "Push" ++ mask.title
  | pushInput (.color .src) => "PushSrcRgba"
  | pushInput (.color .dst) => "PushDstRgba"
  | pushInput .device => "PushDeviceXY01"
  | pad _ => "PadStack"
  | popMask mask => "Pop" ++ mask.title
  | popAndReenableLoop => "PopAndReenableLoopMask"
  | popCoords => "PopSrcRg"
  | popColor .src => "PopSrcRgba"
  | popColor .dst => "PopDstRgba"
  | discard _ => "DiscardStack"
  | copyToSlots true .. => "CopyStackToSlots"
  | copyToSlots false .. => "CopyStackToSlotsUnmasked"
  | copyToIndirect .. => "CopyStackToSlotsIndirect"
  | swizzleToSlots .. => "SwizzleCopyStackToSlots"
  | swizzleToIndirect .. => "SwizzleCopyStackToSlotsIndirect"
  | copySlots true .. => "CopySlotsMasked"
  | copySlots false .. => "CopySlotsUnmasked"
  | zeroSlots _ => "ZeroSlotsUnmasked"
  | storeImmutable .. => "StoreImmutableValue"
  | initLaneMasks => "InitLaneMasks"
  | mergeCondition false => "MergeConditionMask"
  | mergeCondition true => "MergeInvConditionMask"
  | mergeLoop => "MergeLoopMask"
  | reenableLoop => "ReenableLoopMask"
  | maskOffLoop => "MaskOffLoopMask"
  | maskOffReturn => "MaskOffReturnMask"
  | continueLoop _ => "ContinueOp"
  | matchCase _ => "CaseOp"
  | storeCoords _ => "StoreSrcRg"
  | storeInput (.color .src) _ => "StoreSrc"
  | storeInput (.color .dst) _ => "StoreDst"
  | storeInput .device _ => "StoreDeviceXY01"
  | loadColor .src _ => "LoadSrc"
  | loadColor .dst _ => "LoadDst"
  | unary op ty _ => s!"Unary({op.title}, {ty.title})"
  | binary op ty _ => s!"Binary({op.title}, {ty.title})"
  | binaryImm op ty .. => s!"BinaryImm({op.title}, {ty.title})"
  | ternary op ty _ => s!"Ternary({op.title}, {ty.title})"
  | select _ => "Select"
  | swizzle .. => "Swizzle"
  | shuffle .. => "Shuffle"
  | transpose _ => "Transpose"
  | diagonal _ => "DiagonalMatrix"
  | resize .. => "MatrixResize"
  | multiply .. => "MatrixMultiply"
  | inverse _ => "Inverse"
  | determinant _ => "Determinant"
  | dot _ => "Dot"
  | refract => "Refract4"
  | label _ => "Label"
  | branch .always _ => "Jump"
  | branch .allLanesActive _ => "BranchIfAllLanesActive"
  | branch .anyLanesActive _ => "BranchIfAnyLanesActive"
  | branch .noLanesActive _ => "BranchIfNoLanesActive"
  | branch (.noLanesEqual _) _ => "BranchIfNoActiveLanesOnStackTopEqual"
  | invoke (.child .shader _) => "InvokeShader"
  | invoke (.child .colorFilter _) => "InvokeColorFilter"
  | invoke (.child .blender _) => "InvokeBlender"
  | invoke .toLinearSrgb => "InvokeToLinearSrgb"
  | invoke .fromLinearSrgb => "InvokeFromLinearSrgb"
  | trace (.line _) => "TraceLine"
  | trace (.var _) => "TraceVar"
  | trace (.enter _) => "TraceEnter"
  | trace (.exit _) => "TraceExit"
  | trace (.scope _) => "TraceScope"

/-- The slots of an operation in the columns of a row. -/
def rowSlots : Op → List Nat
  | pushSlots _ range | copyToSlots _ range _ | zeroSlots range | storeCoords range
  | storeInput _ range | loadColor _ range | trace (.var range) => [range.index]
  | pushIndirect _ fixed _ limit | copyToIndirect fixed _ limit _ => [fixed.index, limit]
  | swizzleToSlots target .. => [target]
  | swizzleToIndirect target _ _ _ _ limit => [target, limit]
  | copySlots _ target source _ => [target, source]
  | storeImmutable slot _ => [slot]
  | binaryImm _ _ _ _ (some slot) => [slot]
  | _ => []

/-- The numbers of an operation in the columns of a row. Words are shown as signed integers. -/
def rowNumbers : Op → List Int
  | pushConstant count bits | binaryImm _ _ count bits _ => [count, Word.toInt bits]
  | pushSlots _ range | zeroSlots range | storeCoords range | storeInput _ range
  | loadColor _ range | trace (.var range) => [range.count]
  | pushIndirect _ fixed stack _ => [fixed.count, stack]
  | pushClone count distance => [count, distance]
  | pushCloneFromStack count stack distance => [count, stack, distance]
  | pushCloneIndirect count stack distance offset => [count, stack, distance, offset]
  | pad count | discard count | unary _ _ count | binary _ _ count | ternary _ _ count
  | select count | dot count | copySlots _ _ _ count => [count]
  | copyToSlots _ target distance => [target.count, distance]
  | copyToIndirect fixed stack _ distance => [fixed.count, stack, distance]
  | swizzleToSlots _ count packed distance => [count, Word.toInt packed, distance]
  | swizzleToIndirect _ count packed distance stack _ =>
    [count, Word.toInt packed, distance, stack]
  | storeImmutable _ bits => [Word.toInt bits]
  | continueLoop stack => [stack]
  | matchCase value => [Word.toInt value]
  | swizzle consumed count packed => [consumed, Word.toInt packed, count]
  | shuffle consumed count low high => [consumed, count, Word.toInt low, Word.toInt high]
  | transpose shape | diagonal shape => [shape.columns, shape.rows]
  | resize a b | multiply a b => [a.columns, a.rows, b.columns, b.rows]
  | inverse size | determinant size => [size]
  | label l => [l]
  | branch (.noLanesEqual value) l => [l, Word.toInt value]
  | branch _ l => [l]
  | invoke (.child _ index) => [index]
  | trace (.line n) | trace (.enter n) | trace (.exit n) => [n]
  | trace (.scope delta) => [delta]
  | _ => []

end Op

/-- An instruction as a row of text. -/
def Instruction.text (i : Instruction) : String :=
  let slot (k : Nat) := (i.op.rowSlots[k]?.map fun s => toString s).getD "-"
  let number (k : Nat) := toString (i.op.rowNumbers[k]?.getD 0)
  s!"{i.op.title} {slot 0} {slot 1} {number 0} {number 1} {number 2} {number 3} @{i.stack}"

end RasterShader
