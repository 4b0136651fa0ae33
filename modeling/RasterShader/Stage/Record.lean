import RasterShader.Instruction.Text
import RasterShader.Stage.Basic

/-!
# Stages as records

A stage written out with the names of its operands, as in
`SplatConstant \x7b dst: 8, count: 1, value: 1065353216 \x7d`.
-/

namespace RasterShader

/-- A title with named operands. -/
structure Record where
  title : String
  operands : List (String × String)

namespace Record

/-- A record as text. -/
def text (record : Record) : String :=
  if record.operands.isEmpty then record.title
  else
    let operands := record.operands.map fun (name, value) => name ++ ": " ++ value
    record.title ++ " \x7b " ++ String.intercalate ", " operands ++ " \x7d"

end Record

namespace Stage

/-- A list of components. -/
def componentsText (components : List Nat) : String :=
  "[" ++ String.intercalate ", " (components.map toString) ++ "]"

/-- The dimensions of a matrix. -/
def shapeText (shape : Shape) : String := s!"({shape.columns}, {shape.rows})"

/-- Title of a memory. -/
def spaceTitle : SlotSpace → String
  | .value => "Value"
  | .uniform => "Uniform"
  | .immutable => "Immutable"

/-- The condition of a branch as a record. -/
def conditionRecord : StageCondition → Record
  | .always => ⟨"Jump", []⟩
  | .allLanesActive => ⟨"IfAllLanesActive", []⟩
  | .anyLanesActive => ⟨"IfAnyLanesActive", []⟩
  | .noLanesActive => ⟨"IfNoLanesActive", []⟩
  | .noLanesEqual slot value =>
    ⟨"IfNoActiveLanesEqual", [("slot", toString slot), ("value", toString (Word.toInt value))]⟩

/-- Operands that are all natural numbers. -/
def numbers (operands : List (String × Nat)) : List (String × String) :=
  operands.map fun (name, value) => (name, toString value)

/-- The stage as a record. -/
def record : Stage → Record
  | initLaneMasks => ⟨"InitLaneMasks", []⟩
  | storeCoords target => ⟨"StoreSrcRg", numbers [("dst", target)]⟩
  | storeInput (.color .src) target => ⟨"StoreSrc", numbers [("dst", target)]⟩
  | storeInput (.color .dst) target => ⟨"StoreDst", numbers [("dst", target)]⟩
  | storeInput .device target => ⟨"StoreDeviceXY01", numbers [("dst", target)]⟩
  | loadColor .src source => ⟨"LoadSrc", numbers [("src", source)]⟩
  | loadColor .dst source => ⟨"LoadDst", numbers [("src", source)]⟩
  | loadCoords source => ⟨"LoadSrcRg", numbers [("src", source)]⟩
  | storeMask mask target => ⟨"Store" ++ mask.title, numbers [("dst", target)]⟩
  | loadMask mask source => ⟨"Load" ++ mask.title, numbers [("src", source)]⟩
  | mergeCondition false source => ⟨"MergeConditionMask", numbers [("src", source)]⟩
  | mergeCondition true source => ⟨"MergeInvConditionMask", numbers [("src", source)]⟩
  | mergeLoop source => ⟨"MergeLoopMask", numbers [("src", source)]⟩
  | reenableLoop source => ⟨"ReenableLoopMask", numbers [("src", source)]⟩
  | maskOffLoop => ⟨"MaskOffLoopMask", []⟩
  | maskOffReturn => ⟨"MaskOffReturnMask", []⟩
  | continueLoop continueMask => ⟨"ContinueOp", numbers [("continue_mask", continueMask)]⟩
  | matchCase base value =>
    ⟨"CaseOp", [("base", toString base), ("value", toString (Word.toInt value))]⟩
  | splat target count value =>
    ⟨"SplatConstant", numbers [("dst", target), ("count", count), ("value", value.toNat)]⟩
  | zeroSlots target count => ⟨"ZeroSlots", numbers [("dst", target), ("count", count)]⟩
  | copySlots target source count masked =>
    ⟨"CopySlots", numbers [("dst", target), ("src", source), ("count", count)] ++
      [("masked", if masked then "true" else "false")]⟩
  | copyUniform target source count =>
    ⟨"CopyUniform", numbers [("dst", target), ("src", source), ("count", count)]⟩
  | copyImmutable target source count =>
    ⟨"CopyImmutable", numbers [("dst", target), ("src", source), ("count", count)]⟩
  | copyFromIndirect target source count offset limit space =>
    ⟨"CopyFromIndirect", numbers [("dst", target), ("src", source), ("count", count),
      ("offset", offset), ("limit", limit)] ++ [("space", spaceTitle space)]⟩
  | copyToIndirect target source count offset limit =>
    ⟨"CopyToIndirectMasked", numbers [("dst", target), ("src", source), ("count", count),
      ("offset", offset), ("limit", limit)]⟩
  | swizzleCopy target source components =>
    ⟨"SwizzleCopySlotsMasked", numbers [("dst", target), ("src", source)] ++
      [("components", componentsText components)]⟩
  | swizzleCopyToIndirect target source components offset limit =>
    ⟨"SwizzleCopyToIndirectMasked", numbers [("dst", target), ("src", source)] ++
      [("components", componentsText components)] ++ numbers [("offset", offset), ("limit", limit)]⟩
  | swizzle base consumed components =>
    ⟨"Swizzle", numbers [("base", base), ("consumed", consumed)] ++
      [("components", componentsText components)]⟩
  | transpose base shape =>
    ⟨"Transpose", numbers [("base", base), ("columns", shape.columns), ("rows", shape.rows)]⟩
  | diagonal base shape =>
    ⟨"DiagonalMatrix", numbers [("base", base), ("columns", shape.columns), ("rows", shape.rows)]⟩
  | resize base source target =>
    ⟨"MatrixResize", [("base", toString base), ("from", shapeText source),
      ("to", shapeText target)]⟩
  | multiply base left right =>
    ⟨"MatrixMultiply", [("base", toString base), ("left", shapeText left),
      ("right", shapeText right)]⟩
  | inverse base size => ⟨"Inverse", numbers [("base", base), ("size", size)]⟩
  | determinant base size => ⟨"Determinant", numbers [("base", base), ("size", size)]⟩
  | dot base count => ⟨"Dot", numbers [("base", base), ("count", count)]⟩
  | refract base => ⟨"Refract4", numbers [("base", base)]⟩
  | unary op ty target count =>
    ⟨"Unary", [("op", op.title), ("ty", ty.title)] ++ numbers [("dst", target), ("count", count)]⟩
  | binary op ty target source count =>
    ⟨"Binary", [("op", op.title), ("ty", ty.title)] ++
      numbers [("dst", target), ("src", source), ("count", count)]⟩
  | binaryImm op ty target count bits =>
    ⟨"BinaryImm", [("op", op.title), ("ty", ty.title)] ++
      numbers [("dst", target), ("count", count), ("imm", bits.toNat)]⟩
  | ternary op ty base count =>
    ⟨"Ternary", [("op", op.title), ("ty", ty.title)] ++ numbers [("base", base), ("count", count)]⟩
  | select target source count =>
    ⟨"Select", numbers [("dst", target), ("src", source), ("count", count)]⟩
  | branch condition offset =>
    ⟨"Branch", [("kind", (conditionRecord condition).text), ("offset", toString offset)]⟩
  | stackRewind => ⟨"StackRewind", []⟩
  | setBasePointer => ⟨"SetBasePointer", []⟩
  | host stage => ⟨s!"Host(HostStage \x7b name: \"{stage.name}\" \x7d)", []⟩
  | trace (.line number) => ⟨"TraceLine", [("line", toString number)]⟩
  | trace (.var range) => ⟨"TraceVar", numbers [("slot", range.index), ("count", range.count)]⟩
  | trace (.enter function) => ⟨"TraceEnter", [("function", toString function)]⟩
  | trace (.exit function) => ⟨"TraceExit", [("function", toString function)]⟩
  | trace (.scope delta) => ⟨"TraceScope", [("delta", toString delta)]⟩

end Stage

end RasterShader
