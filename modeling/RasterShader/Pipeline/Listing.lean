import RasterShader.Decimal.General
import RasterShader.Pipeline.Lowering

/-!
# Listings

The stages of a pipeline as text, one per line: a number, the name of the stage, and its operands.
Value slots are called `v` with a number, or by the name that a trace gives them, and slots of the
temporary stacks `$` with a number. Branches tell the label and the line they go to.
-/

namespace RasterShader

/-- A word in a listing, with the number it stands for if that is finite. -/
def constantText (bits : UInt32) : String :=
  match generalText? bits with
  | some number => s!"0x{Word.hex bits} ({number})"
  | none => s!"0x{Word.hex bits}"

/-- Components in a listing: letters, or numbers if there are more than four. -/
def swizzleText (components : List Nat) : String :=
  if components.all (· < 4) then
    String.ofList (components.map fun c => (['x', 'y', 'z', 'w'][c]?).getD 'w')
  else "(" ++ String.intercalate ", " (components.map toString) ++ ")"

/-- A number with its sign. -/
def signedText (n : Int) : String := if n < 0 then toString n else s!"+{n}"

/-- A host whose stages do nothing but tell what they stand for. -/
def Host.listing : Host :=
  let named (name : String) : List Stage := [.host ⟨name, fun _ registers => registers⟩]
  { child := fun kind index =>
      match kind with
      | .shader => some (named s!"invoke_shader {index}")
      | .colorFilter => some (named s!"invoke_color_filter {index}")
      | .blender => some (named s!"invoke_blender {index}")
    toLinearSrgb := named "invoke_to_linear_srgb"
    fromLinearSrgb := named "invoke_from_linear_srgb" }

namespace Pipeline

/-- Slots of shared memory in a listing. -/
def sharedText (letter : String) (start count : Nat) : String :=
  if count = 1 then s!"{letter}{start}" else s!"{letter}{start}..{start + count - 1}"

/-- Value slots in a listing. -/
def valueText (pipeline : Pipeline) (start count : Nat) : String :=
  let last := start + count - 1
  if pipeline.valueSlots ≤ start then
    sharedText "$" (start - pipeline.valueSlots) count
  else
    match pipeline.debugTrace.bind (·.slotName? start) with
    | some first =>
      if count = 1 then first
      else first ++ ".." ++ ((pipeline.debugTrace.bind (·.slotName? last)).getD s!"v{last}")
    | none => sharedText "v" start count

/-- Slots of one of the memories in a listing. -/
def slotsText (pipeline : Pipeline) : SlotSpace → (start count : Nat) → String
  | .value => pipeline.valueText
  | .uniform => sharedText "u"
  | .immutable => sharedText "i"

/-- Name of a mask in a listing. -/
def maskText : Mask → String
  | .condition => "CondMask"
  | .loop => "LoopMask"
  | .returns => "RetMask"

/-- Operands of a stage in a listing. -/
def operandsText (pipeline : Pipeline) (stage : Stage) : String :=
  let v := pipeline.valueText
  match stage with
  | .storeCoords target => s!"{v target 2} = src.rg"
  | .storeInput (.color .src) target => s!"{v target 4} = src.rgba"
  | .storeInput (.color .dst) target => s!"{v target 4} = dst.rgba"
  | .storeInput .device target => s!"{v target 4} = DeviceCoords.xy01"
  | .loadColor .src source => s!"src.rgba = {v source 4}"
  | .loadColor .dst source => s!"dst.rgba = {v source 4}"
  | .loadCoords source => s!"src.rg = {v source 2}"
  | .storeMask mask target => s!"{v target 1} = {maskText mask}"
  | .loadMask mask source => s!"{maskText mask} = {v source 1}"
  | .mergeCondition false source => s!"CondMask = {v source 1} & {v (source + 1) 1}"
  | .mergeCondition true source => s!"CondMask = {v source 1} & ~{v (source + 1) 1}"
  | .mergeLoop source => s!"LoopMask &= {v source 1}"
  | .reenableLoop source => s!"LoopMask |= {v source 1}"
  | .continueLoop continueMask => s!"{v continueMask 1} |= ExecMask"
  | .matchCase base value => s!"{v base 1} == {Word.toInt value}, default {v (base + 1) 1}"
  | .splat target count value => s!"{v target count} = {constantText value}"
  | .zeroSlots target count => s!"{v target count} = 0"
  | .copySlots target source count _ => s!"{v target count} = {v source count}"
  | .copyUniform target source count =>
    s!"{v target count} = {pipeline.slotsText .uniform source count}"
  | .copyImmutable target source count =>
    s!"{v target count} = {pipeline.slotsText .immutable source count}"
  | .copyFromIndirect target source count offset _ space =>
    s!"{v target count} = Indirect({pipeline.slotsText space source count} + {v offset 1})"
  | .copyToIndirect target source count offset _ =>
    s!"Indirect({v target count} + {v offset 1}) = {v source count}"
  | .swizzleCopy target source components =>
    s!"{v target 1}.{swizzleText components} = {v source components.length}"
  | .swizzleCopyToIndirect target source components offset _ =>
    s!"Indirect({v target 1} + {v offset 1}).{swizzleText components} = " ++
      v source components.length
  | .swizzle base consumed components =>
    s!"{v base components.length} = ({v base consumed}).{swizzleText components}"
  | .transpose base shape => v base shape.size
  | .diagonal base shape => s!"{v base shape.size} = diag({v base 1})"
  | .resize base _ target => v base target.size
  | .multiply base left right =>
    s!"{v base (right.columns * left.rows)} = {v base left.size} * " ++
      v (base + left.size) right.size
  | .inverse base size | .determinant base size => v base (size * size)
  | .dot base count => s!"{v base 1} = dot({v base count}, {v (base + count) count})"
  | .refract base => v base 9
  | .unary _ _ target count => v target count
  | .binary _ _ target source count => s!"{v target count}, {v source count}"
  | .binaryImm _ _ target count bits => s!"{v target count}, {constantText bits}"
  | .ternary _ _ base count =>
    s!"{v base count}, {v (base + count) count}, {v (base + 2 * count) count}"
  | .select target source count => s!"{v target count} = Mask({v source count})"
  | .branch (.noLanesEqual slot value) offset =>
    s!"{signedText offset} if no lanes of {v slot 1} == 0x{Word.hex value}"
  | .branch _ offset => signedText offset
  | .trace (.line number) => s!"line {number}"
  | .trace (.var range) => v range.index range.count
  | .trace (.enter function) | .trace (.exit function) => s!"function {function}"
  | .trace (.scope delta) => signedText delta
  | .initLaneMasks | .maskOffLoop | .maskOffReturn | .stackRewind | .setBasePointer
  | .host _ => ""

/-- Widest name of a stage in a listing. -/
def nameWidth : Nat := 30

/-- Text filled up with blanks in front. -/
def padLeft (width : Nat) (text : String) : String :=
  String.ofList (List.replicate (width - text.length) ' ') ++ text

/-- Text filled up with blanks at the end. -/
def padRight (width : Nat) (text : String) : String :=
  text ++ String.ofList (List.replicate (width - text.length) ' ')

/-- Text without the blanks at its end. -/
def trimRight (text : String) : String :=
  String.ofList (text.toList.reverse.dropWhile (· = ' ')).reverse

/-- A line of a listing. -/
def lineText (pipeline : Pipeline) (place : Nat) (stage : Stage) (label : Option Int) : String :=
  let target :=
    match stage, label with
    | .branch _ offset, some label => s!" (label {label} at #{place + offset + 1})"
    | _, _ => ""
  let name := String.ofList (stage.name.toList.take nameWidth)
  let start := s!"{padLeft 5 (toString (place + 1))}. {padRight nameWidth name} "
  trimRight (start ++ pipeline.operandsText stage ++ target)

/-- The lines of the listing of the lowered stages. -/
def listing (pipeline : Pipeline) : List String :=
  match pipeline.lower (some .listing) false with
  | .ok lowered =>
    (lowered.stages.toList.zip lowered.labels.toList).zipIdx.map fun ((stage, label), place) =>
      pipeline.lineText place stage label
  | .error e => [s!"<unable to lower program: Pipeline lowering error: {e.message}>"]

end Pipeline

end RasterShader
