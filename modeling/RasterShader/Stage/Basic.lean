import RasterShader.Instruction.Basic

/-!
# Stages

What a pipeline runs: operations like those of instructions, with every stack operand resolved to a
slot. Slot operands count from the first value slot, and the temporary stacks follow the slots of
variables.

A host may add stages of its own, which work on the color registers of all lanes
(`HostStage`).
-/

namespace RasterShader

/-- The four channels of a color. -/
structure Rgba (α : Type) where
  r : α
  g : α
  b : α
  a : α
deriving DecidableEq, Repr, Inhabited

namespace Rgba

/-- The same in every channel. -/
def splat {α : Type} (x : α) : Rgba α := ⟨x, x, x, x⟩

/-- Applies a function to every channel. -/
def map {α β : Type} (f : α → β) (c : Rgba α) : Rgba β := ⟨f c.r, f c.g, f c.b, f c.a⟩

/-- Combines two colors channel by channel. -/
def zipWith {α β γ : Type} (f : α → β → γ) (c : Rgba α) (d : Rgba β) : Rgba γ :=
  ⟨f c.r d.r, f c.g d.g, f c.b d.b, f c.a d.a⟩

/-- The channels in order. -/
def toList {α : Type} (c : Rgba α) : List α := [c.r, c.g, c.b, c.a]

end Rgba

/-- The color registers, with one word per lane in each channel. -/
structure Registers (lanes : Nat) where
  src : Rgba (Vector UInt32 lanes)
  dst : Rgba (Vector UInt32 lanes)

/-- A stage that a host supplies. -/
structure HostStage where
  name : String
  run : (lanes : Nat) → Registers lanes → Registers lanes

/-- A host stage that computes every lane's new source color from that lane's colors. -/
def HostStage.ofLane (name : String) (f : (src dst : Rgba UInt32) → Rgba UInt32) : HostStage where
  name
  run _ registers :=
    let colors := Vector.ofFn fun lane =>
      f (registers.src.map (·.get lane)) (registers.dst.map (·.get lane))
    { registers with src :=
        ⟨colors.map Rgba.r, colors.map Rgba.g, colors.map Rgba.b, colors.map Rgba.a⟩ }

/-- When a branch stage is taken. -/
inductive StageCondition where
  | always
  | allLanesActive
  | anyLanesActive
  | noLanesActive
  /-- No active lane has the given word in a slot. -/
  | noLanesEqual (slot : Nat) (value : UInt32)
deriving DecidableEq, Repr, Inhabited

/-- Stages. -/
inductive Stage where
  | initLaneMasks
  /-- Stores the first two components of the source color. -/
  | storeCoords (target : Nat)
  | storeInput (input : Input) (target : Nat)
  | loadColor (register : ColorRegister) (source : Nat)
  /-- Loads the first two components of the source color. -/
  | loadCoords (source : Nat)
  | storeMask (mask : Mask) (target : Nat)
  | loadMask (mask : Mask) (source : Nat)
  /-- The condition mask becomes the slot and the next one, or its complement. -/
  | mergeCondition (inverted : Bool) (source : Nat)
  | mergeLoop (source : Nat)
  | reenableLoop (source : Nat)
  | maskOffLoop
  | maskOffReturn
  | continueLoop (continueMask : Nat)
  /-- The slot holds the switch value, the next one the lanes not yet matched. -/
  | matchCase (base : Nat) (value : UInt32)
  | splat (target count : Nat) (value : UInt32)
  | zeroSlots (target count : Nat)
  | copySlots (target source count : Nat) (masked : Bool)
  | copyUniform (target source count : Nat)
  | copyImmutable (target source count : Nat)
  /-- Copies from the source moved by the word in the offset slot, such that it ends by the
  limit. -/
  | copyFromIndirect (target source count offset limit : Nat) (space : SlotSpace)
  | copyToIndirect (target source count offset limit : Nat)
  | swizzleCopy (target source : Nat) (components : List Nat)
  | swizzleCopyToIndirect (target source : Nat) (components : List Nat) (offset limit : Nat)
  /-- Replaces `consumed` slots by those with the given places among them. -/
  | swizzle (base consumed : Nat) (components : List Nat)
  | transpose (base : Nat) (shape : Shape)
  | diagonal (base : Nat) (shape : Shape)
  | resize (base : Nat) (source target : Shape)
  | multiply (base : Nat) (left right : Shape)
  | inverse (base size : Nat)
  | determinant (base size : Nat)
  | dot (base count : Nat)
  | refract (base : Nat)
  | unary (op : UnaryOp) (ty : NumType) (target count : Nat)
  | binary (op : BinaryOp) (ty : NumType) (target source count : Nat)
  | binaryImm (op : BinaryOp) (ty : NumType) (target count : Nat) (bits : UInt32)
  /-- Three operands one after the other; the result replaces the first. -/
  | ternary (op : TernaryOp) (ty : NumType) (base count : Nat)
  | select (target source count : Nat)
  /-- Goes `offset` stages on, or back. -/
  | branch (condition : StageCondition) (offset : Int)
  /-- For hosts that run every stage in a call of its own: returns from the calls so far. -/
  | stackRewind
  /-- For hosts whose own stages move the base of the slots: moves it back. -/
  | setBasePointer
  | host (stage : HostStage)
  | trace (mark : TraceMark)

namespace Stage

/-- A branch. -/
def isBranch : Stage → Bool
  | branch .. => true
  | _ => false

/-! ## Names -/

/-- Name of a stage that works on `count` numbers. -/
def countedNumbers (base : String) (count : Nat) (ty : String) : String :=
  if count = 1 then s!"{base}_{ty}"
  else if 2 ≤ count ∧ count ≤ 4 then s!"{base}_{count}_{ty}s"
  else s!"{base}_n_{ty}s"

/-- Name of a stage that works on `count` slots. -/
def countedSlots (base : String) (count : Nat) (suffix : String) : String :=
  if 1 ≤ count ∧ count ≤ 4 then s!"{base}_{count}_slots{suffix}" else s!"{base}_n_slots{suffix}"

/-- Name of a stage that has one spelling for a single item and one for several. -/
def countedItems (single : String) (base : String) (count : Nat) (suffix : String) : String :=
  if count = 1 then single
  else if 2 ≤ count ∧ count ≤ 4 then s!"{base}_{count}_{suffix}"
  else s!"{base}_n_{suffix}"

/-- Name of a mask in stage names. -/
def maskName : Mask → String
  | .condition => "condition_mask"
  | .loop => "loop_mask"
  | .returns => "return_mask"

/-- The name of a stage. -/
def name : Stage → String
  | initLaneMasks => "init_lane_masks"
  | storeCoords _ => "store_src_rg"
  | storeInput (.color .src) _ => "store_src"
  | storeInput (.color .dst) _ => "store_dst"
  | storeInput .device _ => "store_device_xy01"
  | loadColor .src _ => "load_src"
  | loadColor .dst _ => "load_dst"
  | loadCoords _ => "load_src_rg"
  | storeMask mask _ => "store_" ++ maskName mask
  | loadMask mask _ => "load_" ++ maskName mask
  | mergeCondition false _ => "merge_condition_mask"
  | mergeCondition true _ => "merge_inv_condition_mask"
  | mergeLoop _ => "merge_loop_mask"
  | reenableLoop _ => "reenable_loop_mask"
  | maskOffLoop => "mask_off_loop_mask"
  | maskOffReturn => "mask_off_return_mask"
  | continueLoop _ => "continue_op"
  | matchCase .. => "case_op"
  | splat _ count _ => countedItems "copy_constant" "splat" count "constants"
  | zeroSlots _ count => countedSlots "zero" count "_unmasked"
  | copySlots _ _ count masked =>
    countedSlots "copy" count (if masked then "_masked" else "_unmasked")
  | copyUniform _ _ count => countedItems "copy_uniform" "copy" count "uniforms"
  | copyImmutable _ _ count =>
    countedItems "copy_immutable_unmasked" "copy" count "immutables_unmasked"
  | copyFromIndirect _ _ _ _ _ .value => "copy_from_indirect_unmasked"
  | copyFromIndirect _ _ _ _ _ .uniform => "copy_from_indirect_uniform_unmasked"
  | copyFromIndirect _ _ _ _ _ .immutable => "copy_from_indirect_immutable_unmasked"
  | copyToIndirect .. => "copy_to_indirect_masked"
  | swizzleCopy _ _ components => countedSlots "swizzle_copy" components.length "_masked"
  | swizzleCopyToIndirect .. => "swizzle_copy_to_indirect_masked"
  | swizzle _ consumed components =>
    if consumed ≤ 4 ∧ components.length ≤ 4 then s!"swizzle_{components.length}" else "shuffle"
  | transpose .. => "transpose"
  | diagonal .. => "diagonal_matrix"
  | resize .. => "matrix_resize"
  | multiply _ left _ =>
    if left.columns = left.rows ∧ 2 ≤ left.columns ∧ left.columns ≤ 4 then
      s!"matrix_multiply_{left.columns}"
    else "matrix_multiply_n"
  | inverse _ size => s!"inverse_mat{size}"
  | determinant _ size => s!"determinant_mat{size}"
  | dot _ count => s!"dot_{count}_floats"
  | refract _ => "refract_4_floats"
  | unary op ty _ count => countedNumbers op.name count (op.typeName ty)
  | binary op ty _ _ count => countedNumbers op.name count ty.name
  | binaryImm op ty _ count _ => countedNumbers (op.name ++ "_imm") count ty.name
  | ternary op ty _ count => countedNumbers op.name count ty.name
  | select _ _ count => countedSlots "select" count "_masked"
  | branch .always _ => "jump"
  | branch .allLanesActive _ => "branch_if_all_lanes_active"
  | branch .anyLanesActive _ => "branch_if_any_lanes_active"
  | branch .noLanesActive _ => "branch_if_no_lanes_active"
  | branch (.noLanesEqual ..) _ => "branch_if_no_active_lanes_eq"
  | stackRewind => "stack_rewind"
  | setBasePointer => "set_base_pointer"
  | host stage => stage.name
  | trace (.line _) => "trace_line"
  | trace (.var _) => "trace_var"
  | trace (.enter _) => "trace_enter"
  | trace (.exit _) => "trace_exit"
  | trace (.scope _) => "trace_scope"

end Stage

end RasterShader
