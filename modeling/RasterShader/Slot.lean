/-!
# Slots

Storage of the pipeline is addressed in slots. A value slot holds one word per lane; uniform and
immutable slots hold one word that all lanes share.
-/

namespace RasterShader

/-- A run of consecutive slots. -/
structure SlotRange where
  index : Nat
  count : Nat
deriving DecidableEq, Repr, Inhabited

namespace SlotRange

/-- The first slot past the range. -/
def stop (range : SlotRange) : Nat := range.index + range.count

/-- `count` slots from `offset` slots into the range on. -/
def slice (range : SlotRange) (offset count : Nat) : SlotRange := ⟨range.index + offset, count⟩

/-- The two runs of slots have a slot in common. -/
def overlaps (a b : SlotRange) : Bool := a.index < b.stop && b.index < a.stop

end SlotRange

/-- The memory a slot belongs to. -/
inductive SlotSpace where
  | value
  | uniform
  | immutable
deriving DecidableEq, Repr, Inhabited

/-- The masks that decide which lanes execute. -/
inductive Mask where
  /-- Lanes for which the enclosing conditions hold. -/
  | condition
  /-- Lanes that have not left the enclosing loop or switch. -/
  | loop
  /-- Lanes that have not returned. -/
  | returns
deriving DecidableEq, Repr, Inhabited

/-- Color registers of the pipeline. -/
inductive ColorRegister where
  | src
  | dst
deriving DecidableEq, Repr, Inhabited

/-- Four-component values that are given to a program. -/
inductive Input where
  | color (register : ColorRegister)
  /-- Device coordinates, followed by 0 and 1. -/
  | device
deriving DecidableEq, Repr, Inhabited

/-- Columns and rows of a matrix. -/
structure Shape where
  columns : Nat
  rows : Nat
deriving DecidableEq, Repr, Inhabited

/-- Slots that a matrix occupies, column after column. -/
def Shape.size (shape : Shape) : Nat := shape.columns * shape.rows

end RasterShader
