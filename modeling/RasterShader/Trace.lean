import RasterShader.Ty.Basic

/-!
# Debug traces

When tracing is on, a program carries the names of its slots and functions (`DebugTrace`), and a run
records events (`TraceEvent`) for the first lane.
-/

namespace RasterShader

/-- How a traced slot is read. -/
inductive SlotKind where
  | float
  | signed
  | unsigned
  | boolean
deriving DecidableEq, Repr, Inhabited

/-- How slots of a number kind are read; what is no number is read as a float. -/
def SlotKind.ofNumberKind : NumberKind → SlotKind
  | .signed => .signed
  | .unsigned => .unsigned
  | .boolean => .boolean
  | .float | .nonnumeric => .float

/-- One scalar slot of a traced variable. -/
structure SlotInfo where
  name : String
  columns : Nat
  rows : Nat
  /-- Place within the vector or matrix. -/
  componentIndex : Nat
  /-- Place within the whole variable. -/
  groupIndex : Nat
  kind : SlotKind
  line : Nat
  /-- The function whose result the slot holds. -/
  resultOf : Option Nat
deriving DecidableEq, Repr, Inhabited

/-- The name of a slot, with its component if there are several. Scratch slots have none. -/
def SlotInfo.label? (info : SlotInfo) : Option String :=
  if info.name.isEmpty then none
  else if info.columns * info.rows ≤ 1 then some info.name
  else if 1 < info.rows then
    some s!"{info.name}[{info.componentIndex / info.rows}][{info.componentIndex % info.rows}]"
  else some s!"{info.name}[{info.componentIndex}]"

/-- Sorts of trace events. -/
inductive TraceKind where
  | line
  | var
  | enter
  | exit
  | scope
deriving DecidableEq, Repr, Inhabited

/-- A recorded event. Lines carry a line number, variables a slot and its bits, entries and exits
a function, and scopes a change of depth. -/
structure TraceEvent where
  kind : TraceKind
  first : Int
  second : Int
deriving DecidableEq, Repr, Inhabited

/-- Names for the parts of a traced program. -/
structure DebugTrace where
  slots : List SlotInfo
  uniforms : List SlotInfo
  /-- Signatures of functions. -/
  functions : List String
  events : List TraceEvent
deriving DecidableEq, Repr, Inhabited

namespace DebugTrace

/-- The name of a value slot. -/
def slotName? (trace : DebugTrace) (slot : Nat) : Option String :=
  trace.slots[slot]?.bind SlotInfo.label?

/-- The name of a uniform slot. -/
def uniformName? (trace : DebugTrace) (slot : Nat) : Option String :=
  trace.uniforms[slot]?.bind SlotInfo.label?

end DebugTrace

end RasterShader
