import RasterShader.Json.Printer
import RasterShader.Json.Reader
import RasterShader.Trace

/-!
# Debug traces as JSON

A debug trace is written as a record of four lists (`DebugTrace.text`) and read back from one
(`DebugTrace.read?`). Counts and places are natural numbers of 64 bits, and event data are integers
of 32 bits.
-/

namespace RasterShader

/-! ## Names -/

/-- The names of the ways to read a slot. -/
def SlotKind.named : List (String × SlotKind) :=
  [("Float", float), ("Signed", signed), ("Unsigned", unsigned), ("Boolean", boolean)]

/-- The name of a way to read a slot. -/
def SlotKind.name : SlotKind → String
  | float => "Float"
  | signed => "Signed"
  | unsigned => "Unsigned"
  | boolean => "Boolean"

/-- The names of the sorts of events. -/
def TraceKind.named : List (String × TraceKind) :=
  [("Line", line), ("Var", var), ("Enter", enter), ("Exit", exit), ("Scope", scope)]

/-- The name of a sort of events. -/
def TraceKind.name : TraceKind → String
  | line => "Line"
  | var => "Var"
  | enter => "Enter"
  | exit => "Exit"
  | scope => "Scope"

/-! ## Records -/

/-- A count or a place, or nothing, which is written null. -/
def JsonValue.optionalNat64? : JsonValue → Option (Option Nat)
  | .null => some none
  | value => value.nat64?.map some

namespace SlotInfo

/-- The names of the fields, in order. -/
def fieldNames : List String :=
  ["name", "columns", "rows", "component_index", "group_index", "number_kind", "line",
    "fn_return_value"]

/-- The record of a slot. -/
def toJson (s : SlotInfo) : JsonValue :=
  .record (fieldNames.zip
    [.ofString s.name, .ofNat s.columns, .ofNat s.rows, .ofNat s.componentIndex,
      .ofNat s.groupIndex, .ofString s.kind.name, .ofNat s.line,
      (s.resultOf.map JsonValue.ofNat).getD .null])

/-- Reads the record of a slot. In an object the function may be left out. -/
def ofJson? (value : JsonValue) : Option SlotInfo := do
  match ← value.fields? fieldNames false with
  | [some name, some columns, some rows, some component, some group, some kind, some line,
      result] =>
    return {
      name := ← name.text?
      columns := ← columns.nat64?
      rows := ← rows.nat64?
      componentIndex := ← component.nat64?
      groupIndex := ← group.nat64?
      kind := ← kind.named? SlotKind.named
      line := ← line.nat64?
      resultOf := ← (result.getD .null).optionalNat64? }
  | _ => none

end SlotInfo

namespace TraceEvent

/-- The record of an event. -/
def toJson (e : TraceEvent) : JsonValue :=
  .record [("op", .ofString e.kind.name), ("data", .array [.integer e.first, .integer e.second])]

/-- Reads the record of an event. -/
def ofJson? (value : JsonValue) : Option TraceEvent := do
  match ← value.fields? ["op", "data"] false with
  | [some op, some (.array [first, second])] =>
    return ⟨← op.named? TraceKind.named, ← first.int32?, ← second.int32?⟩
  | _ => none

end TraceEvent

namespace DebugTrace

/-- Reads the record of a function, which holds its signature. -/
def functionOfJson? (value : JsonValue) : Option String := do
  match ← value.fields? ["name"] false with
  | [some name] => name.text?
  | _ => none

/-- The names of the fields, in order. -/
def fieldNames : List String := ["slot_info", "uniform_info", "func_info", "trace_info"]

/-- The record of a trace. -/
def toJson (t : DebugTrace) : JsonValue :=
  .record (fieldNames.zip
    [.array (t.slots.map SlotInfo.toJson), .array (t.uniforms.map SlotInfo.toJson),
      .array (t.functions.map fun f => .record [("name", .ofString f)]),
      .array (t.events.map TraceEvent.toJson)])

/-- Reads the record of a trace. -/
def ofJson? (value : JsonValue) : Option DebugTrace := do
  match ← value.fields? fieldNames false with
  | [some slots, some uniforms, some functions, some events] =>
    return ⟨← slots.list? SlotInfo.ofJson?, ← uniforms.list? SlotInfo.ofJson?,
      ← functions.list? functionOfJson?, ← events.list? TraceEvent.ofJson?⟩
  | _ => none

/-- The text of a trace. -/
def text (t : DebugTrace) : String := t.toJson.pretty

/-- Reads a trace from a text. -/
def read? (text : String) : Option DebugTrace := (JsonValue.read? text).bind ofJson?

end DebugTrace

end RasterShader
