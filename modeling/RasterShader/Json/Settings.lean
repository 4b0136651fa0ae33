import RasterShader.Dialect
import RasterShader.Json.Reader

/-!
# Settings as JSON

Settings are a record whose every field may be left out; a field that is left out keeps its
standard value.
-/

namespace RasterShader

namespace Version

/-- The names of the versions. -/
def named : List (String × Version) := [("V100", v100), ("V300", v300)]

/-- The name of a version. -/
def name : Version → String
  | v100 => "V100"
  | v300 => "V300"

end Version

namespace Settings

/-- The names of the fields, in order. -/
def fieldNames : List String :=
  ["max_version_allowed", "allow_private_identifiers", "enforce_es2_restrictions", "debug_trace",
    "optimize", "lane_count"]

/-- The record of settings. -/
def toJson (s : Settings) : JsonValue :=
  .record (fieldNames.zip
    [.ofString s.maxVersion.name, .bool s.allowPrivateIdentifiers, .bool s.enforceEs2,
      .bool s.debugTrace, .bool s.optimize, .ofNat s.laneCount])

/-- A field's value, or the standard one where the field is left out. -/
def field? {α : Type} (read? : JsonValue → Option α) (standard : α) :
    Option JsonValue → Option α
  | none => some standard
  | some value => read? value

/-- Reads the record of settings. -/
def ofJson? (value : JsonValue) : Option Settings := do
  match ← value.fields? fieldNames true with
  | [version, privateIdentifiers, es2, trace, optimize, lanes] =>
    return {
      maxVersion := ← field? (JsonValue.named? Version.named) standard.maxVersion version
      allowPrivateIdentifiers :=
        ← field? JsonValue.bool? standard.allowPrivateIdentifiers privateIdentifiers
      enforceEs2 := ← field? JsonValue.bool? standard.enforceEs2 es2
      debugTrace := ← field? JsonValue.bool? standard.debugTrace trace
      optimize := ← field? JsonValue.bool? standard.optimize optimize
      laneCount := ← field? JsonValue.nat64? standard.laneCount lanes }
  | _ => none

/-- Reads settings from a text. -/
def read? (text : String) : Option Settings := (JsonValue.read? text).bind ofJson?

end Settings

end RasterShader
