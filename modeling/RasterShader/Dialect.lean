/-!
# Program kinds and settings

What a source text is compiled as (`ProgramKind`) and under which rules (`Settings`). Together
with whether a built-in module is being compiled they decide which declarations and statements
are permitted.
-/

namespace RasterShader

/-- Language versions that a version directive may ask for. -/
inductive Version where
  | v100
  | v300
deriving DecidableEq, Repr, Inhabited

/-- The number written in a version directive. -/
def Version.number : Version → Nat
  | .v100 => 100
  | .v300 => 300

/-- Compiler settings. -/
structure Settings where
  /-- Highest version a program may ask for. -/
  maxVersion : Version
  /-- Permits identifiers that start with a dollar sign, normally kept for built-in modules. -/
  allowPrivateIdentifiers : Bool
  /-- Restricts loops and indexing to the smaller language version. -/
  enforceEs2 : Bool
  /-- Records slot names and trace events with the generated program. -/
  debugTrace : Bool
  /-- Folds literal arithmetic and moves constant locals to immutable slots. -/
  optimize : Bool
  /-- Lanes of the machine that runs the program. -/
  laneCount : Nat
deriving DecidableEq, Repr

/-- The settings used where none are given. -/
def Settings.standard : Settings where
  maxVersion := .v300
  allowPrivateIdentifiers := false
  enforceEs2 := false
  debugTrace := false
  optimize := true
  laneCount := 8

instance : Inhabited Settings := ⟨.standard⟩

/-- What a program is compiled for. -/
inductive ProgramKind where
  | fragment
  | vertex
  | compute
  | graphiteFragment
  | graphiteVertex
  | graphiteFragmentEs2
  | graphiteVertexEs2
  | runtimeShader
  | runtimeColorFilter
  | runtimeBlender
  | generic
deriving DecidableEq, Repr, Inhabited

namespace ProgramKind

/-- Every program kind. -/
def all : List ProgramKind :=
  [fragment, vertex, compute, graphiteFragment, graphiteVertex, graphiteFragmentEs2,
    graphiteVertexEs2, runtimeShader, runtimeColorFilter, runtimeBlender, generic]

/-- The name a kind is selected by. -/
def name : ProgramKind → String
  | fragment => "fragment"
  | vertex => "vertex"
  | compute => "compute"
  | graphiteFragment => "graphite-fragment"
  | graphiteVertex => "graphite-vertex"
  | graphiteFragmentEs2 => "graphite-fragment-es2"
  | graphiteVertexEs2 => "graphite-vertex-es2"
  | runtimeShader => "runtime-shader"
  | runtimeColorFilter => "runtime-color-filter"
  | runtimeBlender => "runtime-blender"
  | generic => "generic"

/-- The kind with a given name. -/
def ofName? (name : String) : Option ProgramKind := all.find? (·.name == name)

/-- What is told to a caller who asks for a kind that does not exist. -/
def unknownMessage (name : String) : String := s!"unknown program kind '{name}'"

/-- Effects that run inside a host's drawing pipeline. -/
def isRuntimeEffect : ProgramKind → Bool
  | runtimeShader | runtimeColorFilter | runtimeBlender => true
  | _ => false

/-- Fragment stages. -/
def isFragment : ProgramKind → Bool
  | fragment | graphiteFragment | graphiteFragmentEs2 => true
  | _ => false

/-- Vertex stages. -/
def isVertex : ProgramKind → Bool
  | vertex | graphiteVertex | graphiteVertexEs2 => true
  | _ => false

/-- Compute stages. -/
def isCompute : ProgramKind → Bool
  | compute => true
  | _ => false

/-- Unsized arrays make sense only in stage code, whose storage is backed by buffers. -/
def allowsUnsizedArrays (kind : ProgramKind) : Bool :=
  kind.isFragment || kind.isVertex || kind.isCompute

/-- Kinds to which the smaller language version always applies. -/
def isEs2 : ProgramKind → Bool
  | graphiteFragmentEs2 | graphiteVertexEs2 => true
  | _ => false

end ProgramKind

/-- The rules in force at one point of a compilation: the kind of program and the settings, which
a version directive may have changed. -/
structure Dialect where
  kind : ProgramKind
  settings : Settings
deriving Inhabited

/-- The smaller language version's rules apply to loops, indexing and arrays. -/
def Dialect.strictEs2 (dialect : Dialect) : Bool :=
  dialect.settings.enforceEs2 || dialect.kind.isEs2

end RasterShader
