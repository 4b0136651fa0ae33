import RasterShader.Grammar.Program
import RasterShader.Library.Shared
import RasterShader.Library.Stages
import RasterShader.Ty.Named

/-!
# Built-in modules

Every program is read on top of a chain of built-in modules: the named types at the bottom, the
shared functions on them, and then what belongs to the kind of program (`Library.forKind`).
-/

namespace RasterShader

/-- A chain of finished modules, nearest first, and the next free identity after them. -/
structure Library where
  modules : List Module
  nextId : Nat
deriving Inhabited

namespace Library

/-- The characters of a module's source text. -/
def sourceChars (lines : List String) : List Char := lines.flatMap fun line => line.toList ++ ['\n']

/-- The settings that built-in modules are read with. -/
def moduleSettings : Settings := { Settings.standard with allowPrivateIdentifiers := true }

/-- The chain with one more module on top, read from its source. -/
def extend (library : Library) (kind : ProgramKind) (name : String) (lines : List String) :
    Library :=
  let session := Session.start ⟨kind, moduleSettings⟩ library.modules true library.nextId
  let session := session.readChars (sourceChars lines)
  ⟨⟨name, session.symbols.layer, session.elements⟩ :: library.modules, session.nextId⟩

/-- The named types and nothing else. -/
def root : Library :=
  let names := Ty.named.map fun (name, ty) => (name, Symbol.type ty)
  ⟨[⟨"root", ⟨[], names, true⟩, []⟩], 1⟩

/-- Functions for every kind of program. -/
def shared : Library := root.extend .generic "sksl_shared" LibrarySource.shared

/-- Helpers of stages. -/
def gpu : Library := shared.extend .fragment "sksl_gpu" LibrarySource.gpu

/-- What vertex stages build on. -/
def vertex : Library := gpu.extend .vertex "sksl_vert" LibrarySource.vertex

/-- What fragment stages build on. -/
def fragment : Library := gpu.extend .fragment "sksl_frag" LibrarySource.fragment

/-- What compute stages build on. -/
def compute : Library := gpu.extend .compute "sksl_compute" LibrarySource.compute

/-- What Graphite vertex stages build on. -/
def graphiteVertex : Library :=
  vertex.extend .graphiteVertex "sksl_graphite_vert" LibrarySource.graphiteVertex

/-- What Graphite fragment stages build on. -/
def graphiteFragment : Library :=
  fragment.extend .graphiteFragment "sksl_graphite_frag" LibrarySource.graphiteFragment

/-- What Graphite vertex stages of the smaller version build on. -/
def graphiteVertexEs2 : Library :=
  vertex.extend .graphiteVertexEs2 "sksl_graphite_vert_es2" LibrarySource.graphiteVertex

/-- What Graphite fragment stages of the smaller version build on. -/
def graphiteFragmentEs2 : Library :=
  fragment.extend .graphiteFragmentEs2 "sksl_graphite_frag_es2" LibrarySource.graphiteFragment

/-- What runtime effects build on. -/
def effects : Library := shared.extend .generic "sksl_public" LibrarySource.effects

/-- What runtime shaders build on. -/
def runtimeShader : Library :=
  effects.extend .runtimeShader "sksl_rt_shader" LibrarySource.runtimeShader

/-- What a kind of program builds on. -/
def forKind : ProgramKind → Library
  | .vertex => vertex
  | .fragment => fragment
  | .compute => compute
  | .graphiteVertex => graphiteVertex
  | .graphiteFragment => graphiteFragment
  | .graphiteVertexEs2 => graphiteVertexEs2
  | .graphiteFragmentEs2 => graphiteFragmentEs2
  | .runtimeShader => runtimeShader
  | .runtimeColorFilter | .runtimeBlender | .generic => effects

end Library

end RasterShader
