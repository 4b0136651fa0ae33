import RasterShader.Codegen.Program
import RasterShader.Program

/-!
# Compiling source text

From source text to a pipeline: reading and type-checking, code generation, and the check that the
generated code keeps its stacks balanced.
-/

namespace RasterShader

/-- Why a source text was not compiled. -/
inductive CompileError where
  /-- The text is not a program. -/
  | diagnostics (reports : List Report)
  /-- The program uses what the pipeline does not support. -/
  | unsupported (reason : Unsupported)
  | pipeline (error : PipelineError)

/-- What is told of an error. -/
def CompileError.message : CompileError → String
  | diagnostics reports => s!"{reports.length} error(s) reported"
  | unsupported reason => s!"Unsupported by the raster pipeline backend: {reason.message}"
  | pipeline error => s!"Pipeline lowering error: {error.message}"

/-- Generates the code of a program. -/
def Program.generate (program : Program) : Except CompileError Pipeline :=
  let trace := program.dialect.settings.debugTrace
  match (writeProgram (.ofProgram program)).run (.start trace) with
  | .error reason => .error (.unsupported reason)
  | .ok ((), g) =>
    let debugTrace := if trace then some g.debugTrace else none
    match Pipeline.ofBuilder g.builder g.values.next g.uniforms.next g.immutable.length
        debugTrace with
    | .error e => .error (.pipeline e)
    | .ok pipeline => .ok pipeline

/-- Compiles a source text. -/
def compile (dialect : Dialect) (source : String) : Except CompileError Pipeline :=
  match Program.read dialect source with
  | .error reports => .error (.diagnostics reports)
  | .ok program => program.generate

end RasterShader
