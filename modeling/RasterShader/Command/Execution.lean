import RasterShader.Command.Files
import RasterShader.Command.Help
import RasterShader.Compiler
import RasterShader.Json.Settings
import RasterShader.Json.Trace
import RasterShader.Machine.Run
import RasterShader.Pipeline.Listing

/-!
# Carrying out a command

`Invocation.perform` says what a command makes of the files it reads: a text to print, a file to
write, or a `Failure`. It touches no file itself. `run` carries a command out on a `Volume`.
-/

namespace RasterShader

namespace Command

/-- Why a command failed. -/
inductive Failure where
  | file (error : FileError)
  /-- The settings file holds no settings. -/
  | settings
  /-- The source is not a program. -/
  | diagnostics (source : String) (reports : List Report)
  | compilation (error : CompileError)

/-- What is printed of a failure. -/
def Failure.text : Failure → String
  | file error => s!"IO error: {error.message}\n"
  | settings => "Invalid settings file: not a record of compiler settings\n"
  | diagnostics source reports => Diagnostic.report source (reports.map Report.diagnostic)
  | compilation error => s!"Compilation error: {error.message}\n"

/-- What a command makes: a text to print, and a path with what is to be written there. -/
structure Product where
  printed : String
  written? : Option (String × String)

namespace Product

/-- Only a text. -/
def ofText (text : String) : Product := ⟨text, none⟩

/-- Only a file. -/
def ofFile (path text : String) : Product := ⟨"", some (path, text)⟩

end Product

namespace Invocation

/-- The files the command reads. -/
def paths (i : Invocation) : List String := i.settings?.toList ++ [i.file]

/-- The settings in force: those of the settings file, changed as the options say. -/
def loadSettings (i : Invocation) (read : String → Except FileError String) :
    Except Failure Settings := do
  let given ← match i.settings? with
    | none => pure Settings.standard
    | some path =>
      match read path with
      | .error e => throw (.file e)
      | .ok text =>
        match Settings.read? text with
        | none => throw .settings
        | some given => pure given
  let traced := match i.task with
    | .compile _ trace? => trace?.isSome
    | _ => false
  return { given with
    optimize := given.optimize && !i.noOptimize
    debugTrace := given.debugTrace || traced }

/-- The lines of a listing. -/
def listingText (p : Pipeline) : String := String.join (p.listing.map (· ++ "\n"))

/-- The pixel a program is run on. Color filters and blenders are given colors, other programs
coordinates only. -/
def pixel (kind : ProgramKind) (coords color dst : List UInt32) : Pixel :=
  let x := coords.getD 0 0
  let y := coords.getD 1 0
  let rgba (values : List UInt32) : Rgba UInt32 :=
    ⟨values.getD 0 0, values.getD 1 0, values.getD 2 0, values.getD 3 0⟩
  match kind with
  | .runtimeColorFilter | .runtimeBlender => ⟨rgba color, rgba dst, (x, y)⟩
  | _ => .ofCoords x y

/-- A color as it is printed. -/
def colorText (c : Rgba UInt32) : String :=
  "half4(" ++ String.intercalate ", " (c.toList.map plainText) ++ ")\n"

/-- Carries out a task on a program. -/
def performOn (i : Invocation) (settings : Settings) (p : Pipeline) : Except Failure Product :=
  match i.task with
  | .compile output? trace? =>
    match trace? with
    | some path => .ok ⟨"", p.debugTrace.map fun t => (path, t.text)⟩
    | none => .ok (.ofFile (output?.getD (withExtension i.file "rp")) (listingText p))
  | .check => .ok (.ofText "")
  | .dump => .ok (.ofText (listingText p))
  | .run coords color dst uniforms =>
    match p.evaluate settings.laneCount none uniforms [pixel i.kind coords color dst] with
    | .error e => .error (.compilation (.pipeline e))
    | .ok out => .ok (.ofText ((out.colors.head?.map colorText).getD ""))

/-- What a command makes of the files it reads. -/
def perform (i : Invocation) (read : String → Except FileError String) :
    Except Failure Product := do
  let settings ← i.loadSettings read
  let source ← match read i.file with
    | .error e => throw (.file e)
    | .ok text => pure text
  let dialect : Dialect := ⟨i.kind, settings⟩
  match i.task with
  | .check =>
    match Program.read dialect source with
    | .error reports => throw (.diagnostics source reports)
    | .ok _ => return .ofText s!"{i.file} is valid\n"
  | _ =>
    match RasterShader.compile dialect source with
    | .error (.diagnostics reports) => throw (.diagnostics source reports)
    | .error e => throw (.compilation e)
    | .ok p => i.performOn settings p

end Invocation

/-- How a command ended. -/
structure Outcome where
  code : Nat
  stdout : String
  stderr : String
deriving DecidableEq, Repr

namespace Outcome

/-- The command did what it was asked for. -/
def done (text : String) : Outcome := ⟨0, text, ""⟩

/-- The command failed. -/
def failed (failure : Failure) : Outcome := ⟨1, "", failure.text⟩

/-- Nothing was done with a source file. -/
def refused : Refusal → Outcome
  | .help none => done helpText
  | .help (some sub) => done sub.help
  | .misuse .missingCommand => ⟨2, "", helpText⟩
  | .misuse cause => ⟨2, "", s!"error: {cause.message}\n"⟩

end Outcome

/-- Carries out a command on the files of a volume, and gives them as they are afterwards. -/
def run (arguments : List String) (volume : Volume) : Outcome × Volume :=
  match Invocation.ofArguments arguments with
  | .error refusal => (.refused refusal, volume)
  | .ok invocation =>
    match invocation.perform volume.read with
    | .error failure => (.failed failure, volume)
    | .ok product =>
      match product.written? with
      | none => (.done product.printed, volume)
      | some (path, text) =>
        match volume.write path text with
        | .error e => (.failed (.file e), volume)
        | .ok volume => (.done product.printed, volume)

end Command

end RasterShader
