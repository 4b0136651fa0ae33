import RasterShader.Command.Execution

/-!
# The command line program

Reads the files a command names, carries the command out, and writes what it makes.
-/

namespace RasterShader

namespace Command

/-- The reason for a failed file operation. -/
def fileErrorOf : IO.Error → FileError
  | .noFileOrDirectory .. => .notFound
  | e => .other (toString e)

/-- Reads a file, or tells why not. -/
def readText (path : String) : IO (Except FileError String) := do
  try
    return .ok (← IO.FS.readFile path)
  catch e =>
    return .error (fileErrorOf e)

/-- Writes a file, or tells why not. -/
def writeText (path text : String) : IO (Except FileError Unit) := do
  try
    IO.FS.writeFile path text
    return .ok ()
  catch e =>
    return .error (fileErrorOf e)

/-- Prints what there is to say and gives the exit code. -/
def Outcome.print (outcome : Outcome) : IO UInt32 := do
  IO.print outcome.stdout
  IO.eprint outcome.stderr
  return UInt32.ofNat outcome.code

/-- Carries out a command on the files of the machine. -/
def runOnFiles (arguments : List String) : IO Outcome := do
  match Invocation.ofArguments arguments with
  | .error refusal => return .refused refusal
  | .ok invocation =>
    let texts ← invocation.paths.mapM fun path => do return (path, ← readText path)
    let read (path : String) : Except FileError String :=
      (texts.lookup path).getD (.error .notFound)
    match invocation.perform read with
    | .error failure => return .failed failure
    | .ok product =>
      match product.written? with
      | none => return .done product.printed
      | some (path, text) =>
        match ← writeText path text with
        | .error e => return .failed (.file e)
        | .ok () => return .done product.printed

end Command

end RasterShader

/-- Carries out the command that the arguments name. -/
def main (arguments : List String) : IO UInt32 := do
  (← RasterShader.Command.runOnFiles arguments).print
