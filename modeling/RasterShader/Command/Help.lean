import RasterShader.Command.Arguments

/-!
# Help on the command line

Options are listed with their values, and what they do stands beside them in one column. Where that
would leave too little room on a line of a hundred characters, it stands below each option instead.
-/

namespace RasterShader

namespace Command

/-- The name of the command. -/
def commandName : String := "skslc"

/-- What a value is called. -/
def OptionKey.valueName : OptionKey → String
  | .kind => "<KIND>"
  | .settings | .output | .trace => "<FILE>"
  | .coords => "<COORDS>"
  | .color => "<COLOR>"
  | .dst => "<DST>"
  | .uniforms => "<UNIFORMS>"
  | .noOptimize | .help => ""

/-- What an option does. -/
def OptionKey.summary : OptionKey → String
  | .kind =>
    "Program kind (fragment, runtime-shader, runtime-color-filter, ...) [default: runtime-shader]"
  | .settings => "JSON file with compiler settings"
  | .noOptimize => "Disable constant folding and immutable promotion"
  | .output => "Output dump file (defaults to input name with .rp extension)"
  | .trace => "Write the debug trace as JSON instead of the dump"
  | .coords => "Local coordinates as X,Y [default: 0 0]"
  | .color => "Source color as R,G,B,A"
  | .dst => "Destination color as R,G,B,A"
  | .uniforms => "Uniform values, in declaration order"
  | .help => "Print help"

/-- An option with its values. -/
def OptionKey.form (key : OptionKey) : String :=
  let letter := (key.short?.map fun c => String.ofList ['-', c, ',', ' ']).getD "    "
  let values := String.join (List.replicate key.valueCount (" " ++ key.valueName))
  letter ++ "--" ++ key.long ++ values

/-- What a subcommand does. -/
def Subcommand.summary : Subcommand → String
  | .compile => "Compile a source file and write the program dump"
  | .check => "Parse and validate a source file without generating code"
  | .dump => "Print the lowered stage list"
  | .run => "Run the program on the reference pipeline for one pixel"

/-- A text filled up with blanks to a width. -/
def padded (width : Nat) (text : String) : String :=
  text ++ String.ofList (List.replicate (width - text.length) ' ')

/-- Rows of two columns, or of a line below a line where the second column has too little room. -/
def columns (rows : List (String × String)) : String :=
  let width := (rows.map (·.1.length)).foldl max 2
  let taken := width + 12
  let crowded := 40 < taken && rows.any fun row => 100 - taken < row.2.length
  String.join (rows.map fun (first, second) =>
    if crowded then "  " ++ first ++ "\n          " ++ second ++ "\n"
    else "  " ++ padded width first ++ "  " ++ second ++ "\n")

/-- Help on one subcommand. -/
def Subcommand.help (sub : Subcommand) : String :=
  sub.summary ++ "\n\nUsage: " ++ commandName ++ " " ++ sub.name ++ " [OPTIONS] <FILE>\n\n" ++
    "Arguments:\n  <FILE>  Input source file\n\nOptions:\n" ++
    columns (sub.options.map fun key => (key.form, key.summary))

/-- Help on all subcommands. -/
def helpText : String :=
  "Compiles SkSL programs to raster-pipeline stages\n\nUsage: " ++ commandName ++
    " <COMMAND>\n\nCommands:\n" ++
    columns (Subcommand.all.map (fun sub => (sub.name, sub.summary)) ++
      [("help", "Print this message or the help of the given subcommand(s)")]) ++
    "\nOptions:\n  -h, --help  Print help\n"

end Command

end RasterShader
