import RasterShader.Decimal.Reader
import RasterShader.Dialect

/-!
# Arguments of the command line

The command line names a task, a source file and options (`Invocation`). Arguments are read from
left to right, and the first one that is out of place decides the answer: either a request for help
or a misuse (`Refusal`).

* An option takes its values from the arguments after it, or one value attached to it:
  `--kind=fragment`, `-kfragment`, `-k=fragment`.
* An argument that starts with a dash is never the value of an option before it. After `--` every
  argument is a file.
* Options that take numbers may be repeated, and each of their values may be several numbers between
  commas. Other options are given once.
-/

namespace RasterShader

namespace Command

/-! ## Options and tasks -/

/-- The options. -/
inductive OptionKey where
  | kind
  | settings
  | noOptimize
  | output
  | trace
  | coords
  | color
  | dst
  | uniforms
  | help
deriving DecidableEq, Repr, Inhabited

namespace OptionKey

/-- The long name, written after two dashes. -/
def long : OptionKey → String
  | kind => "kind"
  | settings => "settings"
  | noOptimize => "no-optimize"
  | output => "output"
  | trace => "trace"
  | coords => "coords"
  | color => "color"
  | dst => "dst"
  | uniforms => "uniforms"
  | help => "help"

/-- The letter that may stand for the option after one dash. -/
def short? : OptionKey → Option Char
  | kind => some 'k'
  | output => some 'o'
  | uniforms => some 'u'
  | help => some 'h'
  | _ => none

/-- How many arguments follow the option each time it is given. -/
def valueCount : OptionKey → Nat
  | noOptimize | help => 0
  | coords => 2
  | color | dst => 4
  | _ => 1

end OptionKey

/-- What can be done with a source file. -/
inductive Subcommand where
  | compile
  | check
  | dump
  | run
deriving DecidableEq, Repr, Inhabited

namespace Subcommand

/-- Every subcommand. -/
def all : List Subcommand := [compile, check, dump, run]

/-- The word that asks for a subcommand. -/
def name : Subcommand → String
  | compile => "compile"
  | check => "check"
  | dump => "dump"
  | run => "run"

/-- The subcommand a word asks for. -/
def ofName? (word : String) : Option Subcommand := all.find? (·.name == word)

/-- The options of a subcommand. -/
def options : Subcommand → List OptionKey
  | compile => [.kind, .settings, .noOptimize, .output, .trace, .help]
  | check | dump => [.kind, .settings, .noOptimize, .help]
  | run => [.kind, .settings, .noOptimize, .coords, .color, .dst, .uniforms, .help]

end Subcommand

/-- Ways to misuse the command line. -/
inductive Misuse where
  | missingCommand
  | unknownCommand (word : String)
  | missingFile
  | unexpectedArgument (argument : String)
  | wrongCount (option : OptionKey) (given : Nat)
  | repeated (option : OptionKey)
  | invalidValue (option : OptionKey) (value : String)
  | emptyFile

/-- What is told of a misuse. -/
def Misuse.message : Misuse → String
  | missingCommand => "a subcommand is required"
  | unknownCommand word => s!"unrecognized subcommand '{word}'"
  | missingFile => "the following required arguments were not provided: <FILE>"
  | unexpectedArgument argument => s!"unexpected argument '{argument}' found"
  | wrongCount option given =>
    s!"{option.valueCount} values required for '--{option.long}' but {given} were provided"
  | repeated option => s!"the argument '--{option.long}' cannot be used multiple times"
  | invalidValue option value => s!"invalid value '{value}' for '--{option.long}'"
  | emptyFile => "a value is required for '<FILE>' but none was supplied"

/-- Why nothing was done with a source file. -/
inductive Refusal where
  /-- Help was asked for, on one subcommand or on all of them. -/
  | help (topic : Option Subcommand)
  | misuse (cause : Misuse)

/-! ## What the arguments say -/

/-- The arguments of a subcommand. Numbers are the bits of single-precision floats. -/
structure Arguments where
  file? : Option String
  kind? : Option ProgramKind
  settings? : Option String
  noOptimize : Bool
  output? : Option String
  trace? : Option String
  coords : List UInt32
  color : List UInt32
  dst : List UInt32
  uniforms : List UInt32

namespace Arguments

/-- No argument. -/
def none : Arguments where
  file? := Option.none
  kind? := Option.none
  settings? := Option.none
  noOptimize := false
  output? := Option.none
  trace? := Option.none
  coords := []
  color := []
  dst := []
  uniforms := []

/-- The source file; there is only one. -/
def giveFile (a : Arguments) (path : String) : Except Misuse Arguments :=
  if a.file?.isSome then .error (.unexpectedArgument path)
  else if path.isEmpty then .error .emptyFile
  else .ok { a with file? := some path }

/-- The value of an option that is given once. -/
def once {α : Type} (key : OptionKey) (old : Option α) (read? : String → Option α)
    (value : String) : Except Misuse (Option α) :=
  if old.isSome then .error (.repeated key)
  else
    match read? value with
    | some v => .ok (some v)
    | Option.none => .error (.invalidValue key value)

/-- A path has at least one character. -/
def path? (value : String) : Option String := if value.isEmpty then Option.none else some value

/-- A number of single precision. -/
def number? (value : String) : Option UInt32 :=
  (BinaryFormat.single.read? value).map UInt32.ofNat

/-- The numbers between the commas of the values of an option. -/
def numbers (key : OptionKey) (values : List String) : Except Misuse (List UInt32) :=
  (values.flatMap (·.splitOn ",")).mapM fun value =>
    match number? value with
    | some n => .ok n
    | Option.none => .error (.invalidValue key value)

/-- An option with the arguments that follow it. -/
def give (a : Arguments) (key : OptionKey) (values : List String) : Except Misuse Arguments := do
  if values.length ≠ key.valueCount then
    throw (.wrongCount key values.length)
  let value := values.headD ""
  match key with
  | .kind => return { a with kind? := ← once key a.kind? ProgramKind.ofName? value }
  | .settings => return { a with settings? := ← once key a.settings? path? value }
  | .output => return { a with output? := ← once key a.output? path? value }
  | .trace => return { a with trace? := ← once key a.trace? path? value }
  | .coords => return { a with coords := a.coords ++ (← numbers key values) }
  | .color => return { a with color := a.color ++ (← numbers key values) }
  | .dst => return { a with dst := a.dst ++ (← numbers key values) }
  | .uniforms => return { a with uniforms := a.uniforms ++ (← numbers key values) }
  | .noOptimize =>
    if a.noOptimize then throw (.repeated key)
    return { a with noOptimize := true }
  | .help => return a

end Arguments

/-! ## Reading arguments -/

/-- Where reading has got to. -/
structure Reading where
  arguments : Arguments
  /-- An option that is still taking values, with those it has. -/
  pending : Option (OptionKey × List String)
  /-- Only files follow. -/
  filesOnly : Bool

namespace Reading

/-- Before the first argument. -/
def start : Reading := ⟨.none, none, false⟩

/-- An option given in full. A request for help ends the reading. -/
def give (r : Reading) (sub : Subcommand) (key : OptionKey) (values : List String) :
    Except Refusal Reading :=
  match r.arguments.give key values with
  | .error cause => .error (.misuse cause)
  | .ok arguments =>
    if key = .help then .error (.help (some sub)) else .ok { r with arguments := arguments }

/-- Ends the option that is still taking values. -/
def settle (r : Reading) (sub : Subcommand) : Except Refusal Reading :=
  match r.pending with
  | none => .ok r
  | some (key, values) => { r with pending := none }.give sub key values

/-- Starts an option, with the value attached to it if there is one. -/
def startOption (r : Reading) (sub : Subcommand) (key : OptionKey) (attached : Option String) :
    Except Refusal Reading := do
  let r ← r.settle sub
  match attached with
  | some value => r.give sub key [value]
  | none =>
    if key.valueCount = 0 then r.give sub key []
    else return { r with pending := some (key, []) }

/-- An option by its long name, after two dashes. -/
def long (r : Reading) (sub : Subcommand) (argument : String) : Except Refusal Reading :=
  let body := argument.toList.drop 2
  let name := String.ofList (body.takeWhile (· ≠ '='))
  let attached :=
    match body.dropWhile (· ≠ '=') with
    | [] => none
    | _ :: value => some (String.ofList value)
  match sub.options.find? (·.long == name) with
  | some key => r.startOption sub key attached
  | none => .error (.misuse (.unexpectedArgument argument))

/-- An option by its letter, with everything after it attached. Options without a value stop at
their letter. -/
def short (r : Reading) (sub : Subcommand) (argument : String) : Except Refusal Reading :=
  match argument.toList.drop 1 with
  | [] => .error (.misuse (.unexpectedArgument argument))
  | letter :: value =>
    match sub.options.find? (·.short? == some letter) with
    | none => .error (.misuse (.unexpectedArgument argument))
    | some key =>
      if key.valueCount = 0 || value.isEmpty then r.startOption sub key none
      else
        let value := if value.head? = some '=' then value.drop 1 else value
        r.startOption sub key (some (String.ofList value))

/-- The source file. -/
def file (r : Reading) (sub : Subcommand) (path : String) : Except Refusal Reading := do
  let r ← r.settle sub
  match r.arguments.giveFile path with
  | .ok arguments => return { r with arguments := arguments }
  | .error cause => .error (.misuse cause)

/-- One more value for the option that is taking values, or the source file. -/
def plain (r : Reading) (sub : Subcommand) (argument : String) : Except Refusal Reading :=
  match r.pending with
  | none => r.file sub argument
  | some (key, values) =>
    let r := { r with pending := some (key, values ++ [argument]) }
    if values.length + 1 < key.valueCount then .ok r else r.settle sub

/-- Reads one argument. -/
def step (sub : Subcommand) (r : Reading) (argument : String) : Except Refusal Reading :=
  if r.filesOnly then r.file sub argument
  else if argument == "--" then .ok { r with filesOnly := true }
  else if argument.startsWith "--" then r.long sub argument
  else if argument.startsWith "-" && argument != "-" then r.short sub argument
  else r.plain sub argument

end Reading

/-! ## Invocations -/

/-- What is to be done with the source. -/
inductive Task where
  /-- Write the listing of the program, or its debug trace, to a file. -/
  | compile (output? trace? : Option String)
  /-- Say whether the source is a program. -/
  | check
  /-- Print the listing of the program. -/
  | dump
  /-- Run the program on one pixel. -/
  | run (coords color dst uniforms : List UInt32)

/-- A task, with what it is done to. -/
structure Invocation where
  file : String
  kind : ProgramKind
  settings? : Option String
  noOptimize : Bool
  task : Task

namespace Invocation

/-- The kind of program where none is given. -/
def defaultKind : ProgramKind := .runtimeShader

/-- A subcommand with its arguments. -/
def ofSubcommand (sub : Subcommand) (a : Arguments) : Except Misuse Invocation :=
  match a.file? with
  | none => .error .missingFile
  | some file =>
    let task : Task :=
      match sub with
      | .compile => .compile a.output? a.trace?
      | .check => .check
      | .dump => .dump
      | .run => .run a.coords a.color a.dst a.uniforms
    .ok ⟨file, a.kind?.getD defaultKind, a.settings?, a.noOptimize, task⟩

/-- Reads the arguments that follow a subcommand. -/
def ofSubcommandArguments (sub : Subcommand) (arguments : List String) :
    Except Refusal Invocation := do
  let r ← arguments.foldlM (Reading.step sub) .start
  let r ← r.settle sub
  match ofSubcommand sub r.arguments with
  | .ok invocation => return invocation
  | .error cause => .error (.misuse cause)

/-- Why help on the subcommand with a name is refused or granted. -/
def helpOn : List String → Refusal
  | [] => .help none
  | [word] =>
    match Subcommand.ofName? word with
    | some sub => .help (some sub)
    | none => if word == "help" then .help none else .misuse (.unknownCommand word)
  | _ :: word :: _ => .misuse (.unknownCommand word)

/-- Reads the arguments of the command. -/
def ofArguments (arguments : List String) : Except Refusal Invocation :=
  match arguments with
  | [] => .error (.misuse .missingCommand)
  | word :: rest =>
    match Subcommand.ofName? word with
    | some sub => ofSubcommandArguments sub rest
    | none =>
      if word == "help" then .error (helpOn rest)
      else if word == "--help" || (word.startsWith "-h") then .error (.help none)
      else .error (.misuse (.unknownCommand word))

end Invocation

end Command

end RasterShader
