/-!
# Files

A `Volume` is one directory of text files, with no directories inside it. Reading and writing go
through paths, whose empty parts and single dots are skipped, and fail for the reasons a file system
gives (`FileError`).
-/

namespace RasterShader

namespace Command

/-- Why a file could not be read or written. -/
inductive FileError where
  | notFound
  | notADirectory
  | isADirectory
  | other (text : String)
deriving DecidableEq, Repr

/-- What is told of a file error. -/
def FileError.message : FileError → String
  | notFound => "No such file or directory (os error 2)"
  | notADirectory => "Not a directory (os error 20)"
  | isADirectory => "Is a directory (os error 21)"
  | other text => text

/-- The path with another extension, or with one more if it has none. A dot at the start of a name
begins no extension. -/
def withExtension (path extension : String) : String :=
  let cs := path.toList.reverse
  let name := cs.takeWhile (· ≠ '/')
  let directory := cs.drop name.length
  let stem :=
    match name.dropWhile (· ≠ '.') with
    | [] => name
    | _ :: before => if before.isEmpty then name else before
  String.ofList (stem ++ directory).reverse ++ "." ++ extension

/-- A directory of text files. -/
structure Volume where
  files : List (String × String)
deriving Repr

/-- What a path leads to. -/
inductive Place where
  | directory
  /-- A name in the directory; `asDirectory` tells that the path asks for a directory there. -/
  | entry (name : String) (asDirectory : Bool)
  /-- Something inside an entry of the directory. -/
  | inside (name : String)
  | elsewhere

/-- Where a path leads. -/
def Place.ofPath (path : String) : Place :=
  let parts := path.splitOn "/"
  let names := parts.filter fun part => part != "" && part != "."
  if path.startsWith "/" || names.contains ".." then elsewhere
  else
    match names with
    | [] => directory
    | [name] => entry name (parts.getLast? != some name)
    | name :: _ => inside name

namespace Volume

/-- There is a file with a name. -/
def contains (v : Volume) (name : String) : Bool := (v.files.lookup name).isSome

/-- Why a path through a name that is no directory leads nowhere. -/
def blocked (v : Volume) (name : String) : FileError :=
  if v.contains name then .notADirectory else .notFound

/-- Reads a file. -/
def read (v : Volume) (path : String) : Except FileError String :=
  match Place.ofPath path with
  | .directory => .error .isADirectory
  | .elsewhere => .error .notFound
  | .inside name => .error (v.blocked name)
  | .entry name asDirectory =>
    if asDirectory then .error (v.blocked name)
    else
      match v.files.lookup name with
      | some text => .ok text
      | none => .error .notFound

/-- Writes a file, over the one of that name if there is one. -/
def write (v : Volume) (path text : String) : Except FileError Volume :=
  match Place.ofPath path with
  | .directory => .error .isADirectory
  | .elsewhere => .error .notFound
  | .inside name => .error (v.blocked name)
  | .entry name asDirectory =>
    if asDirectory then .error (if v.contains name then .notADirectory else .isADirectory)
    else .ok ⟨v.files.filter (·.1 != name) ++ [(name, text)]⟩

end Volume

end Command

end RasterShader
