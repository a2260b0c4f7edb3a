import StackScript.Shell.Command

/-!
A command line in a working directory with files and further directories in it, and how a
path leads to one of them. A path is followed name by name, so a missing directory in the
middle is found before the rest is looked at. Whatever lies above a listed path is a
directory, whether it is listed itself or not.
-/

namespace StackScript.Shell

/-- Files and directories by their path from the working directory. -/
structure Directory where
  files : List (String × Array UInt8) := []
  folders : List String := []

namespace Directory

/-- Whether a name in a path stays where it is: a dot, or the empty name that a doubled
or closing slash leaves. -/
def stays (name : String) : Bool :=
  name = "" || name = "."

/-- The names along a listed path. -/
def namesOf (path : String) : List String :=
  (path.splitOn "/").filter fun name => !stays name

/-- The file at these names. -/
def file? (d : Directory) (names : List String) : Option (Array UInt8) :=
  (d.files.find? fun entry => namesOf entry.1 = names).map Prod.snd

/-- The directories that the listed paths need: the listed ones and those of files. -/
def needed (d : Directory) : List (List String) :=
  d.folders.map namesOf ++ d.files.map fun entry => (namesOf entry.1).dropLast

/-- Whether there is a directory at these names. -/
def hasFolder (d : Directory) (names : List String) : Bool :=
  d.needed.any fun folder => names.isPrefixOf folder

/-- Where a path has led so far: to a directory inside the working directory, given by
the names on the way with the last one first, to one outside of it, or to a file. -/
inductive Place where
  | inside (names : List String)
  | outside
  | file (bytes : Array UInt8)

/-- The longest name, in bytes. -/
def nameMax : Nat := 255

/-- The longest path, in bytes. -/
def pathMax : Nat := 4095

/-- Follows one name of a path. -/
def follow (d : Directory) (place : Place) (name : String) : Except ReadFailure Place :=
  match place with
  | .file _ => .error .notDirectory
  | .outside =>
      if stays name || name = ".." then .ok .outside
      else if nameMax < name.utf8ByteSize then .error .nameTooLong
      else .error .missing
  | .inside names =>
      if stays name then .ok (.inside names)
      else if name = ".." then
        match names with
        | [] => .ok .outside
        | _ :: above => .ok (.inside above)
      else if nameMax < name.utf8ByteSize then .error .nameTooLong
      else
        let path := (name :: names).reverse
        match d.file? path with
        | some bytes => .ok (.file bytes)
        | none => if d.hasFolder path then .ok (.inside (name :: names)) else .error .missing

/-- The bytes of the file that a path leads to. -/
def read (d : Directory) (path : String) : Except ReadFailure (Array UInt8) := do
  if pathMax < path.utf8ByteSize then throw .nameTooLong
  let start : Place := if path.toList.head? = some '/' then .outside else .inside []
  match ← (path.splitOn "/").foldlM d.follow start with
  | .file bytes => return bytes
  | _ => throw .isDirectory

end Directory

/-- Exit code of a command whose arguments make no sense. -/
def usageError : Exit := { code := 2, err := "usage: [--disassemble] [script]\n" }

/-- Runs the command that the arguments ask for, with the files of a directory. -/
def commandLine (fuel : Nat) (arguments : List String) (files : Directory)
    (input : Array UInt8) : Option Exit :=
  match Invocation.parse? arguments with
  | none => some usageError
  | some asked => command fuel asked files.read input

end StackScript.Shell
