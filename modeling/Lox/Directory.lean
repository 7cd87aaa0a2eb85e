import Lox.Table

/-!
# Directories

A path is a chain of names with slashes between them, and it is followed one name after another from
the directory in which a command is carried out. `Directory.read` follows a path through a directory
that holds files only; of the directories around it nothing is known but that they are there.

Following a path stops at the first name that leads nowhere, so the error is that of the first name:
a name behind a file is never looked at.
-/

namespace Lox

/-- Why a file is not read. -/
inductive FileError where
  /-- There is no file of the name. -/
  | missing
  /-- The file must not be read. -/
  | denied
  /-- Something on the way to the file is a file itself. -/
  | notDirectory
  /-- A name on the way, or the path, is too long. -/
  | tooLong
  /-- The name is that of a directory. -/
  | directory
  /-- Another cause, in words. -/
  | other (cause : String)
deriving DecidableEq, Repr

/-- A cause in words, with its number. -/
def FileError.message : FileError → String
  | missing => "No such file or directory (os error 2)"
  | denied => "Permission denied (os error 13)"
  | notDirectory => "Not a directory (os error 20)"
  | tooLong => "File name too long (os error 36)"
  | directory => "No such device (os error 19)"
  | other cause => cause

/-- A directory that holds files. -/
structure Directory where
  /-- The contents of the files, by name. -/
  files : Table ByteArray

/-- Where a path has led so far. -/
inductive Place where
  /-- The directory itself. -/
  | here
  /-- A directory around it. -/
  | around
  /-- A file. -/
  | file (contents : ByteArray)

namespace Directory

/-- The greatest length of a name, in bytes. -/
def maxName : Nat := 255

/-- The greatest length of a path, in bytes. -/
def maxPath : Nat := 4095

/-- Follows one name of a path. An empty name and `.` stay in a directory, and `..` leads out of
it. -/
def follow (d : Directory) (place : Place) (name : String) : Except FileError Place :=
  match place with
  | .file _ => .error .notDirectory
  | .here =>
    if name = "" ∨ name = "." then .ok .here
    else if name = ".." then .ok .around
    else if maxName < name.utf8ByteSize then .error .tooLong
    else
      match d.files.get? name with
      | some contents => .ok (.file contents)
      | none => .error .missing
  | .around =>
    if name = "" ∨ name = "." ∨ name = ".." then .ok .around
    else if maxName < name.utf8ByteSize then .error .tooLong
    else .error .missing

/-- The contents of the file that a path leads to. A path that starts with a slash does not start in
the directory. -/
def read (d : Directory) (path : String) : Except FileError ByteArray := do
  if path = "" then throw .missing
  if maxPath < path.utf8ByteSize then throw .tooLong
  let start := if path.startsWith "/" then Place.around else .here
  match ← (path.splitOn "/").foldlM d.follow start with
  | .file contents => return contents
  | .here | .around => throw .directory

end Directory

end Lox
