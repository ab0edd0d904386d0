/-!
# A directory of files

A working directory that holds plain files and nothing else. Paths are relative to it; `.` and empty
parts of a path stay where they are, and `..` leads to a directory around it, of which nothing is
known. Names are compared by their characters.
-/

namespace Formula

inductive FileError where
  | notFound
  | notDirectory
  | isDirectory
  | nameTooLong
  | permissionDenied
  | nulInName
  | notUtf8
  | system (text : String) (code : Nat)
deriving DecidableEq, Repr

def FileError.message : FileError → String
  | notFound => "No such file or directory (os error 2)"
  | notDirectory => "Not a directory (os error 20)"
  | isDirectory => "Is a directory (os error 21)"
  | nameTooLong => "File name too long (os error 36)"
  | permissionDenied => "Permission denied (os error 13)"
  | nulInName => "file name contained an unexpected NUL byte"
  | notUtf8 => "stream did not contain valid UTF-8"
  | system text code => text ++ " (os error " ++ toString code ++ ")"

def FileError.ofCode (text : String) : (code : Nat) → FileError
  | 2 => notFound
  | 13 => permissionDenied
  | 20 => notDirectory
  | 21 => isDirectory
  | 36 => nameTooLong
  | code => system text code

structure Directory where
  files : List (String × ByteArray)

namespace Directory

def empty : Directory := ⟨[]⟩

inductive Place where
  | directory
  | entry (name : String)
  | outside
deriving DecidableEq, Repr

/-- The longest name and the longest path, in bytes. -/
def maxName : Nat := 255

def maxPath : Nat := 4095

def isFile (d : Directory) (name : String) : Bool := d.files.any fun (n, _) ↦ n = name

/-- The directory that a walk along a path has reached: this one or one around it. -/
inductive Standing where
  | here
  | around
deriving DecidableEq, Repr

/-- Enters a directory. The files have no directories beside them, so a name leads nowhere. -/
def enter (d : Directory) (reached : Standing) (part : String) : Except FileError Standing :=
  if part = "." then .ok reached
  else if part = ".." then .ok .around
  else if maxName < part.utf8ByteSize then .error .nameTooLong
  else if reached = .here ∧ d.isFile part then .error .notDirectory
  else .error .notFound

inductive Purpose where
  | read
  | write
deriving DecidableEq, Repr

/-- Follows a path: every part but the last has to be a directory. A slash at the end asks for a
directory; when writing, that refuses any name before it is looked up. -/
def resolve (d : Directory) (path : String) (purpose : Purpose) : Except FileError Place :=
  if path.toList.contains '\x00' then .error .nulInName
  else if maxPath < path.utf8ByteSize then .error .nameTooLong
  else if path.isEmpty then .error .notFound
  else
    let start : Standing := if path.startsWith "/" then .around else .here
    match ((path.splitOn "/").filter (· ≠ "")).reverse with
    | [] => .ok .directory
    | last :: before => do
      let reached ← before.reverse.foldlM d.enter start
      if last = "." ∨ last = ".." then return .directory
      if path.endsWith "/" then
        if purpose = .write then .error .isDirectory
        let _ ← d.enter reached last
      if maxName < last.utf8ByteSize then .error .nameTooLong
      return if reached = .here then .entry last else .outside

def read (d : Directory) (path : String) : Except FileError ByteArray := do
  match ← d.resolve path .read with
  | .directory => .error .isDirectory
  | .outside => .error .notFound
  | .entry name =>
    match d.files.find? fun (n, _) ↦ n = name with
    | some (_, bytes) => return bytes
    | none => .error .notFound

def readText (d : Directory) (path : String) : Except FileError String := do
  let bytes ← d.read path
  match String.fromUTF8? bytes with
  | some text => return text
  | none => .error .notUtf8

/-- Writes a file, over an older one of the same name. A file outside leaves the directory as it
was. -/
def write (d : Directory) (path : String) (bytes : ByteArray) : Except FileError Directory := do
  match ← d.resolve path .write with
  | .directory => .error .isDirectory
  | .outside => return d
  | .entry name => return ⟨(name, bytes) :: d.files.filter fun (n, _) ↦ n ≠ name⟩

end Directory

end Formula
