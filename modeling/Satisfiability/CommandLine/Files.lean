import Satisfiability.Text.Words

/-!
# Files

What a command can learn of files: the bytes behind a path, or why there are none. A flat directory
held in memory answers paths as a file system does: a path is followed name by name from the
directory where it starts, and the first name that leads nowhere decides what is wrong.
-/

namespace Satisfiability.CommandLine

inductive FileFault where
  | missing
  | denied
  | notDirectory
  /-- The path leads to a directory, which can be opened but not read. -/
  | directory
  | nameTooLong
  | notText
  | system (text : String)
  deriving Repr, DecidableEq

def FileFault.message : FileFault → String
  | missing => "No such file or directory (os error 2)"
  | denied => "Permission denied (os error 13)"
  | notDirectory => "Not a directory (os error 20)"
  | directory => "Is a directory (os error 21)"
  | nameTooLong => "File name too long (os error 36)"
  | notText => "stream did not contain valid UTF-8"
  | system text => text

abbrev Files : Type := String → Except FileFault ByteArray

def longestName : Nat := 255

def longestPath : Nat := 4095

inductive Directory where
  | start
  | root
  | devices
  /-- Any other directory. Nothing is known of what it holds, and it is taken to be empty. -/
  | elsewhere
  deriving Repr, DecidableEq

inductive Place where
  | directory (directory : Directory)
  | file (bytes : ByteArray)

def Directory.parent : Directory → Directory
  | start => elsewhere
  | root => root
  | devices => root
  | elsewhere => elsewhere

/-- What a directory holds under a name, where the start holds some files. Of files with one name
the last one counts. The null device and the standard input are empty. -/
def Directory.entry? (files : List (String × ByteArray)) (name : String) :
    Directory → Option Place
  | start => (files.reverse.lookup name).map .file
  | root =>
    if name = "dev" then some (.directory devices)
    else if name = "tmp" then some (.directory elsewhere)
    else none
  | devices => if name = "null" ∨ name = "stdin" then some (.file .empty) else none
  | elsewhere => none

/-- Goes on to a name. One dot and the empty name stand for a directory itself and two dots for the
one above it. Nothing is reached through a file, not even the file itself. -/
def Place.enter (files : List (String × ByteArray)) : Place → String → Except FileFault Place
  | file _, _ => .error .notDirectory
  | directory here, name =>
    if name = "" ∨ name = "." then .ok (directory here)
    else if name = ".." then .ok (directory here.parent)
    else if longestName < name.utf8ByteSize then .error .nameTooLong
    else
      match here.entry? files name with
      | some place => .ok place
      | none => .error .missing

def Place.ofPath (files : List (String × ByteArray)) (path : String) : Except FileFault Place :=
  if path.isEmpty then .error .missing
  else if longestPath < path.utf8ByteSize then .error .nameTooLong
  else
    let first := if path.front = '/' then Directory.root else Directory.start
    ((Text.splitAtAll (· == '/') path.toList).map String.ofList).foldlM (Place.enter files)
      (directory first)

def Files.ofList (files : List (String × ByteArray)) : Files := fun path =>
  match Place.ofPath files path with
  | .error fault => .error fault
  | .ok (.directory _) => .error .directory
  | .ok (.file bytes) => .ok bytes

def joinedLines (bytes : ByteArray) : Except FileFault String :=
  match (Text.lines bytes).mapM id with
  | none => .error .notText
  | some lines =>
    .ok (String.ofList (lines.flatMap fun line => Text.trimBlanks line.toList))

end Satisfiability.CommandLine
