import Satisfiability.CommandLine.Response

/-!
# The program

Reads the file that the arguments name, if any, prints the response and exits with its code.
-/

namespace Satisfiability.CommandLine

/-- The number of an error of the system, which is given as such or negated. -/
def errorNumber (code : UInt32) : UInt32 := min code (-code)

def FileFault.ofError : IO.Error → FileFault
  | .noFileOrDirectory _ _ _ => .missing
  | .permissionDenied _ _ _ => .denied
  | .inappropriateType _ code _ => if errorNumber code = 20 then .notDirectory else .directory
  | .invalidArgument path code details =>
    if errorNumber code = 36 then .nameTooLong
    else .system (toString (IO.Error.invalidArgument path code details))
  | error => .system (toString error)

def readPath (path : String) : IO (Except FileFault ByteArray) := do
  try
    return .ok (← IO.FS.readBinFile path)
  catch error => return .error (.ofError error)

def Request.path? : Request → Option String
  | .solve mode input arguments =>
    if mode = .clauseFile ∨ arguments.flags.contains .file then some input else none
  | _ => none

end Satisfiability.CommandLine

open Satisfiability.CommandLine in
def main (words : List String) : IO UInt32 := do
  let request := Request.ofWords words
  let content ← match request.path? with
    | some path => readPath path
    | none => pure (.error .missing)
  let response := run (fun _ => content) request
  IO.print response.text
  return response.code.toUInt32
