import Quill.Command.Run

/-!
# The command line program

Files, input and output are those of the system.  The settings are in the folder of the program
below `.config` in the home of the user.
-/

namespace Quill

/-- The name that leads to a place. -/
def Place.name (p : Place) : String :=
  (if p.isAbsolute then "/" else "") ++ "/".intercalate p.parts ++ (if p.isFolder then "/" else "")

namespace Shell

/-- Whether an action ends without an error. -/
def succeeds (action : IO Unit) : IO Bool := do
  try
    action
    return true
  catch _ => return false

/-- The contents of a file. -/
def contents? (name : String) : IO (Option (List UInt8)) := do
  try return some (← IO.FS.readBinFile name).toList
  catch _ => return none

/-- Write a file. -/
def write (name : String) (bytes : List UInt8) : IO Unit :=
  IO.FS.writeBinFile name ⟨bytes.toArray⟩

/-- Open a file and work on it, with an error for each of the two steps. -/
def withFile {ε α : Type} (name : String) (mode : IO.FS.Mode) (unopened : ε)
    (work : IO.FS.Handle → IO (Except ε α)) : IO (Except ε α) := do
  match ← (IO.FS.Handle.mk name mode).toBaseIO with
  | .ok file => work file
  | .error _ => return .error unopened

instance : FileAccess IO where
  read p := withFile p.name .read .unopened fun file => do
    try return .ok (← file.readBinToEnd).toList
    catch _ => return .error .unread
  isTaken p := succeeds do
    let _ ← IO.FS.realPath p.name
  write p bytes := withFile p.name .write .unopened fun file => do
    if !(← succeeds (file.write ⟨bytes.toArray⟩)) then return .error .cut
    if !(← succeeds file.flush) then return .error .unfinished
    return .ok ()
  copy source target := succeeds do
    write target.name (← IO.FS.readBinFile source.name).toList
  rename source target := succeeds (IO.FS.rename source.name target.name)
  makeFolders p := do
    try
      IO.FS.createDirAll ((if p.isAbsolute then "/" else "") ++ "/".intercalate p.folder)
      return .ok ()
    catch e =>
      match e with
      | .alreadyExists .. => return .error .fileExists
      | _ => return .error .notFolder

/-- The contents of the settings file. -/
def settings? : IO (Option (List UInt8)) := do
  match ← IO.getEnv "HOME" with
  | some home => contents? ("/".intercalate [home, ".config", Command.programName, "config.toml"])
  | none => return none

/-- The whole input. -/
def input : IO (List UInt8) := do
  return (← (← IO.getStdin).readBinToEnd).toList

/-- How the program or one of its commands is used. -/
def helpText : Option String → String
  | none => "Usage: " ++ Command.programName ++ " [OPTIONS] <COMMAND>\n"
  | some name => "Usage: " ++ Command.programName ++ " " ++ name ++ " [OPTIONS] [ARGUMENTS]\n"

end Shell

end Quill

open Quill in
def main (arguments : List String) : IO UInt32 := do
  let surroundings : Surroundings := ⟨← (← IO.getStdin).isTty, Shell.helpText⟩
  let result ← Request.runArguments arguments (← Shell.settings?) Shell.input surroundings
  match result with
  | none => IO.eprintln "error: invalid arguments"
  | some outcome =>
      IO.print outcome.output
      if let some e := outcome.failure then IO.eprintln ("Error: " ++ e.message)
  return UInt32.ofNat (Request.exitCode result)
