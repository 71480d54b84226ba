import Quill.Command.Request
import Quill.Files.Document
import Quill.Listing
import Quill.Tree.Leaves

/-!
# Running commands

A run takes a request, the settings file and the input, works on files, and gives the exit code
and what is printed.  The input is nothing where it is a terminal.
-/

namespace Quill

/-- Why a command fails. -/
inductive CommandError where
  | format (e : UnknownFormat)
  | input (e : InputError)
  | document (e : DocumentError)
  | load (e : LoadError)
  | path (e : PathError)
  | save (name : String) (e : SaveError)
  /-- There is no file, and the input is a terminal. -/
  | noInput
  /-- There is no file to write back to. -/
  | noFile
deriving DecidableEq

namespace CommandError

def message : CommandError → String
  | .format e => e.message
  | .input e => e.message
  | .document e => e.message
  | .load e => e.message
  | .path e => e.message
  | .save name _ => "Failed to save " ++ name
  | .noInput => "No input: pass a file or pipe a document to stdin"
  | .noFile => "--in-place needs a file"

end CommandError

/-- How a command ends if it does not fail. -/
inductive Answer where
  | print (v : Value)
  | silent
  /-- What was asked for is not there. -/
  | absent
deriving DecidableEq

namespace Command

variable {m : Type → Type} [Monad m]

/-- Carry out an operation on paths with a navigator that has parsed nothing yet. -/
def navigate {α : Type} (s : Settings) (operation : Navigation α) : ExceptT CommandError m α :=
  liftExcept ((operation.run s.navigator).1.mapError CommandError.path)

/-- The document that is given as input. -/
def ofInput : Option (List UInt8) → Except CommandError Tree
  | some bytes => do
      let text ← (inputText bytes).mapError CommandError.input
      (Tree.ofText text).mapError CommandError.document
  | none => throw .noInput

/-- The document of a command: of its file, or else of the input. -/
def document [FileAccess m] (input : m (Option (List UInt8))) :
    Option String → ExceptT CommandError m Tree
  | some name => (Tree.load (m := m) name).adapt .load
  | none => do
      let given : Option (List UInt8) ← input
      liftExcept (ofInput given)

/-- The value that a command line gives: of a JSON text, or else a string. -/
def valueOf (text : String) : Value :=
  match Json.ofText? text with
  | some j => j.toValue
  | none => .string text

/-- Print a changed document or write it back to its file. -/
def finish [FileAccess m] (t : Tree) (file : Option String) (inPlace : Bool) (s : Settings) :
    ExceptT CommandError m Answer :=
  if !inPlace then return .print (.map t)
  else
    match file with
    | some name => do
        (Tree.save (m := m) t name s).adapt (.save name)
        return .silent
    | none => throw .noFile

/-- What the rows of a list are placed under. -/
def rowKey (key : Option String) (preserveKeys : Bool) : RowKey :=
  if preserveKeys then .preserved
  else
    match key with
    | some name => .ofText name
    | none => .numbered

/-- Carry out a command. -/
def answer [FileAccess m] (s : Settings) (input : m (Option (List UInt8))) :
    Command → ExceptT CommandError m Answer
  | .get path file default => do
      let t ← document input file
      let default := (default.map valueOf).getD .null
      return .print (← navigate s (Navigator.get t (.text path) default none))
  | .has path file => do
      let t ← document input file
      if ← navigate s (Navigator.has t (.text path) none) then return .silent else return .absent
  | .set path value file inPlace => do
      let t ← document input file
      let t ← navigate (m := m) s (Navigator.set t (.text path) (valueOf value) none)
      finish t file inPlace s
  | .remove path file inPlace keepEmpty => do
      let t ← document input file
      let t ← navigate (m := m) s (Navigator.remove t (.text path) (keepEmpty || s.keepEmpty) none)
      finish t file inPlace s
  | .list columns file key preserveKeys => do
      let rows ← document input file
      let operation := Listing.list rows (.ofText columns) (rowKey key preserveKeys) .null none
      return .print (.map (← navigate s operation))
  | .parse path => do
      return .print (← navigate s (Navigator.parse (.text path) s.separator false)).toValue
  | .flatten file => do
      let t ← document input file
      return .print (.map (t.flatten s.separator))
  | .unflatten file => do
      let t ← document input file
      return .print (.map (← navigate s (Navigator.unflatten t)))

/-- The text of a value in a format; only maps are indented. -/
def render (format : Format) (indent : Json.Indent) : Value → String
  | .map t => t.write format indent
  | v =>
      match format with
      | .json => (Json.ofValue v).toText none
      | .yaml => Yaml.toText (Json.ofValue v)

/-- A value as it is printed: without blanks at the end, on a line of its own. -/
def printed (format : Format) (indent : Json.Indent) (v : Value) : String :=
  String.ofList (Text.trimEnd (render format indent v).toList ++ ['\n'])

end Command

/-- How a run ends. -/
structure Outcome where
  exitCode : Nat
  output : String
  /-- Why the run failed. -/
  failure : Option CommandError
deriving DecidableEq

/-- The settings with the shared options in their place. -/
def Settings.withOptions (s : Settings) (o : Options) : Settings :=
  { s with
    separator := o.separator.getD s.separator
    outputFormat := o.format.getD s.outputFormat }

namespace Command

/-- The name of the program. -/
def programName : String := "treequill"

/-- The version of the program. -/
def programVersion : String := "0.2.1"

/-- Run a command.  The format of the output is looked at first. -/
def outcome {m : Type → Type} [Monad m] [FileAccess m] (c : Command) (s : Settings)
    (isCompact : Bool) (input : m (Option (List UInt8))) : ExceptT CommandError m Outcome := do
  let format ← liftExcept ((Format.ofName s.outputFormat).mapError CommandError.format)
  let indent : Json.Indent := if isCompact then none else some s.indentSize
  match ← c.answer s input with
  | .print v => return ⟨0, printed format indent v, none⟩
  | .silent => return ⟨0, "", none⟩
  | .absent => return ⟨1, "", none⟩

end Command

/-- What a run finds beside files and input. -/
structure Surroundings where
  /-- Whether the input is a terminal. -/
  isTerminal : Bool := false
  /-- The help texts, of the program and of its commands. -/
  helpText : Option String → String := fun _ => ""

/-- The input, unless it is a terminal. -/
def Surroundings.given {m : Type → Type} [Monad m] (surroundings : Surroundings)
    (input : m (List UInt8)) : m (Option (List UInt8)) :=
  if surroundings.isTerminal then pure none else some <$> input

namespace Request

/-- Run a request with the contents of the settings file. -/
def run {m : Type → Type} [Monad m] [FileAccess m] (r : Request) (settings : Option (List UInt8))
    (input : m (List UInt8)) (surroundings : Surroundings) : m Outcome := do
  match r with
  | .version => return ⟨0, Command.programName ++ " " ++ Command.programVersion ++ "\n", none⟩
  | .help topic => return ⟨0, surroundings.helpText topic, none⟩
  | .command options c =>
      let s := (Settings.ofBytes settings).withOptions options
      match ← (c.outcome s options.isCompact (surroundings.given input)).run with
      | .ok outcome => return outcome
      | .error e => return ⟨1, "", some e⟩

/-- Run what arguments ask for, if they are well formed. -/
def runArguments {m : Type → Type} [Monad m] [FileAccess m] (arguments : List String)
    (settings : Option (List UInt8)) (input : m (List UInt8)) (surroundings : Surroundings := {}) :
    m (Option Outcome) := do
  match ofArguments? arguments with
  | some r => return some (← r.run settings input surroundings)
  | none => return none

/-- The exit code of a run; arguments that are not well formed have one of their own. -/
def exitCode : Option Outcome → Nat
  | some outcome => outcome.exitCode
  | none => 2

end Request

end Quill
