import Quill.Command.Arguments

/-!
# Requests

What a command line asks for: the version, a help text, or a command with the options that all
commands share.
-/

namespace Quill

/-- The commands.  A document comes from a file or else from the input. -/
inductive Command where
  /-- Print the value at a path. -/
  | get (path : String) (file : Option String) (default : Option String)
  /-- Tell whether there is something at a path. -/
  | has (path : String) (file : Option String)
  /-- Set the value at a path. -/
  | set (path value : String) (file : Option String) (inPlace : Bool)
  /-- Remove the values at a path. -/
  | remove (path : String) (file : Option String) (inPlace keepEmpty : Bool)
  /-- Read columns of a table. -/
  | list (columns : String) (file : Option String) (key : Option String) (preserveKeys : Bool)
  /-- Print the structure of a path. -/
  | parse (path : String)
  /-- Make a document flat. -/
  | flatten (file : Option String)
  /-- Make a document out of a flat one. -/
  | unflatten (file : Option String)
deriving DecidableEq

/-- The options that all commands share. -/
structure Options where
  separator : Option String
  format : Option String
  isCompact : Bool
deriving DecidableEq

/-- What a command line asks for. -/
inductive Request where
  | version
  /-- The help text of the program or of a command. -/
  | help (topic : Option String)
  | command (options : Options) (command : Command)
deriving DecidableEq

namespace Request

def separatorFlag : Flag := ⟨'s', "separator", .valued⟩
def formatFlag : Flag := ⟨'f', "format", .valued⟩
def compactFlag : Flag := ⟨'c', "compact", .switch⟩
def versionFlag : Flag := ⟨'V', "version", .final⟩
def helpFlag : Flag := ⟨'h', "help", .final⟩
def defaultFlag : Flag := ⟨'d', "default", .valued⟩
def inPlaceFlag : Flag := ⟨'i', "in-place", .switch⟩
def keepEmptyFlag : Flag := ⟨'k', "keep-empty", .switch⟩
def keyFlag : Flag := ⟨'k', "key", .valued⟩
def preserveKeysFlag : Flag := ⟨'p', "preserve-keys", .switch⟩

/-- The flags of the options that all commands share. -/
def sharedFlags : List Flag := [separatorFlag, formatFlag, compactFlag]

/-- The flags of a command. -/
def flagsOf? : String → Option (List Flag)
  | "get" => some [defaultFlag]
  | "has" => some []
  | "set" => some [inPlaceFlag]
  | "remove" => some [inPlaceFlag, keepEmptyFlag]
  | "list" => some [keyFlag, preserveKeysFlag]
  | "parse" => some []
  | "flatten" => some []
  | "unflatten" => some []
  | _ => none

/-- The file that further words name, one at most; a file has a name. -/
def file? : List String → Option (Option String)
  | [] => some none
  | [name] => if name.isEmpty then none else some (some name)
  | _ => none

/-- The command with a name, flags and words. -/
def command? (name : String) (s : Scanned) : Option Command :=
  match name, s.words with
  | "get", path :: rest => (file? rest).map (.get path · (s.value? defaultFlag.name))
  | "has", path :: rest => (file? rest).map (.has path ·)
  | "set", path :: value :: rest =>
      (file? rest).map (.set path value · (s.has inPlaceFlag.name))
  | "remove", path :: rest =>
      (file? rest).map (.remove path · (s.has inPlaceFlag.name) (s.has keepEmptyFlag.name))
  | "list", columns :: rest =>
      if s.has keyFlag.name && s.has preserveKeysFlag.name then none
      else
        (file? rest).map (.list columns · (s.value? keyFlag.name) (s.has preserveKeysFlag.name))
  | "parse", [path] => some (.parse path)
  | "flatten", rest => (file? rest).map .flatten
  | "unflatten", rest => (file? rest).map .unflatten
  | _, _ => none

/-- Whether a command takes words: its own, and then the name of a file. -/
def takesWords (name : String) (words : List String) : Bool :=
  match name with
  | "parse" => words.length ≤ 1
  | "set" => (file? (words.drop 2)).isSome
  | "flatten" => (file? words).isSome
  | "unflatten" => (file? words).isSome
  | _ => (file? (words.drop 1)).isSome

/-- The word that asks for a help text. -/
def helpWord : String := "help"

/-- What further words ask for help about. -/
def helpTopic? : List String → Option (Option String)
  | [] => some none
  | [name] => if name = helpWord || (flagsOf? name).isSome then some (some name) else none
  | _ => none

/-- The shared options, given in front of the command or behind it, where they count more. -/
def options (front behind : Scanned) : Options where
  separator := (behind.value? separatorFlag.name).or (front.value? separatorFlag.name)
  format := (behind.value? formatFlag.name).or (front.value? formatFlag.name)
  isCompact := behind.has compactFlag.name || front.has compactFlag.name

/-- What a command's name and the arguments behind it ask for, if they are well formed.  A help text
is given as soon as it is asked for, whatever the command lacks. -/
def ofCommandArguments? (front : Scanned) (name : String) (rest : List String) :
    Option Request := do
  let own ← flagsOf? name
  let behind ← Flag.scan? (helpFlag :: sharedFlags ++ own) false rest
  if !behind.isValid then none
  else if behind.has helpFlag.name then
    if takesWords name behind.words then some (.help (some name)) else none
  else return .command (options front behind) (← command? name behind)

/-- What arguments ask for, if they are well formed. -/
def ofArguments? (arguments : List String) : Option Request := do
  let front ← Flag.scan? (versionFlag :: helpFlag :: sharedFlags) true arguments
  if !front.isValid then none
  else if front.has versionFlag.name then some .version
  else if front.has helpFlag.name then some (.help none)
  else
    match front.words with
    | [] => none
    | name :: rest =>
        if name = helpWord then (helpTopic? rest).map .help
        else ofCommandArguments? front name rest

end Request

end Quill
