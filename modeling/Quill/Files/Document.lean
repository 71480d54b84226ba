import Quill.Document
import Quill.Settings
import Quill.Input

/-!
# Documents in files

Loading and saving trees.  The name of a file tells the format of its contents and whether they
are compressed.  A file is saved under another name first and then moved to its place.
-/

namespace Quill

/-- Why a file cannot be loaded. -/
inductive LoadError where
  | unreadable (name : String)
  /-- A compressed file is not there. -/
  | missing
  /-- A compressed file is damaged. -/
  | corrupt
  | document (e : DocumentError)
deriving DecidableEq

namespace LoadError

def message : LoadError → String
  | .unreadable name => "Failed to read file: " ++ name
  | .missing => "Failed to open gzipped file"
  | .corrupt => "Failed to decompress gzipped file - file may be corrupted"
  | .document e => e.message

end LoadError

/-- Why a file cannot be saved. -/
inductive SaveError where
  | format (e : UnknownFormat)
  /-- A file to be kept has no name. -/
  | noFileName
  | backup
  /-- The file cannot be written under its first name. -/
  | temporary (isCompressed : Bool) (e : WriteError)
  /-- The file cannot be moved to its place. -/
  | rename
deriving DecidableEq

namespace SaveError

def message : SaveError → String
  | .format e => e.message
  | .noFileName => "Invalid file name"
  | .backup => "Failed to create backup"
  | .temporary false _ => "Failed to write temp file"
  | .temporary true .unopened => "Failed to create temp file"
  | .temporary true .cut => "Failed to write compressed data"
  | .temporary true .unfinished => "Failed to finish compression"
  | .rename => "Failed to rename temp file"

end SaveError

namespace Place

/-- Whether the contents of a file are compressed. -/
def isCompressed (p : Place) : Bool :=
  p.extension? == some "gz"

/-- The place of a file that keeps the old contents of another. -/
def backup? (p : Place) : Option Place :=
  p.fileName?.map fun name => p.withFileName (name ++ ".bak")

/-- The place where a file is written first. -/
def temporary (p : Place) : Place :=
  p.withExtension "tmp"

end Place

namespace Tree

variable {m : Type → Type} [Monad m] [FileAccess m]

/-- The text in a file. -/
def loadText (name : String) : ExceptT LoadError m String := do
  let p := Place.ofName name
  let contents : Except ReadError (List UInt8) ← FileAccess.read (m := m) p
  if p.isCompressed then
    match contents with
    | .ok bytes => (Gzip.text? bytes).elim (throw .corrupt) pure
    | .error .unopened => throw .missing
    | .error .unread => throw .corrupt
  else (contents.toOption.bind Text.ofBytes?).elim (throw (.unreadable name)) pure

/-- The tree in a file. -/
def load (name : String) : ExceptT LoadError m Tree := do
  let text ← loadText name
  liftExcept ((read (Format.ofFileName? name) text).mapError LoadError.document)

/-- A text that ends with a line break. -/
def endedLine (s : String) : String :=
  if s.toList.getLast? = some '\n' then s else s ++ "\n"

/-- The format of a file: the one its name tells, or else the one of the settings. -/
def fileFormat (name : String) (settings : Settings) : Except UnknownFormat Format :=
  match Format.ofFileName? name with
  | some f => .ok f
  | none => Format.ofName settings.outputFormat

/-- Fail unless an operation is carried out. -/
def attempt (e : SaveError) (operation : m Bool) : ExceptT SaveError m Unit := do
  let isDone : Bool ← operation
  if !isDone then throw e

/-- Keep the contents of a file, if there is one, under another name. -/
def keepBackup (p : Place) : ExceptT SaveError m Unit := do
  let isThere : Bool ← FileAccess.isTaken (m := m) p
  if isThere then
    match p.backup? with
    | some backup => attempt .backup (FileAccess.copy p backup)
    | none => throw .noFileName

/-- Write a file under its first name. -/
def writeFirst (p : Place) (contents : List UInt8) : ExceptT SaveError m Unit := do
  let written : Except WriteError Unit ← FileAccess.write (m := m) p.temporary contents
  liftExcept (written.mapError (SaveError.temporary p.isCompressed))

/-- What a file holds once a tree is saved in it. -/
def fileContents (t : Tree) (p : Place) (format : Format) (settings : Settings) : List UInt8 :=
  let bytes := Text.toBytes (endedLine (t.write format (some settings.indentSize)))
  if p.isCompressed then Gzip.compress bytes else bytes

/-- Save a tree in a file. -/
def save (t : Tree) (name : String) (settings : Settings) : ExceptT SaveError m Unit := do
  let p := Place.ofName name
  let format ← liftExcept ((fileFormat name settings).mapError SaveError.format)
  if settings.createBackup then keepBackup p
  writeFirst p (t.fileContents p format settings)
  attempt .rename (FileAccess.rename p.temporary p)

end Tree

end Quill
