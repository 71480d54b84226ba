import Quill.Path.Basic
import Quill.Path.Cache
import Quill.Navigator
import Quill.Toml.Reading
import Quill.Files.Access
import Quill.Text.Encoding

/-!
# Settings

The settings of the command line, kept in a TOML file.  A file that is missing or wrong in any
way counts as one that sets nothing.
-/

namespace Quill

structure Settings where
  /-- The separator of path expressions. -/
  separator : String := Path.defaultSeparator
  /-- How many parsed paths are kept. -/
  cacheCapacity : Nat := Cache.defaultCapacity
  /-- Whether removals keep the maps they empty. -/
  keepEmpty : Bool := false
  /-- The indentation of JSON texts. -/
  indentSize : Nat := 2
  /-- The name of the format of output. -/
  outputFormat : String := "json"
  /-- Whether saving keeps the old contents of a file in another. -/
  createBackup : Bool := false
deriving DecidableEq

namespace Settings

/-- The navigator that the settings ask for. -/
def navigator (s : Settings) : Navigator :=
  .fresh s.separator s.cacheCapacity

/-- A string entry, the default where it is missing. -/
def stringEntry? (es : Toml.Entries) (key : String) (default : String) : Option String :=
  match es.lookup key with
  | none => some default
  | some (.string s) => some s
  | some _ => none

/-- An entry with a natural number, the default where it is missing. -/
def natEntry? (es : Toml.Entries) (key : String) (default : Nat) : Option Nat :=
  match es.lookup key with
  | none => some default
  | some (.integer n) => if 0 ≤ n then some n.toNat else none
  | some _ => none

/-- An entry with a truth value, the default where it is missing. -/
def boolEntry? (es : Toml.Entries) (key : String) (default : Bool) : Option Bool :=
  match es.lookup key with
  | none => some default
  | some (.bool b) => some b
  | some _ => none

/-- The settings of the entries of a TOML text; other entries are passed over. -/
def ofEntries? (es : Toml.Entries) : Option Settings := do
  let base : Settings := {}
  return {
    separator := ← stringEntry? es "separator" base.separator
    cacheCapacity := ← natEntry? es "cache_capacity" base.cacheCapacity
    keepEmpty := ← boolEntry? es "keep_empty" base.keepEmpty
    indentSize := ← natEntry? es "indent_size" base.indentSize
    outputFormat := ← stringEntry? es "output_format" base.outputFormat
    createBackup := ← boolEntry? es "create_backup" base.createBackup }

/-- The settings that the contents of a file give. -/
def ofBytes (bytes : Option (List UInt8)) : Settings :=
  (((bytes.bind Text.ofBytes?).bind Toml.ofText?).bind ofEntries?).getD {}

/-- The settings in a file. -/
def load {m : Type → Type} [Monad m] [FileAccess m] (name : String) : m Settings := do
  return ofBytes (← FileAccess.read (.ofName name)).toOption

/-- A line with an entry. -/
def line (key : String) (value : List Char) : List Char :=
  key.toList ++ " = ".toList ++ value ++ ['\n']

/-- The text of a truth value. -/
def boolText (b : Bool) : List Char :=
  if b then "true".toList else "false".toList

/-- The TOML text of settings. -/
def toText (s : Settings) : String :=
  String.ofList (
    line "separator" (Toml.quoted s.separator.toList)
    ++ line "cache_capacity" (Decimal.digits s.cacheCapacity)
    ++ line "keep_empty" (boolText s.keepEmpty)
    ++ line "indent_size" (Decimal.digits s.indentSize)
    ++ line "output_format" (Toml.quoted s.outputFormat.toList)
    ++ line "create_backup" (boolText s.createBackup))

/-- Whether the numbers are ones that a TOML text can hold. -/
def fitsText (s : Settings) : Bool :=
  (s.cacheCapacity : Int) ≤ Toml.maxInteger && (s.indentSize : Int) ≤ Toml.maxInteger

end Settings

/-- Why settings cannot be saved. -/
inductive SettingsError where
  | folders (e : FolderError)
  /-- A number is too great for a TOML text. -/
  | outOfRange
  | unwritable (name : String)
deriving DecidableEq

namespace SettingsError

def message : SettingsError → String
  | .folders e => e.message
  | .outOfRange => "out-of-range value for u64 type"
  | .unwritable name => "Failed to write config: " ++ name

end SettingsError

namespace Settings

/-- Save settings in a file, with the folders on the way.  The folders are there afterwards even
if the file cannot be written. -/
def save {m : Type → Type} [Monad m] [FileAccess m] (s : Settings) (name : String) :
    ExceptT SettingsError m Unit := do
  let p := Place.ofName name
  if let .error e ← FileAccess.makeFolders (m := m) p then throw (.folders e)
  if !s.fitsText then throw .outOfRange
  if let .error _ ← FileAccess.write (m := m) p (Text.toBytes s.toText) then
    throw (.unwritable name)

end Settings

end Quill
