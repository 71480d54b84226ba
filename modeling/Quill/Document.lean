import Quill.Json.Reading
import Quill.Json.Writing
import Quill.Yaml.Document
import Quill.Yaml.Writing
import Quill.Text.Search

/-!
# Documents

Trees as JSON and YAML texts: reading, writing and the choice of the format.
-/

namespace Quill

/-- The formats of documents. -/
inductive Format where
  | json
  | yaml
deriving DecidableEq

/-- Why a text is refused as a document. -/
inductive DocumentError where
  | invalidJson
  /-- A JSON text that is neither object nor array. -/
  | scalarJson (found : String)
  | invalidYaml
  /-- A YAML text that is neither mapping nor sequence. -/
  | scalarYaml (found : String)
  /-- A mapping with a collection for a key. -/
  | unsupportedKey (key : String)
  /-- A text of unknown format that no format accepts. -/
  | noFormat
deriving DecidableEq

/-- No format has the given name. -/
structure UnknownFormat where
  name : String
deriving DecidableEq

namespace UnknownFormat

def message (e : UnknownFormat) : String :=
  "Unknown format: " ++ e.name

end UnknownFormat

namespace DocumentError

def message : DocumentError → String
  | .invalidJson => "Failed to parse JSON"
  | .scalarJson found => "Expected a JSON object or array at the root, found " ++ found
  | .invalidYaml => "Failed to parse YAML"
  | .scalarYaml found => "Expected a YAML mapping or sequence at the root, found " ++ found
  | .unsupportedKey key => "Unsupported YAML mapping key: " ++ key
  | .noFormat => "Input is neither valid JSON nor valid YAML"

end DocumentError

namespace Format

/-- The format with a name, in any case. -/
def ofName (name : String) : Except UnknownFormat Format :=
  let lower := Text.asciiLower name.toList
  if lower = "json".toList then .ok .json
  else if lower = "yaml".toList ∨ lower = "yml".toList then .ok .yaml
  else .error ⟨String.ofList lower⟩

/-- The name of a format. -/
def name : Format → String
  | .json => "json"
  | .yaml => "yaml"

/-- The ending of file names with compressed contents. -/
def gzipEnding : List Char := ".gz".toList

/-- The format that the ending of a file name tells, in any case and in front of a possible
`.gz`. -/
def ofFileName? (path : String) : Option Format :=
  let lower := Text.asciiLower path.toList
  let base := if gzipEnding.isSuffixOf lower then lower.dropLast.dropLast.dropLast else lower
  if ".yaml".toList.isSuffixOf base || ".yml".toList.isSuffixOf base then some .yaml
  else if ".json".toList.isSuffixOf base then some .json
  else none

end Format

namespace Tree

/-- The tree of a JSON text. -/
def ofJson (s : String) : Except DocumentError Tree :=
  match Json.ofText? s with
  | none => .error .invalidJson
  | some j =>
      match j.toValue with
      | .map t => .ok t
      | v => .error (.scalarJson v.text)

/-- The tree of a YAML text. -/
def ofYaml (s : String) : Except DocumentError Tree :=
  match Yaml.ofText? s with
  | none => .error .invalidYaml
  | some y =>
      match y.toValue with
      | .error key => .error (.unsupportedKey key)
      | .ok (.map t) => .ok t
      | .ok v => .error (.scalarYaml v.text)

/-- The tree of a text in some format: a JSON text, or else a YAML text. -/
def ofText (s : String) : Except DocumentError Tree :=
  match ofJson s with
  | .ok t => .ok t
  | .error _ => (ofYaml s).mapError fun _ => .noFormat

/-- The tree of a text, in the given format if one is given. -/
def read (format : Option Format) (s : String) : Except DocumentError Tree :=
  match format with
  | some .json => ofJson s
  | some .yaml => ofYaml s
  | none => ofText s

/-- The text of a tree; the indentation is that of JSON texts. -/
def write (format : Format) (indent : Json.Indent) (t : Tree) : String :=
  match format with
  | .json => (Json.ofTree t).toText indent
  | .yaml => Yaml.toText (Json.ofTree t)

end Tree

end Quill
