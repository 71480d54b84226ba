import Quill.Gzip.Member
import Quill.Text.Encoding

/-!
# Raw input

Input arrives as bytes: the UTF-8 encoding of a text, as it is or in a gzip member.
-/

namespace Quill

/-- Why bytes are refused as input. -/
inductive InputError where
  /-- They start like a gzip member and are none, or hold no text. -/
  | corrupt
  /-- They are no UTF-8 encoding. -/
  | notText
deriving DecidableEq

namespace InputError

def message : InputError → String
  | .corrupt => "Failed to decompress gzipped input"
  | .notText => "Invalid UTF-8 in input"

end InputError

/-- The text in a gzip member. -/
def Gzip.text? (bytes : List UInt8) : Option String :=
  (Gzip.decompress? bytes).bind Text.ofBytes?

/-- The text that input bytes hold. -/
def inputText (bytes : List UInt8) : Except InputError String :=
  if Gzip.isCompressed bytes then (Gzip.text? bytes).elim (.error .corrupt) .ok
  else (Text.ofBytes? bytes).elim (.error .notText) .ok

end Quill
