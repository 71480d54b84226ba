/-!
# Texts as bytes

The UTF-8 encoding of texts and its reading, which refuses every byte sequence that no text has.
-/

namespace Quill.Text

/-- The UTF-8 encoding of a text. -/
def toBytes (s : String) : List UInt8 :=
  s.toUTF8.toList

/-- The text with the given UTF-8 encoding. -/
def ofBytes? (bytes : List UInt8) : Option String :=
  String.fromUTF8? ⟨bytes.toArray⟩

end Quill.Text
