import Quill.Text.Search

/-!
# Places

A file name leads along its parts, between slashes, to a place.  The last part has a stem and
may have an extension behind its last dot; a dot at its front belongs to the stem.
-/

namespace Quill

/-- Where a file name leads. -/
structure Place where
  /-- Whether the name starts at the root of all files. -/
  isAbsolute : Bool
  /-- The parts, without those that lead nowhere. -/
  parts : List String
  /-- Whether only a folder can be meant. -/
  isFolder : Bool
deriving DecidableEq

namespace Place

/-- The part that leads to the folder above. -/
def above : String := ".."

/-- Whether a part leads nowhere. -/
def isIdle (part : String) : Bool :=
  part.isEmpty || part == "."

/-- The place of a file name. -/
def ofName (name : String) : Place :=
  let parts := (name.toList.splitOn '/').map String.ofList
  { isAbsolute := name.front? == some '/'
    parts := parts.filter (!isIdle ·)
    isFolder := parts.getLast?.all fun part => isIdle part || part == above }

/-- The last part, if it is a name. -/
def fileName? (p : Place) : Option String :=
  p.parts.getLast?.filter (· ≠ above)

/-- The stem of a part and the extension. -/
def splitExtension (part : String) : String × Option String :=
  match Text.splitLast? ['.'] part.toList with
  | some (stem, extension) =>
      if stem.isEmpty then (part, none)
      else (String.ofList stem, some (String.ofList extension))
  | none => (part, none)

def extension? (p : Place) : Option String :=
  p.fileName?.bind fun part => (splitExtension part).2

/-- The folder of a place. -/
def folder (p : Place) : List String :=
  p.parts.dropLast

/-- The place of another name in the same folder. -/
def withFileName (p : Place) (name : String) : Place :=
  { p with parts := p.folder ++ [name], isFolder := false }

/-- The place with another extension, or the same place if it has no name. -/
def withExtension (p : Place) (extension : String) : Place :=
  match p.fileName? with
  | some part => p.withFileName ((splitExtension part).1 ++ "." ++ extension)
  | none => p

end Place

end Quill
