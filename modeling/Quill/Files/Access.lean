import Quill.Files.Place

/-!
# Access to files

What saving and loading need from the files they work on.  Every operation may fail, for the names
it is given or because the system does not carry it out.
-/

namespace Quill

/-- How reading a file fails. -/
inductive ReadError where
  /-- The file cannot be opened. -/
  | unopened
  /-- The file is open, and its contents cannot be read. -/
  | unread
deriving DecidableEq

/-- How writing a file fails. -/
inductive WriteError where
  /-- The file cannot be opened. -/
  | unopened
  /-- The file is open, and not all of the contents reach it. -/
  | cut
  /-- The file is open, and the contents cannot be completed. -/
  | unfinished
deriving DecidableEq

/-- Why folders cannot be made. -/
inductive FolderError where
  /-- A file has the name of the folder. -/
  | fileExists
  /-- A file has the name of a folder on the way. -/
  | notFolder
deriving DecidableEq

namespace FolderError

def message : FolderError → String
  | .fileExists => "File exists (os error 17)"
  | .notFolder => "Not a directory (os error 20)"

end FolderError

/-- The operations on files; those with a truth value tell whether they were carried out. -/
class FileAccess (m : Type → Type) where
  /-- The contents of the file at a place. -/
  read : Place → m (Except ReadError (List UInt8))
  /-- Whether there is a file or a folder at a place. -/
  isTaken : Place → m Bool
  /-- Write a file, in place of one that is there.  Opening it takes away what it holds. -/
  write : Place → List UInt8 → m (Except WriteError Unit)
  /-- Write the contents of one file into another. -/
  copy (source target : Place) : m Bool
  /-- Move a file, in place of one at the target. -/
  rename (source target : Place) : m Bool
  /-- Make the folders on the way to a place, as far as they are missing. -/
  makeFolders : Place → m (Except FolderError Unit)

end Quill
