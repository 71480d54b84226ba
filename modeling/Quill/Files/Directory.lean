import Quill.Files.Access

/-!
# Directories

The files and folders of a machine as a value, seen from a working directory, and the ways of
working with them.  What befalls the operations to come is part of the value: an operation can be
refused, and one that writes a file can break off after some of the bytes, when the file has lost
what it held.
-/

namespace Quill

/-- The folders there are, by the parts that lead to them from the root, and the working
directory. -/
structure Folders where
  /-- The folders, those on the way to the working directory apart. -/
  made : List (List String)
  working : List String
deriving DecidableEq

namespace Folders

/-- Whether a path leads to a folder. -/
def contains (fs : Folders) (path : List String) : Bool :=
  path.isPrefixOf fs.working || fs.made.contains path

/-- Follow parts from a folder on.  Every part but the last must lead to a folder; above the root
there is the root. -/
def follow? (fs : Folders) (here : List String) : List String → Option (List String)
  | [] => some here
  | part :: rest =>
      if part = Place.above then fs.follow? here.dropLast rest
      else
        let next := here ++ [part]
        if rest.isEmpty || fs.contains next then fs.follow? next rest else none

/-- Where the way to a place begins. -/
def start (fs : Folders) (p : Place) : List String :=
  if p.isAbsolute then [] else fs.working

/-- The path of a place. -/
def path? (fs : Folders) (p : Place) : Option (List String) :=
  fs.follow? (fs.start p) p.parts

/-- The path of a place where a file can be. -/
def filePath? (fs : Folders) (p : Place) : Option (List String) :=
  if p.isFolder then none else (fs.path? p).filter (!fs.contains ·)

/-- Whether a place is a folder. -/
def holds (fs : Folders) (p : Place) : Bool :=
  (fs.path? p).any fs.contains

/-- The folders with one more. -/
def add (fs : Folders) (path : List String) : Folders :=
  if fs.contains path then fs else { fs with made := path :: fs.made }

end Folders

/-- What can befall an operation on a file. -/
inductive Mishap where
  /-- The file cannot be opened or moved. -/
  | refused
  /-- The file is open, and no more than the first `count` bytes pass; `isLast` tells whether this
  shows only when the contents are to be completed. -/
  | cut (count : Nat) (isLast : Bool)
deriving DecidableEq

/-- The files of a machine, seen from a working directory. -/
structure Directory where
  folders : Folders
  /-- The files, by the parts that lead to them from the root. -/
  files : List (List String × List UInt8)
  /-- What befalls the operations to come, one after the other; nothing befalls those behind
  them. -/
  mishaps : List (Option Mishap)
deriving DecidableEq

namespace Directory

/-- A machine with nothing but an empty working directory. -/
def empty : Directory where
  folders := ⟨[], ["work"]⟩
  files := []
  mishaps := []

instance : Inhabited Directory := ⟨empty⟩

/-- The contents of the file at a path. -/
def file? (d : Directory) (path : List String) : Option (List UInt8) :=
  d.files.lookup path

/-- What is in the file at a place. -/
def read? (d : Directory) (p : Place) : Option (List UInt8) :=
  (d.folders.filePath? p).bind d.file?

/-- Whether there is a file or a folder at a place. -/
def isTaken (d : Directory) (p : Place) : Bool :=
  (d.read? p).isSome || d.folders.holds p

/-- Set the contents of the file at a path. -/
def setFile (d : Directory) (path : List String) (bytes : List UInt8) : Directory :=
  { d with files := (path, bytes) :: d.files.filter (·.1 ≠ path) }

/-- Remove the file at a path. -/
def eraseFile (d : Directory) (path : List String) : Directory :=
  { d with files := d.files.filter (·.1 ≠ path) }

/-- Read a file.  A folder can be opened, but not read. -/
def read (mishap : Option Mishap) (d : Directory) (p : Place) : Except ReadError (List UInt8) :=
  if mishap = some .refused then .error .unopened
  else
    match d.read? p with
    | some bytes => if mishap.isSome then .error .unread else .ok bytes
    | none => .error (if d.folders.holds p then .unread else .unopened)

/-- Write a file.  If this breaks off, the file holds the bytes that passed. -/
def write (mishap : Option Mishap) (d : Directory) (p : Place) (bytes : List UInt8) :
    Except WriteError Unit × Directory :=
  match d.folders.filePath? p, mishap with
  | some path, none => (.ok (), d.setFile path bytes)
  | some path, some (.cut count isLast) =>
      (.error (if isLast then .unfinished else .cut), d.setFile path (bytes.take count))
  | _, _ => (.error .unopened, d)

/-- Write the contents of one file into another. -/
def copy (mishap : Option Mishap) (d : Directory) (source target : Place) : Bool × Directory :=
  match d.read? source with
  | some bytes =>
      let (written, d) := d.write mishap target bytes
      (written.isOk, d)
  | none => (false, d)

/-- Move a file, in place of one at the target, where that can be done. -/
def rename? (d : Directory) (source target : Place) : Option Directory := do
  let path ← d.folders.filePath? source
  let bytes ← d.file? path
  let goal ← d.folders.filePath? target
  return (d.eraseFile path).setFile goal bytes

/-- Move a file.  It is moved as a whole or not at all. -/
def rename (mishap : Option Mishap) (d : Directory) (source target : Place) : Bool × Directory :=
  match mishap, d.rename? source target with
  | none, some d => (true, d)
  | _, _ => (false, d)

/-- Make the folders along the parts of a path, as far as they are missing. -/
def makeFoldersAlong (d : Directory) (here : List String) :
    List String → Except FolderError Directory
  | [] => .ok d
  | part :: rest =>
      if part = Place.above then d.makeFoldersAlong here.dropLast rest
      else
        let next := here ++ [part]
        if (d.file? next).isSome then .error (if rest.isEmpty then .fileExists else .notFolder)
        else { d with folders := d.folders.add next }.makeFoldersAlong next rest

/-- Make the folders on the way to a place, as far as they are missing. -/
def makeFolders (d : Directory) (p : Place) : Except FolderError Directory :=
  d.makeFoldersAlong (d.folders.start p) p.folder

/-- Put a file into the directory, with the folders on the way. -/
def put (d : Directory) (name : String) (bytes : List UInt8) : Directory :=
  let p := Place.ofName name
  match d.makeFolders p with
  | .ok d => (d.write none p bytes).2
  | .error _ => d

/-- The files below the working directory by their names, in the order of the names. -/
def listing (d : Directory) : List (String × List UInt8) :=
  let below := d.files.filter fun e => d.folders.working.isPrefixOf e.1
  (below.map fun (path, bytes) =>
    ("/".intercalate (path.drop d.folders.working.length), bytes)).mergeSort fun a b => a.1 ≤ b.1

/-- What befalls the next operation. -/
def mishap? (d : Directory) : Option Mishap :=
  d.mishaps.head?.join

/-- The directory with the next operation under way. -/
def next (d : Directory) : Directory :=
  { d with mishaps := d.mishaps.tail }

/-- Carry out an operation with what befalls it. -/
def perform {α : Type} (operation : Option Mishap → Directory → α × Directory) :
    StateM Directory α :=
  modifyGet fun d => operation d.mishap? d.next

instance : FileAccess (StateM Directory) where
  read p := perform fun mishap d => (d.read mishap p, d)
  isTaken p := return (← get).isTaken p
  write p bytes := perform fun mishap d => d.write mishap p bytes
  copy source target := perform fun mishap d => d.copy mishap source target
  rename source target := perform fun mishap d => d.rename mishap source target
  makeFolders p := do
    match (← get).makeFolders p with
    | .ok d => set d; return .ok ()
    | .error e => return .error e

/-- What was written can be read. -/
theorem file?_setFile (d : Directory) (path : List String) (bytes : List UInt8) :
    (d.setFile path bytes).file? path = some bytes := by
  simp [setFile, file?]

end Directory

end Quill
