import Quill.Number.Binary64

/-!
# Values of TOML texts

The values, and the tables that the lines of a text build up.  A table remembers how it came to
be, because that decides what later lines may still put into it.
-/

namespace Quill

namespace Toml

/-- How a table came to be. -/
inductive Origin where
  /-- By the header of a table inside. -/
  | implied
  /-- By a dotted key. -/
  | dotted
  /-- By its own header. -/
  | header
  /-- As a value between braces. -/
  | inline
deriving DecidableEq

end Toml

/-- A value of a TOML text. -/
inductive Toml where
  | string (s : String)
  | integer (n : Int)
  | float (x : Binary64)
  | bool (b : Bool)
  /-- A date, a time of day or both. -/
  | moment (text : String)
  | array (items : List Toml)
  | table (origin : Toml.Origin) (entries : List (String × Toml))
  /-- The tables of one repeated header, the last one first. -/
  | tables (items : List (List (String × Toml)))

namespace Toml

/-- The entries of a table in order. -/
abbrev Entries := List (String × Toml)

/-- Replace the value under a key that is there. -/
def Entries.replace (es : Entries) (key : String) (value : Toml) : Entries :=
  es.map fun (k, v) => if k = key then (k, value) else (k, v)

/-- A change of one table, which may be refused. -/
abbrev Change := Origin → Entries → Option Entries

/-- Change the table at a path below the given one.  Missing tables on the way are made.  The
last table of a repeated header stands for all of them.  Values are no tables, and a dotted key
does not lead into tables with a header of their own. -/
def changeAt (isDotted : Bool) (f : Change) : List String → Change
  | [], origin, es => f origin es
  | key :: path, _, es =>
      match es.lookup key with
      | none =>
          let origin : Origin := if isDotted then .dotted else .implied
          (changeAt isDotted f path origin []).map fun inner => es ++ [(key, .table origin inner)]
      | some (.table origin inner) =>
          if origin = .inline ∨ (isDotted ∧ origin = .header) then none
          else
            (changeAt isDotted f path origin inner).map fun inner =>
              es.replace key (.table origin inner)
      | some (.tables (last :: earlier)) =>
          (changeAt isDotted f path .header last).map fun last =>
            es.replace key (.tables (last :: earlier))
      | some _ => none

/-- Put a value under a new key at the end of a dotted path.  The tables of a dotted path belong
to dotted keys alone. -/
def putValue (path : List String) (key : String) (value : Toml) : Change :=
  changeAt true (fun origin es =>
    if (origin = .dotted) = path.isEmpty ∨ (es.lookup key).isSome then none
    else some (es ++ [(key, value)])) path

/-- Begin a table by its header. -/
def beginTable (path : List String) (key : String) : Change :=
  changeAt false (fun _ es =>
    match es.lookup key with
    | none => some (es ++ [(key, .table .header [])])
    | some (.table .implied inner) => some (es.replace key (.table .header inner))
    | some _ => none) path

/-- Begin a further table of a repeated header. -/
def beginElement (path : List String) (key : String) : Change :=
  changeAt false (fun _ es =>
    match es.lookup key with
    | none => some (es ++ [(key, .tables [[]])])
    | some (.tables items) => some (es.replace key (.tables ([] :: items)))
    | some _ => none) path

/-- A line of a text that says something, the last key of a path apart from the others. -/
inductive Statement where
  | entry (path : List String) (key : String) (value : Toml)
  | table (path : List String) (key : String)
  | element (path : List String) (key : String)

/-- The tables made by statements, the path telling the table that entries go into. -/
def build : List Statement → List String → Entries → Option Entries
  | [], _, root => some root
  | .entry path key value :: rest, here, root => do
      let root ← changeAt false (putValue path key value) here .header root
      build rest here root
  | .table path key :: rest, _, root => do
      let root ← beginTable path key .header root
      build rest (path ++ [key]) root
  | .element path key :: rest, _, root => do
      let root ← beginElement path key .header root
      build rest (path ++ [key]) root

end Toml

end Quill
