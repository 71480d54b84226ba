import Quill.Navigator
import Quill.Text.Items

/-!
# Lists of columns

Reading columns out of the rows of a table, a map of maps: every row gives a value or a map of
its columns, placed under a running number, under the value of a key column or under the key it
had.
-/

namespace Quill

/-- The columns to read from each row. -/
inductive Columns where
  /-- The rows as they are. -/
  | all
  /-- The columns of the specifiers, such as `id` or `info.name as name`. -/
  | list (specifiers : List String)
deriving DecidableEq

namespace Columns

/-- The specifiers of a text that lists them between commas. -/
def ofText (s : String) : Columns :=
  .list ((Text.splitItems [','] s.toList).map String.ofList)

/-- The specifiers, or nothing if all columns are meant: by name, by an empty list or by a list
that starts with `*`. -/
def specifiers? : Columns → Option (List String)
  | .all => none
  | .list [] => none
  | .list (first :: rest) => if first = "*" then none else some (first :: rest)

end Columns

/-- What the rows of the result are placed under. -/
inductive RowKey where
  /-- Running numbers. -/
  | numbered
  /-- The value of a column or at a path. -/
  | column (name : String)
  /-- The keys the rows had. -/
  | preserved
deriving DecidableEq

namespace RowKey

/-- The key column of the given name; the empty name means running numbers. -/
def ofText (s : String) : RowKey :=
  if s.isEmpty then .numbered else .column s

end RowKey

/-- A column: the key or path to read and the key to put the value under. -/
structure Column where
  source : String
  label : String
  /-- Whether the source is read as a path. -/
  isPath : Bool
deriving DecidableEq

namespace Listing

/-- What stands between the source of a column and its label. -/
def labelMark : List Char := " as ".toList

/-- The source and the label of a specifier; without a label the source is its own. -/
def splitLabel (specifier : String) : String × String :=
  match Text.splitLast? labelMark specifier.toList with
  | some (source, label) => (String.ofList source, String.ofList label)
  | none => (specifier, specifier)

/-- The column of a specifier.  The source is a path if it contains the separator and has more
than one segment. -/
def column (separator specifier : String) : Navigation Column := do
  let (source, label) := splitLabel specifier
  if Text.occurs separator.toList source.toList then
    let p ← Navigator.parse (.text source) separator true
    return ⟨source, label, 1 < p.length⟩
  else return ⟨source, label, false⟩

/-- The columns of several specifiers. -/
def columns (separator : String) : List String → Navigation (List Column)
  | [] => return []
  | specifier :: rest => do
      let c ← column separator specifier
      let others ← columns separator rest
      return c :: others

/-- Place a row under a key, or under the next free index when it has none. -/
def place (result : Tree) (key : Option Key) (row : Value) : Tree :=
  match key with
  | some k => result.insert k row
  | none => result.push row

/-- Place the rows as they are under the value of a column.  A row without one falls back to the
number of rows placed so far. -/
def placeRows (separator name : String) (result : Tree) : Tree → Navigation Tree
  | .nil => return result
  | .cons _ (.map row) rest => do
      let fallback := Value.int (Int64.ofNat result.size)
      let key ← Navigator.get row (.text name) fallback (some separator)
      placeRows separator name (place result key.toKey? (.map row)) rest
  | .cons _ _ rest => placeRows separator name result rest

/-- What has been read of a row. -/
structure Row where
  cells : Tree
  /-- The value that stands for the whole row. -/
  bare : Option Value
  /-- The value of the key column. -/
  key : Option Value

/-- How the columns of a table are read. -/
structure Plan where
  separator : String
  /-- The value of columns missing in a row. -/
  default : Value
  columns : List Column
  /-- Whether one column was asked for; without a label it stands for its row. -/
  isSingle : Bool
  rowKey : RowKey
  /-- Whether the key column was not asked for and is left out of the rows. -/
  keyIsExtra : Bool

/-- The value of a column in a row. -/
def cell (plan : Plan) (row : Tree) (c : Column) : Navigation Value :=
  if c.isPath then Navigator.get row (.text c.source) plan.default (some plan.separator)
  else return (row.get? (.ofText c.source)).getD plan.default

/-- Read columns of a row. -/
def readRow (plan : Plan) (row : Tree) : List Column → Row → Navigation Row
  | [], r => return r
  | c :: rest, r => do
      let v ← cell plan row c
      let isKey : Bool := plan.rowKey = .column c.label
      let r := if isKey then { r with key := some v } else r
      if isKey && plan.keyIsExtra then readRow plan row rest r
      else if plan.isSingle && c.source == c.label then return { r with bare := some v }
      else readRow plan row rest { r with cells := r.cells.insert (.ofText c.label) v }

/-- Place a row that has been read. -/
def placeRow (plan : Plan) (result : Tree) (had : Key) (r : Row) : Tree :=
  let output := r.bare.getD (.map r.cells)
  match plan.rowKey with
  | .preserved => result.insert had output
  | _ => place result (r.key.bind Value.toKey?) output

/-- Read and place the rows of a table; entries that are not maps are passed over. -/
def readRows (plan : Plan) (result : Tree) : Tree → Navigation Tree
  | .nil => return result
  | .cons had (.map row) rest => do
      let r ← readRow plan row plan.columns ⟨.nil, none, none⟩
      readRows plan (placeRow plan result had r) rest
  | .cons _ _ rest => readRows plan result rest

/-- How to read the columns of the given specifiers.  The key column is read first if it was not
asked for. -/
def plan (separator : String) (default : Value) (specifiers : List String) (rowKey : RowKey) :
    Navigation Plan := do
  let cs ← columns separator specifiers
  let base : Plan :=
    { separator := separator, default := default, columns := cs,
      isSingle := specifiers.length == 1, rowKey := rowKey, keyIsExtra := false }
  match rowKey with
  | .column name =>
      if cs.any (·.source == name) then return base
      else
        let c ← column separator name
        return { base with columns := c :: cs, keyIsExtra := true }
  | _ => return base

/-- Read columns from the rows of a table. -/
def list (rows : Tree) (cs : Columns) (rowKey : RowKey) (default : Value)
    (separator : Option String) : Navigation Tree := do
  let separator ← Navigator.separatorOr separator
  if rows.isEmpty then return .nil
  else
    match cs.specifiers?, rowKey with
    | none, .column name => placeRows separator name .nil rows
    | none, _ => return rows
    | some specifiers, _ => do
        let plan ← plan separator default specifiers rowKey
        readRows plan .nil rows

end Listing

end Quill
