import Quill.Tree.Basic

/-!
# Merging trees

The recursive merge of two trees, the second one winning, and the attachment of one tree at
the end of another.
-/

namespace Quill

/-- How a merge treats index keys. -/
inductive IndexMerge where
  /-- Maps under index keys are merged, other values appended. -/
  | appendLeaves
  /-- Index keys are merged like names. -/
  | strict
  /-- Every value under an index key is appended. -/
  | append
deriving DecidableEq

/-- How to merge. -/
structure MergeOptions where
  indices : IndexMerge := .appendLeaves
  /-- Whether a value `unset` removes its key from the target. -/
  allowRemoval : Bool := false
deriving DecidableEq

namespace Tree

/-- Whether an incoming entry is appended and not put under its own key. -/
def appends (o : MergeOptions) (key : Key) (value : Value) : Bool :=
  key.isIndex &&
    match o.indices with
    | .appendLeaves => !value.isMap
    | .strict => false
    | .append => true

/-- Bring the entries of a tree into `a`, one after the other.  An empty target without
removal takes the incoming map as it is. -/
def absorb (o : MergeOptions) (a : Tree) : Tree → Tree
  | .nil => a
  | .cons key (.map incoming) rest =>
      if appends o key (.map incoming) then absorb o (a.push (.map incoming)) rest
      else
        match a.get? key with
        | some (.map existing) =>
            let merged :=
              if !o.allowRemoval && existing.isEmpty then incoming
              else absorb o existing incoming
            absorb o (a.insert key (.map merged)) rest
        | _ => absorb o (a.insert key (.map incoming)) rest
  | .cons key value rest =>
      if o.allowRemoval && value == .unset then absorb o (a.erase key) rest
      else if appends o key value then absorb o (a.push value) rest
      else absorb o (a.insert key value) rest

/-- Merge `b` into `a`, the values of `b` winning. -/
def merge (o : MergeOptions) (a b : Tree) : Tree :=
  if !o.allowRemoval && a.isEmpty then b else absorb o a b

/-- Merge trees from left to right; none give the empty tree. -/
def mergeAll (o : MergeOptions) : List Tree → Tree
  | [] => .nil
  | t :: rest => rest.foldl (merge o) t

/-- Attach `b` at the end of `a`: values under index keys are appended, names are set. -/
def attach (a : Tree) : Tree → Tree
  | .nil => a
  | .cons key value rest =>
      if key.isIndex then attach (a.push value) rest
      else attach (a.insert key value) rest

end Tree

end Quill
