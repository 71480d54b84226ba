import Quill.Path.Structured
import Quill.Path.Reading
import Quill.Path.Cache
import Quill.Walk.Get
import Quill.Walk.Update

/-!
# Navigating trees by path expressions

A navigator holds the separator of its expressions and the cache of the paths it has parsed.
Every operation answers with a result or a path error and leaves a navigator behind, whose
cache may have changed either way.
-/

namespace Quill

/-- The separator and the parsed paths of a series of operations. -/
structure Navigator where
  separator : String
  cache : Cache
deriving DecidableEq

/-- An operation of a navigator. -/
abbrev Navigation := ExceptT PathError (StateM Navigator)

namespace Navigator

/-- A navigator that has parsed nothing yet. -/
def fresh (separator : String) (capacity : Nat) : Navigator :=
  ⟨separator, .ofCapacity capacity⟩

instance : Inhabited Navigator := ⟨fresh Path.defaultSeparator Cache.defaultCapacity⟩

/-- The separator of an operation: its own or the navigator's. -/
def separatorOr (own : Option String) : Navigation String := do
  return own.getD (← get).separator

/-- The path that an expression denotes, without any cache.  A plain key is taken as it
stands. -/
def readText (separator s : String) : Except PathError Path :=
  if Path.isPlainKey separator s then .ok (.key s .nil) else Path.ofText separator s

/-- Refuse the empty path unless it is allowed. -/
def checkEmpty (path : String) (allowEmpty : Bool) (p : Path) : Except PathError Path :=
  if p.isNil && !allowEmpty then .error (.empty path) else .ok p

/-- Look an expression up in the cache. -/
def lookUp (key : CacheKey) : Navigation (Option Path) :=
  modifyGet fun n =>
    let (found, cache) := n.cache.get key
    (found, { n with cache := cache })

/-- Keep a path in the cache. -/
def remember (key : CacheKey) (p : Path) : Navigation Unit :=
  modify fun n => { n with cache := n.cache.insert key p }

/-- Parse an expression, through the cache.  Empty paths are never cached. -/
def parseText (s separator : String) (allowEmpty : Bool) : Navigation Path :=
  if s.isEmpty then checkEmpty s allowEmpty .nil
  else do
    let key : CacheKey := ⟨s, separator⟩
    match ← lookUp key with
    | some p => return p
    | none =>
        let p ← readText separator s
        if p.isNil then checkEmpty s allowEmpty p
        else
          remember key p
          return p

/-- The path that a locator denotes. -/
def parse (l : Locator) (separator : String) (allowEmpty : Bool) : Navigation Path :=
  match l with
  | .parsed p => checkEmpty "" allowEmpty p
  | .text s => parseText s separator allowEmpty
  | .number n => parseText (Value.int n).text separator allowEmpty

/-- The key of a locator that needs no parsing. -/
def plainKey? (l : Locator) (separator : String) : Option Key :=
  match l with
  | .text s => if Path.isPlainKey separator s then some (.ofText s) else none
  | _ => none

/-- Whether everything that a path selects is in the tree. -/
def has (t : Tree) (l : Locator) (separator : Option String) : Navigation Bool := do
  let separator ← separatorOr separator
  match plainKey? l separator with
  | some k => return t.contains k
  | none => return (← parse l separator false).has t

/-- The values at a path, the default where there is none.  Nothing is parsed for the empty
tree. -/
def get (t : Tree) (l : Locator) (default : Value) (separator : Option String) :
    Navigation Value := do
  let separator ← separatorOr separator
  if t.isEmpty then return default
  else
    match plainKey? l separator with
    | some k => return (t.get? k).getD default
    | none => return (← parse l separator false).get default false t

/-- Set a value everywhere a path selects. -/
def set (t : Tree) (l : Locator) (value : Value) (separator : Option String) :
    Navigation Tree := do
  let separator ← separatorOr separator
  match plainKey? l separator with
  | some k => return t.insert k value
  | none => return (← parse l separator false).set value t

/-- Remove everything that a path selects. -/
def remove (t : Tree) (l : Locator) (keepEmpty : Bool) (separator : Option String) :
    Navigation Tree := do
  let separator ← separatorOr separator
  match plainKey? l separator with
  | some k => return t.erase k
  | none => return (← parse l separator false).remove keepEmpty t

/-- Replace every value that a path selects by what the callback answers. -/
def filter {σ : Type} (t : Tree) (l : Locator) (f : Callback σ) (s : σ)
    (separator : Option String) : Navigation (Tree × σ) := do
  let separator ← separatorOr separator
  return (← parse l separator false).filter f t s

/-- One path behind another.  The second separator defaults to the first. -/
def concat (a b : Locator) (separatorA separatorB : Option String) : Navigation Path := do
  let separatorA ← separatorOr separatorA
  let a ← parse a separatorA true
  let b ← parse b (separatorB.getD separatorA) true
  return a ++ b

/-- Set the entries of a flat tree, whose keys are path expressions, one after the other. -/
def unflattenInto (out : Tree) : Tree → Navigation Tree
  | .nil => return out
  | .cons key value rest => do
      let out ← set out (.ofKey key) value none
      unflattenInto out rest

/-- The tree whose values lie at the paths that the keys of a flat tree spell. -/
def unflatten (t : Tree) : Navigation Tree :=
  unflattenInto .nil t

/-- Remove several paths, one after the other. -/
def without (t : Tree) (keepEmpty : Bool) : List Locator → Navigation Tree
  | [] => return t
  | l :: rest => do
      let t ← remove t l keepEmpty none
      without t keepEmpty rest

/-- Forget every parsed path. -/
def clear (n : Navigator) : Navigator :=
  { n with cache := n.cache.clear }

end Navigator

end Quill
