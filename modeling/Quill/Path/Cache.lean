import Quill.Path.Basic

/-!
# The cache of parsed paths

A bounded memory of path expressions and the paths they denote, in order of use: the entry used
longest ago stands first and is dropped first.
-/

namespace Quill

/-- What a cache entry is found by. -/
structure CacheKey where
  path : String
  separator : String
deriving DecidableEq

/-- A bounded memory of parsed paths, least recently used first. -/
structure Cache where
  capacity : Nat
  entries : List (CacheKey × Path)
deriving DecidableEq

namespace Cache

/-- The number of paths kept by default. -/
def defaultCapacity : Nat := 20

/-- An empty cache for at most `capacity` paths; with capacity zero it stays empty. -/
def ofCapacity (capacity : Nat) : Cache := ⟨capacity, []⟩

/-- The path kept under a key. -/
def find? (c : Cache) (key : CacheKey) : Option Path :=
  (c.entries.find? (·.1 = key)).map (·.2)

def contains (c : Cache) (key : CacheKey) : Bool :=
  (c.find? key).isSome

/-- The entries without the one under a key. -/
def without (c : Cache) (key : CacheKey) : List (CacheKey × Path) :=
  c.entries.filter (·.1 ≠ key)

/-- Look a path up; one that is found becomes the most recently used. -/
def get (c : Cache) (key : CacheKey) : Option Path × Cache :=
  match c.find? key with
  | some p => (some p, { c with entries := c.without key ++ [(key, p)] })
  | none => (none, c)

/-- Keep a path as the most recently used one, dropping those used longest ago when there are
too many. -/
def insert (c : Cache) (key : CacheKey) (p : Path) : Cache :=
  let entries := c.without key ++ [(key, p)]
  { c with entries := entries.drop (entries.length - c.capacity) }

def clear (c : Cache) : Cache :=
  { c with entries := [] }

/-- The expressions kept, least recently used first. -/
def paths (c : Cache) : List String :=
  c.entries.map (·.1.path)

end Cache

end Quill
