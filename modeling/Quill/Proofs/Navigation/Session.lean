import Quill.Proofs.Navigation.Steady

/-!
# Sessions

A session performs calls one after the other on one navigator, so that a later call meets whatever
the earlier ones left in the cache.  The calls are data: each carries its trees, its locators, its
own separator if it has one, and its options.

The result says that this memory cannot be observed.  Whatever calls come before it, a call answers
as it does on a navigator that has never parsed anything.
-/

namespace Quill

/-- A call of an operation with everything it is given. -/
inductive Call : Type 1 where
  | parse (l : Locator) (separator : String) (allowEmpty : Bool)
  | has (t : Tree) (l : Locator) (separator : Option String)
  | get (t : Tree) (l : Locator) (default : Value) (separator : Option String)
  | set (t : Tree) (l : Locator) (value : Value) (separator : Option String)
  | remove (t : Tree) (l : Locator) (keepEmpty : Bool) (separator : Option String)
  | filter (σ : Type) (t : Tree) (l : Locator) (f : Callback σ) (s : σ)
      (separator : Option String)
  | list (rows : Tree) (columns : Columns) (rowKey : RowKey) (default : Value)
      (separator : Option String)
  | concat (a b : Locator) (separatorA separatorB : Option String)
  | unflatten (t : Tree)
  | without (t : Tree) (keepEmpty : Bool) (ls : List Locator)
  /-- Forget every parsed path. -/
  | clear

namespace Call

/-- What a call answers when it does not fail. -/
def Answer : Call → Type
  | .parse .. => Path
  | .has .. => Bool
  | .get .. => Value
  | .filter σ .. => Tree × σ
  | .concat .. => Path
  | .clear => Unit
  | _ => Tree

/-- The operation that a call stands for. -/
def perform : (c : Call) → Navigation c.Answer
  | .parse l separator allowEmpty => Navigator.parse l separator allowEmpty
  | .has t l separator => Navigator.has t l separator
  | .get t l default separator => Navigator.get t l default separator
  | .set t l value separator => Navigator.set t l value separator
  | .remove t l keepEmpty separator => Navigator.remove t l keepEmpty separator
  | .filter _ t l f s separator => Navigator.filter t l f s separator
  | .list rows columns rowKey default separator =>
      Listing.list rows columns rowKey default separator
  | .concat a b separatorA separatorB => Navigator.concat a b separatorA separatorB
  | .unflatten t => Navigator.unflatten t
  | .without t keepEmpty ls => Navigator.without t keepEmpty ls
  | .clear => modify Navigator.clear

/-- The result of a call on a navigator. -/
def result (c : Call) (n : Navigator) : Except PathError c.Answer :=
  (c.perform.on n).1

/-- The navigator that a call leaves behind. -/
def after (c : Call) (n : Navigator) : Navigator :=
  (c.perform.on n).2

theorem isSteady_clear : (modify Navigator.clear : Navigation Unit).IsSteady := by
  intro n n' _ _ _
  exact ⟨rfl, Cache.isSound_clear n.cache, rfl⟩

/-- Every call is steady. -/
theorem isSteady_perform (c : Call) : c.perform.IsSteady := by
  cases c with
  | parse l separator allowEmpty => exact Navigator.isSteady_parse l separator allowEmpty
  | has t l separator => exact Navigator.isSteady_has t l separator
  | get t l default separator => exact Navigator.isSteady_get t l default separator
  | set t l value separator => exact Navigator.isSteady_set t l value separator
  | remove t l keepEmpty separator => exact Navigator.isSteady_remove t l keepEmpty separator
  | filter σ t l f s separator => exact Navigator.isSteady_filter t l f s separator
  | list rows columns rowKey default separator =>
      exact Listing.isSteady_list rows columns rowKey default separator
  | concat a b separatorA separatorB =>
      exact Navigator.isSteady_concat a b separatorA separatorB
  | unflatten t => exact Navigator.isSteady_unflatten t
  | without t keepEmpty ls => exact Navigator.isSteady_without t keepEmpty ls
  | clear => exact isSteady_clear

end Call

namespace Navigator

/-- The results of calls performed one after the other, each beside its call. -/
def results : List Call → Navigator → List (Σ c : Call, Except PathError c.Answer)
  | [], _ => []
  | c :: rest, n => ⟨c, c.result n⟩ :: results rest (c.after n)

/-- The navigator that calls performed one after the other leave behind. -/
def afterAll (cs : List Call) (n : Navigator) : Navigator :=
  cs.foldl (fun n c => c.after n) n

/-- A call keeps the cache sound and the separator as it is. -/
theorem after_isSound {n : Navigator} (hn : n.cache.IsSound) (c : Call) :
    (c.after n).cache.IsSound ∧ (c.after n).separator = n.separator := by
  obtain ⟨_, hsound, hkept⟩ := c.isSteady_perform n n hn hn rfl
  exact ⟨hsound, hkept⟩

/-- So do calls one after the other. -/
theorem afterAll_isSound {n : Navigator} (hn : n.cache.IsSound) (cs : List Call) :
    (afterAll cs n).cache.IsSound ∧ (afterAll cs n).separator = n.separator := by
  induction cs generalizing n with
  | nil => exact ⟨hn, rfl⟩
  | cons c rest ih =>
      obtain ⟨hsound, hkept⟩ := after_isSound hn c
      obtain ⟨hsound', hkept'⟩ := ih hsound
      exact ⟨hsound', hkept'.trans hkept⟩

/-- From a navigator with a sound cache each call of a session answers as on any other navigator
with a sound cache and the same separator. -/
theorem results_of_isSound {n n' : Navigator} (hn : n.cache.IsSound) (hn' : n'.cache.IsSound)
    (hsep : n.separator = n'.separator) (cs : List Call) :
    results cs n = cs.map fun c => ⟨c, c.result n'⟩ := by
  induction cs generalizing n with
  | nil => rfl
  | cons c rest ih =>
      obtain ⟨hanswer, hsound, hkept⟩ := c.isSteady_perform n n' hn hn' hsep
      -- The session goes on with what the call left, the other navigator stays the same.
      have hrest := ih hsound (hkept.trans hsep)
      have hfirst : c.result n = c.result n' := hanswer
      rw [results, List.map_cons, hfirst]
      exact congrArg _ hrest

/-- The cache cannot be observed: in a session each call answers what it answers on a navigator
with the same separator that has parsed nothing, whatever the two capacities are.  And what the
session leaves in the cache is only ever the non-empty path that an expression denotes with the
separator it is kept under. -/
theorem results_eq_fresh (separator : String) (capacity capacity' : Nat) (cs : List Call) :
    results cs (fresh separator capacity) =
        cs.map (fun c => ⟨c, c.result (fresh separator capacity')⟩) ∧
      ∀ e ∈ (afterAll cs (fresh separator capacity)).cache.entries,
        e.1.path ≠ "" ∧ e.2 ≠ .nil ∧ readText e.1.separator e.1.path = .ok e.2 := by
  have hsound : (fresh separator capacity).cache.IsSound := Cache.isSound_ofCapacity capacity
  have hsound' : (fresh separator capacity').cache.IsSound := Cache.isSound_ofCapacity capacity'
  constructor
  · exact results_of_isSound hsound hsound' rfl cs
  · intro e he
    obtain ⟨hpath, hne, hread⟩ := (afterAll_isSound hsound cs).1 e he
    refine ⟨hpath, ?_, hread⟩
    intro hnil
    simp [hnil, Path.isNil] at hne

end Navigator

end Quill
