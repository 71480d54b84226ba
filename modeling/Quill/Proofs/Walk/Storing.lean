import Quill.Proofs.Walk.Step
import Quill.Proofs.Walk.Unreached

/-!
# Storing a value at the end of a list of keys

A list of keys is a path without wildcards and groups.  Setting along it is simpler to take apart
than setting along a path: the value is there afterwards, maps lead to it, and everything else is as
it was.
-/

namespace Quill

namespace Tree

/-- Put a value at the end of a list of keys. -/
def store (value : Value) : List Key → Tree → Tree
  | [], t => t
  | k :: ks, t => t.setAt value ks.isEmpty (store value ks) k

theorem store_last (value : Value) (k : Key) (t : Tree) :
    t.store value [k] = t.insert k value := rfl

theorem store_cons (value : Value) (k : Key) {ks : List Key} (hks : ks ≠ []) (t : Tree) :
    t.store value (k :: ks) = t.insert k (.map ((t.childAt k).store value ks)) := by
  rw [store, setAt, if_neg (by simpa using hks)]

/-- Below a key that holds a map, a value is stored in the map. -/
theorem store_under (value : Value) {t child : Tree} {k : Key} (h : t.get? k = some (.map child))
    {ks : List Key} (hks : ks ≠ []) :
    t.store value (k :: ks) = t.insert k (.map (child.store value ks)) := by
  rw [store_cons value k hks, childAt_of_get? h]

theorem store_ne_nil (value : Value) {ks : List Key} (hks : ks ≠ []) (t : Tree) :
    t.store value ks ≠ .nil := by
  cases ks with
  | nil => exact absurd rfl hks
  | cons k ks => exact insert_ne_nil _ _ _

theorem at?_store_self (value : Value) {ks : List Key} (hks : ks ≠ []) (t : Tree) :
    (t.store value ks).at? ks = some value := by
  induction ks generalizing t with
  | nil => exact absurd rfl hks
  | cons k ks ih =>
      cases ks with
      | nil => rw [store_last, at?_of_get? (get?_insert_self _ _ _), Value.at?_nil]
      | cons k' ks =>
          rw [store_cons value k (List.cons_ne_nil _ _), at?_of_get? (get?_insert_self _ _ _)]
          exact ih (List.cons_ne_nil _ _) _

/-- Maps with entries lead to what is stored. -/
theorem at?_store_of_prefix (value : Value) {ks q : List Key} (hq : q <+: ks) (hne : q ≠ ks)
    (t : Tree) : ∃ m, m ≠ .nil ∧ (t.store value ks).at? q = some (.map m) := by
  induction ks generalizing q t with
  | nil => exact absurd (List.prefix_nil.mp hq) hne
  | cons k ks ih =>
      cases q with
      | nil => exact ⟨_, store_ne_nil value (List.cons_ne_nil _ _) t, at?_nil _⟩
      | cons k' q =>
          obtain ⟨rfl, htail⟩ := List.cons_prefix_cons.mp hq
          have hks : ks ≠ [] := by
            rintro rfl
            exact hne (congrArg _ (List.prefix_nil.mp htail))
          rw [store_cons value k' hks, at?_of_get? (get?_insert_self _ _ _)]
          exact ih htail (fun h => hne (congrArg _ h)) _

/-- Storing leaves alone what is neither below the place nor on the way to it. -/
theorem frame_store (value : Value) (ks : List Key) (t : Tree) :
    Frame Extends (· = ks) t.at? (t.store value ks).at? := by
  induction ks generalizing t with
  | nil => exact .of_nil (S := (· = [])) rfl _ _
  | cons k ks ih =>
      have hlast : ks.isEmpty = true → ([] : List Key) = ks := fun h => (List.isEmpty_iff.mp h).symm
      have hne : ∃ q, q = ks := ⟨ks, rfl⟩
      have hstep := t.frame_setAt value hne hlast ih k
      refine hstep.mono ?_
      rintro q ⟨tail, rfl, rfl⟩
      rfl

/-- What is there can be stored again without a change. -/
theorem store_at? {t : Tree} {ks : List Key} {v : Value} (h : t.at? ks = some v) (hks : ks ≠ []) :
    t.store v ks = t := by
  induction ks generalizing t with
  | nil => exact absurd rfl hks
  | cons k ks ih =>
      obtain ⟨w, hw, hbelow⟩ := exists_get?_of_at? h
      cases ks with
      | nil =>
          rw [Value.at?_nil, Option.some.injEq] at hbelow
          rw [store_last, insert_get? (hbelow ▸ hw)]
      | cons k' ks =>
          obtain ⟨child, rfl⟩ := Value.exists_map_of_at?_cons hbelow
          rw [store_under v hw (List.cons_ne_nil _ _), ih hbelow (List.cons_ne_nil _ _),
            insert_get? hw]

/-- Storing where something is leaves every key in its place as well. -/
theorem frame_store_of_at? (value : Value) {t : Tree} {ks : List Key} {v : Value}
    (h : t.at? ks = some v) (hks : ks ≠ []) :
    Frame (· = ·) (· = ks) t.at? (t.store value ks).at? := by
  induction ks generalizing t with
  | nil => exact absurd rfl hks
  | cons k ks ih =>
      obtain ⟨w, hw, hbelow⟩ := exists_get?_of_at? h
      have hkey : k ∈ t.keys := mem_keys_of_get? hw
      have hunder : Frame (· = ·) (UnderKey k (· = ks)) t.at? (t.store value (k :: ks)).at? := by
        refine .underKey isKeeping_eq ⟨ks, rfl⟩ ?_ (fun k' hk => ?_) ?_
        · exact (keys_insert_of_mem t _ hkey).symm
        · exact get?_setAt_of_ne _ _ _ t (Ne.symm hk)
        · cases ks with
          | nil => exact .of_nil (S := (· = [])) rfl _ _
          | cons k' ks =>
              obtain ⟨child, rfl⟩ := Value.exists_map_of_at?_cons hbelow
              rw [store_under value hw (List.cons_ne_nil _ _), get?_insert_self, hw]
              exact ih hbelow (List.cons_ne_nil _ _)
      refine hunder.mono ?_
      rintro q ⟨tail, rfl, rfl⟩
      rfl

end Tree

end Quill
