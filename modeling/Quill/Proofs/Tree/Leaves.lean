import Mathlib.Data.List.Nodup
import Quill.Tree.Depth

/-!
# The leaves of a tree

A leaf is a value that is not a map, and it is told by the keys that lead to it.  The leaves are
listed depth first, those under one key before those under the next, as the walks over all leaves
come by them.  In a tree with distinct keys the list holds every leaf once, and where no map is
empty no map is without a leaf.
-/

namespace Quill

/-- The keys that lead to a leaf, and the leaf. -/
abbrev Leaf := List Key × Value

/-- The leaf as seen from the map that holds `k`. -/
def Leaf.under (k : Key) (l : Leaf) : Leaf :=
  (k :: l.1, l.2)

mutual

/-- The leaves of a value; one that is not a map is its own leaf. -/
def Value.leaves : Value → List Leaf
  | .map t => t.leaves
  | v => [([], v)]

/-- The leaves of a tree, depth first. -/
def Tree.leaves : Tree → List Leaf
  | .nil => []
  | .cons k v rest => v.leaves.map (Leaf.under k) ++ rest.leaves

end

theorem Value.leaves_of_not_map {v : Value} (h : v.isMap = false) : v.leaves = [([], v)] := by
  cases v with
  | map t => cases h
  | _ => rfl

theorem Leaf.cons_mem_map_under {k k' : Key} {ls : List Leaf} {q : List Key} {v : Value} :
    (k' :: q, v) ∈ ls.map (Leaf.under k) ↔ k = k' ∧ (q, v) ∈ ls := by
  simp only [List.mem_map, Leaf.under, Prod.exists, Prod.mk.injEq, List.cons.injEq]
  constructor
  · rintro ⟨r, w, hmem, ⟨rfl, rfl⟩, rfl⟩
    exact ⟨rfl, hmem⟩
  · rintro ⟨rfl, hmem⟩
    exact ⟨q, v, hmem, ⟨rfl, rfl⟩, rfl⟩

namespace Tree

variable {t : Tree}

/-- A leaf of a tree lies under one of its keys. -/
theorem exists_key_of_mem_leaves {l : Leaf} (h : l ∈ t.leaves) :
    ∃ k ∈ t.keys, ∃ q, l.1 = k :: q := by
  induction t with
  | nil => cases h
  | cons k v rest ih =>
      rcases List.mem_append.mp h with hhead | htail
      · obtain ⟨l, _, rfl⟩ := List.mem_map.mp hhead
        exact ⟨k, List.mem_cons_self, l.1, rfl⟩
      · obtain ⟨k', hk', hbegins⟩ := ih htail
        exact ⟨k', List.mem_cons_of_mem _ hk', hbegins⟩

theorem ne_nil_of_mem_leaves {l : Leaf} (h : l ∈ t.leaves) : l.1 ≠ [] := by
  obtain ⟨_, _, q, hq⟩ := exists_key_of_mem_leaves h
  rw [hq]
  exact List.cons_ne_nil _ _

/-- The list holds what is found at the end of a list of keys and is no map. -/
theorem mem_leaves_iff (ht : t.Distinct) (q : List Key) (w : Value) :
    (q, w) ∈ t.leaves ↔ t.at? q = some w ∧ w.isMap = false := by
  induction t using deepInduction generalizing q with
  | nil =>
      cases q with
      | nil =>
          simp only [leaves, List.not_mem_nil, at?_nil, Option.some.injEq, false_iff, not_and]
          rintro rfl
          exact Bool.noConfusion
      | cons k q => simp [leaves, at?_cons, get?]
  | cons k v rest ihv ihrest =>
      obtain ⟨hk, hv, hrest⟩ := ht
      have hhead : ∀ q, (q, w) ∈ v.leaves ↔ v.at? q = some w ∧ w.isMap = false := by
        intro q
        rcases v.exists_map_or_isMap_eq_false with ⟨child, rfl⟩ | hmap
        · exact ihv child rfl hv q
        · rw [Value.leaves_of_not_map hmap]
          cases q with
          | nil =>
              rw [Value.at?_nil, List.mem_singleton, Prod.mk.injEq, Option.some.injEq]
              constructor
              · rintro ⟨_, rfl⟩
                exact ⟨rfl, hmap⟩
              · rintro ⟨rfl, _⟩
                exact ⟨rfl, rfl⟩
          | cons k' q => simp [Value.at?_cons_of_not_map hmap]
      rw [leaves, List.mem_append]
      cases q with
      | nil =>
          -- The tree itself is at the end of no key, and it is no leaf.
          have hnone : ¬([], w) ∈ v.leaves.map (Leaf.under k) := by
            simp [Leaf.under]
          rw [or_iff_right hnone, ihrest hrest, at?_nil, at?_nil, Option.some.injEq,
            Option.some.injEq]
          constructor
          · rintro ⟨rfl, hmap⟩
            cases hmap
          · rintro ⟨rfl, hmap⟩
            cases hmap
      | cons k' q =>
          rw [Leaf.cons_mem_map_under, hhead, ihrest hrest, at?_cons, at?_cons, get?]
          by_cases hkk : k = k'
          · have habsent : rest.get? k' = none :=
              (get?_eq_none_iff rest k').mpr (hkk ▸ hk)
            simp [hkk, habsent]
          · simp [hkk]

/-- No leaf is listed twice. -/
theorem nodup_leaves (ht : t.Distinct) : (t.leaves.map (·.1)).Nodup := by
  induction t using deepInduction with
  | nil => exact List.nodup_nil
  | cons k v rest ihv ihrest =>
      obtain ⟨hk, hv, hrest⟩ := ht
      have hhead : (v.leaves.map (·.1)).Nodup := by
        rcases v.exists_map_or_isMap_eq_false with ⟨child, rfl⟩ | hmap
        · exact ihv child rfl hv
        · rw [Value.leaves_of_not_map hmap]
          simp
      have hunder :
          (v.leaves.map (Leaf.under k)).map (·.1) = (v.leaves.map (·.1)).map (k :: ·) := by
        simp only [List.map_map, Function.comp_def, Leaf.under]
      rw [leaves, List.map_append, hunder, List.nodup_append]
      refine ⟨hhead.map fun q r heq => (List.cons.inj heq).2, ihrest hrest, ?_⟩
      rintro q hq r hr rfl
      -- What is under the first key does not begin with a key behind it.
      obtain ⟨l, hl, rfl⟩ := List.mem_map.mp hr
      obtain ⟨k', hk', tail, hbegins⟩ := exists_key_of_mem_leaves hl
      obtain ⟨r, _, heq⟩ := List.mem_map.mp hq
      rw [hbegins] at heq
      obtain ⟨rfl, _⟩ := List.cons.inj heq
      exact hk hk'

/-- A map without empty maps below it has a leaf, unless it is empty itself. -/
theorem leaves_ne_nil (hfull : t.EveryValue (· ≠ .map .nil)) (hne : t ≠ .nil) : t.leaves ≠ [] := by
  induction t using deepInduction with
  | nil => exact absurd rfl hne
  | cons k v rest ihv _ =>
      have hhead : v.leaves ≠ [] := by
        rcases v.exists_map_or_isMap_eq_false with ⟨child, rfl⟩ | hmap
        · obtain ⟨⟨hchild, hbelow⟩, _⟩ := hfull
          exact ihv child rfl hbelow fun h => hchild (by rw [h])
        · rw [Value.leaves_of_not_map hmap]
          exact List.cons_ne_nil _ _
      rw [leaves]
      simp [hhead]

/-! ### The order of the leaves -/

/-- Two lists of keys part in a map of a tree, and the first one goes on with the earlier of its
keys. -/
def Precedes (t : Tree) (q q' : List Key) : Prop :=
  ∃ front x k k', t.at? front = some (.map x) ∧ [k, k'].Sublist x.keys ∧
    front ++ [k] <+: q ∧ front ++ [k'] <+: q'

theorem Precedes.head {q q' : List Key} {child : Tree} (h : child.Precedes q q') (k : Key)
    (rest : Tree) : (Tree.cons k (.map child) rest).Precedes (k :: q) (k :: q') := by
  obtain ⟨front, x, j, j', hx, horder, hq, hq'⟩ := h
  refine ⟨k :: front, x, j, j', ?_, horder, ?_, ?_⟩
  · rw [at?_cons_head]
    exact hx
  · exact List.cons_prefix_cons.mpr ⟨rfl, hq⟩
  · exact List.cons_prefix_cons.mpr ⟨rfl, hq'⟩

theorem Precedes.tail {q q' : List Key} {k : Key} {rest : Tree} (h : rest.Precedes q q')
    (hk : k ∉ rest.keys) (v : Value) : (Tree.cons k v rest).Precedes q q' := by
  obtain ⟨front, x, j, j', hx, horder, hq, hq'⟩ := h
  cases front with
  | nil =>
      rw [at?_nil, Option.some.injEq, Value.map.injEq] at hx
      subst hx
      exact ⟨[], .cons k v rest, j, j', rfl, horder.cons k, hq, hq'⟩
  | cons i front => exact ⟨i :: front, x, j, j', at?_cons_of_tail hk v hx, horder, hq, hq'⟩

/-- The list goes through the maps depth first, each in the order of its keys. -/
theorem pairwise_precedes_leaves (ht : t.Distinct) :
    (t.leaves.map (·.1)).Pairwise t.Precedes := by
  rw [List.pairwise_map]
  induction t using deepInduction with
  | nil => exact .nil
  | cons k v rest ihv ihrest =>
      obtain ⟨hk, hv, hrest⟩ := ht
      rw [leaves, List.pairwise_append]
      refine ⟨?_, (ihrest hrest).imp fun h => h.tail hk v, ?_⟩
      · rcases v.exists_map_or_isMap_eq_false with ⟨child, rfl⟩ | hmap
        · rw [List.pairwise_map]
          exact (ihv child rfl hv).imp fun h => h.head k rest
        · rw [Value.leaves_of_not_map hmap]
          exact List.pairwise_singleton _ _
      · -- The first key comes before those of the leaves behind it.
        intro l hl l' hl'
        obtain ⟨l, _, rfl⟩ := List.mem_map.mp hl
        obtain ⟨k', hk', tail, hbegins⟩ := exists_key_of_mem_leaves hl'
        refine ⟨[], .cons k v rest, k, k', rfl, ?_, ⟨l.1, rfl⟩, ⟨tail, hbegins.symm⟩⟩
        exact (List.singleton_sublist.mpr hk').cons_cons k

/-- The keys on the way to something in a tree, all but the last one, hold maps. -/
theorem exists_map_of_mem_dropLast {q : List Key} {v : Value} (h : t.at? q = some v) {k : Key}
    (hk : k ∈ q.dropLast) : ∃ front child, t.at? (front ++ [k]) = some (.map child) := by
  induction q generalizing t with
  | nil => cases hk
  | cons k' q ih =>
      cases q with
      | nil => cases hk
      | cons k'' q =>
          obtain ⟨w, hw, hrest⟩ := exists_get?_of_at? h
          obtain ⟨child, rfl⟩ := Value.exists_map_of_at?_cons hrest
          rcases List.mem_cons.mp hk with rfl | hk
          · exact ⟨[], child, at?_of_get? hw []⟩
          · obtain ⟨front, below, hbelow⟩ := ih (t := child) hrest hk
            exact ⟨k' :: front, below, (at?_of_get? hw _).trans hbelow⟩

end Tree

end Quill
