import Quill.Proofs.Tree.Leaves
import Quill.Proofs.Walk.Step
import Quill.Proofs.Walk.Unreached

/-!
# Setting the leaves of a tree one by one

A tree grows from its leaves.  Set into the empty tree one after the other, each at the end of its
own keys, they make the tree again, with the keys of every map in their order: the leaves under one
key come in a row, the first of them makes the map and the others are set into it.  Only what no
leaf leads to is lost, the maps that are empty.
-/

namespace Quill

/-- The text of a key, as a segment of a path, selects the key and no other one. -/
def Key.IsLiteral (k : Key) : Prop :=
  k.IsCanonical ∧ k.text ≠ Path.wildcard

namespace Tree

/-- Set leaves one after the other, each at the end of its keys. -/
def plantAll (t : Tree) (ls : List Leaf) : Tree :=
  ls.foldl (fun t l => (Path.ofKeys (l.1.map Key.text)).set l.2 t) t

theorem plantAll_append (t : Tree) (ls ls' : List Leaf) :
    t.plantAll (ls ++ ls') = (t.plantAll ls).plantAll ls' :=
  List.foldl_append

theorem childAt_of_not_mem {t : Tree} {k : Key} (h : k ∉ t.keys) : t.childAt k = .nil := by
  rw [childAt, (get?_eq_none_iff t k).mpr h]

/-- Setting along the texts of keys is a step to the first of them. -/
theorem set_ofKeys_cons {k : Key} (hk : k.IsLiteral) (q : List Key) (v : Value) (t : Tree) :
    (Path.ofKeys ((k :: q).map Key.text)).set v t =
      t.setAt v (Path.ofKeys (q.map Key.text)).isNil ((Path.ofKeys (q.map Key.text)).set v) k := by
  obtain ⟨hcanonical, hwild⟩ := hk
  have hread : Key.ofText k.text = k := hcanonical
  rw [List.map_cons, Path.ofKeys, Path.set_literal hwild, hread]

/-- A leaf that is not under the key alone is set into the map under the key. -/
theorem set_ofKeys_under {k : Key} (hk : k.IsLiteral) {q : List Key} (hq : q ≠ []) (v : Value)
    (t : Tree) : (Path.ofKeys ((k :: q).map Key.text)).set v t =
      t.insert k (.map ((Path.ofKeys (q.map Key.text)).set v (t.childAt k))) := by
  rw [set_ofKeys_cons hk]
  cases q with
  | nil => exact absurd rfl hq
  | cons k' q => rfl

/-- Leaves under one key are set into the map under the key, which is there from the first of them
on. -/
theorem plantAll_map_under {k : Key} (hk : k.IsLiteral) {ls : List Leaf} (hne : ls ≠ [])
    (hbelow : ∀ l ∈ ls, l.1 ≠ []) (t : Tree) :
    t.plantAll (ls.map (Leaf.under k)) = t.insert k (.map ((t.childAt k).plantAll ls)) := by
  induction ls generalizing t with
  | nil => exact absurd rfl hne
  | cons l rest ih =>
      rw [List.forall_mem_cons] at hbelow
      obtain ⟨hl, hrest⟩ := hbelow
      have hfirst := set_ofKeys_under hk hl l.2 t
      show ((Path.ofKeys ((k :: l.1).map Key.text)).set l.2 t).plantAll _ = _
      rw [hfirst]
      cases rest with
      | nil => rfl
      | cons l' rest =>
          rw [ih (List.cons_ne_nil _ _) hrest, insert_insert_self,
            childAt_of_get? (get?_insert_self t k _)]
          rfl

/-- Setting the leaves of a tree puts its entries behind those that are there. -/
theorem plantAll_leaves {t : Tree} (ht : t.Distinct) (hkeys : t.EveryKey Key.IsLiteral)
    (hfull : t.EveryValue (· ≠ .map .nil)) {out : Tree} (hnew : ∀ k ∈ t.keys, k ∉ out.keys) :
    out.plantAll t.leaves = out.insertAll t.toList := by
  induction t using deepInduction generalizing out with
  | nil => rfl
  | cons k v rest ihv ihrest =>
      obtain ⟨hk, hv, hrest⟩ := ht
      obtain ⟨hliteral, hbelow, hothers⟩ := hkeys
      obtain ⟨hfullv, hfullrest⟩ := hfull
      have hknew : k ∉ out.keys := hnew k List.mem_cons_self
      have hfirst : out.plantAll (v.leaves.map (Leaf.under k)) = out.insert k v := by
        rcases v.exists_map_or_isMap_eq_false with ⟨child, rfl⟩ | hmap
        · have hleaves : child.leaves ≠ [] := leaves_ne_nil hfullv.2 fun h => hfullv.1 (by rw [h])
          -- There was no map under the key, so its leaves are set into an empty one.
          have hchild : Tree.nil.plantAll child.leaves = child := by
            rw [ihv child rfl hv hbelow hfullv.2 (by simp [keys])]
            exact ofList_toList hv.nodup_keys
          rw [Value.leaves,
            plantAll_map_under hliteral hleaves (fun l hl => ne_nil_of_mem_leaves hl),
            childAt_of_not_mem hknew, hchild]
        · rw [Value.leaves_of_not_map hmap]
          exact set_ofKeys_cons hliteral [] v out
      rw [leaves, plantAll_append, hfirst, ihrest hrest hothers hfullrest]
      · rfl
      · intro k' hk' hmem
        rcases (mem_keys_insert out k k' v).mp hmem with rfl | hout
        · exact hk hk'
        · exact hnew k' (List.mem_cons_of_mem _ hk') hout

/-- The leaves of a tree make the tree. -/
theorem plantAll_leaves_nil {t : Tree} (ht : t.Distinct) (hkeys : t.EveryKey Key.IsLiteral)
    (hfull : t.EveryValue (· ≠ .map .nil)) : Tree.nil.plantAll t.leaves = t := by
  rw [plantAll_leaves ht hkeys hfull (by simp [keys])]
  exact ofList_toList ht.nodup_keys

end Tree

end Quill
