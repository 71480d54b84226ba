import Quill.Proofs.Text.Joining
import Quill.Proofs.Tree.KeyText
import Quill.Proofs.Tree.Leaves
import Quill.Tree.Leaves

/-!
# Flattening

Flattening puts every leaf of a tree under one key, the texts of the keys that lead to it, marked
and joined.  No leaf is lost if the joined texts of different leaves are different, and they are
where each text can be cut off from those behind it.

It cannot always.  Flattening marks a separator inside of a key with a backslash but does not mark
the backslashes of the keys, so a key that ends in one takes hold of the separator behind it; and a
separator of several characters may begin inside of a key and end in the separator behind it.  Then
two leaves can have one joined text, and the one that comes second replaces the first.

Main statement: if the separator has no backslash and the keys that hold maps end clear of it, the
flat tree has one entry for each leaf.
-/

namespace Quill.Tree

/-- The key under which flattening puts what a list of keys leads to. -/
def flatKey (separator : List Char) (q : List Key) : Key :=
  .ofChars (Text.join separator (q.map (escapedKey separator)))

theorem chars_flatKey (separator : List Char) (q : List Key) :
    (flatKey separator q).chars = Text.join separator (q.map (escapedKey separator)) :=
  Key.chars_ofChars _

/-- The entry that flattening makes of a leaf. -/
def flatEntry (separator : List Char) (l : Leaf) : Key × Value :=
  (flatKey separator l.1, l.2)

theorem flattenInto_of_not_map (separator : List Char) (trail : List (List Char)) (out : Tree)
    (k : Key) {v : Value} (h : v.isMap = false) (rest : Tree) :
    flattenInto separator trail out (.cons k v rest) =
      flattenInto separator trail
        (out.insert (.ofChars (Text.join separator (trail ++ [escapedKey separator k]))) v)
        rest := by
  cases v with
  | map child => cases h
  | _ => rfl

/-- Flattening inserts the leaves one after the other. -/
theorem flattenInto_eq_insertAll (separator : List Char) (trail : List (List Char)) (out t : Tree) :
    flattenInto separator trail out t = out.insertAll (t.leaves.map fun l =>
      (.ofChars (Text.join separator (trail ++ l.1.map (escapedKey separator))), l.2)) := by
  induction t using deepInduction generalizing trail out with
  | nil => rfl
  | cons k v rest ihv ihrest =>
      rw [leaves, List.map_append, insertAll_append]
      rcases v.exists_map_or_isMap_eq_false with ⟨child, rfl⟩ | hmap
      · rw [flattenInto, ihv child rfl, ihrest]
        simp [Value.leaves, Leaf.under, Function.comp_def]
      · rw [flattenInto_of_not_map _ _ _ _ hmap, ihrest, Value.leaves_of_not_map hmap]
        rfl

theorem flatten_eq_ofList (t : Tree) (separator : String) :
    t.flatten separator = ofList (t.leaves.map (flatEntry separator.toList)) :=
  flattenInto_eq_insertAll separator.toList [] .nil t

theorem map_escapedKey (separator : List Char) (q : List Key) :
    q.map (escapedKey separator) = (q.map Key.chars).map (Text.marked separator) := by
  rw [List.map_map]
  rfl

/-- Lists of canonical keys with one joined text are the same, if the ends of their texts are
clear. -/
theorem eq_of_flatKey_eq {separator : List Char} (hne : separator ≠ []) (hslash : '\\' ∉ separator)
    {q q' : List Key} (hq : q ≠ []) (hq' : q' ≠ []) (hkeys : ∀ k ∈ q, k.IsCanonical)
    (hkeys' : ∀ k ∈ q', k.IsCanonical)
    (hclear : ∀ k ∈ q.dropLast, Text.EndsClear separator k.chars)
    (hclear' : ∀ k ∈ q'.dropLast, Text.EndsClear separator k.chars)
    (h : flatKey separator q = flatKey separator q') : q = q' := by
  have hends : ∀ {q : List Key}, (∀ k ∈ q.dropLast, Text.EndsClear separator k.chars) →
      ∀ s ∈ (q.map Key.chars).dropLast, Text.EndsClear separator s := by
    intro q hq s hs
    rw [← List.map_dropLast] at hs
    obtain ⟨k, hk, rfl⟩ := List.mem_map.mp hs
    exact hq k hk
  have hjoined := congrArg Key.chars h
  rw [chars_flatKey, chars_flatKey, map_escapedKey, map_escapedKey] at hjoined
  have htexts : q.map Key.chars = q'.map Key.chars :=
    Text.eq_of_join_marked_eq hne hslash (by simpa using hq) (by simpa using hq') (hends hclear)
      (hends hclear') hjoined
  exact Key.eq_of_map_chars_eq hkeys hkeys' htexts

section Distinct

variable {t : Tree} (ht : t.Distinct) (hkeys : t.EveryKey Key.IsCanonical) {separator : List Char}
  (hne : separator ≠ []) (hslash : '\\' ∉ separator)
  (hclear : ∀ front k child, t.at? (front ++ [k]) = some (.map child) →
    Text.EndsClear separator k.chars)

include ht hkeys hne hslash hclear

/-- Different leaves get different keys. -/
theorem nodup_flatKeys : (t.leaves.map fun l => flatKey separator l.1).Nodup := by
  have hpaths : ((t.leaves.map (·.1)).map (flatKey separator)).Nodup := by
    refine List.Nodup.map_on ?_ (nodup_leaves ht)
    have hleaf : ∀ q ∈ t.leaves.map (·.1), q ≠ [] ∧ (∀ k ∈ q, k.IsCanonical) ∧
        ∀ k ∈ q.dropLast, Text.EndsClear separator k.chars := by
      intro q hq
      obtain ⟨⟨q, v⟩, hl, rfl⟩ := List.mem_map.mp hq
      obtain ⟨hfound, _⟩ := (mem_leaves_iff ht q v).mp hl
      refine ⟨ne_nil_of_mem_leaves hl, hkeys.of_at? hfound, fun k hk => ?_⟩
      obtain ⟨front, child, hchild⟩ := exists_map_of_mem_dropLast hfound hk
      exact hclear front k child hchild
    intro q hq q' hq' heq
    obtain ⟨hqne, hqkeys, hqclear⟩ := hleaf q hq
    obtain ⟨hqne', hqkeys', hqclear'⟩ := hleaf q' hq'
    exact eq_of_flatKey_eq hne hslash hqne hqne' hqkeys hqkeys' hqclear hqclear' heq
  rwa [List.map_map] at hpaths

/-- The flat tree holds one entry for each leaf, in their order. -/
theorem toList_ofList_flatEntries :
    (ofList (t.leaves.map (flatEntry separator))).toList = t.leaves.map (flatEntry separator) := by
  apply toList_ofList
  rw [List.map_map]
  exact nodup_flatKeys ht hkeys hne hslash hclear

end Distinct

/-- Flattening loses no leaf, provided that the separator has no backslash and that every key that
holds a map ends clear of it.  The leaves are the values that are not maps; their joined keys are
pairwise different, and the flat tree has an entry with its value for each of them and no others. -/
theorem flatten_keeps_leaves {t : Tree} (ht : t.Distinct) (hkeys : t.EveryKey Key.IsCanonical)
    {separator : String} (hne : separator ≠ "") (hslash : '\\' ∉ separator.toList)
    (hclear : ∀ front k child, t.at? (front ++ [k]) = some (.map child) →
      Text.EndsClear separator.toList k.chars) :
    (∀ q v, (q, v) ∈ t.leaves ↔ t.at? q = some v ∧ v.isMap = false) ∧
      (t.leaves.map fun l => flatKey separator.toList l.1).Nodup ∧
      (t.flatten separator).toList = t.leaves.map (flatEntry separator.toList) := by
  have hsome : separator.toList ≠ [] := by simpa using hne
  refine ⟨mem_leaves_iff ht, nodup_flatKeys ht hkeys hsome hslash hclear, ?_⟩
  rw [flatten_eq_ofList]
  exact toList_ofList_flatEntries ht hkeys hsome hslash hclear

/-- Keys that all end clear of the separator do so where they hold maps. -/
theorem endsClear_of_everyKey {t : Tree} {separator : List Char}
    (h : t.EveryKey fun k => Text.EndsClear separator k.chars) (front : List Key) (k : Key)
    (child : Tree) (hfound : t.at? (front ++ [k]) = some (.map child)) :
    Text.EndsClear separator k.chars :=
  h.of_at? hfound k (by simp)

/-- Maps with separators inside of their keys, and with the beginning of one where a key begins. -/
def colonSample : Tree :=
  .cons (.name "a::b") (.map (.cons (.name ":c") (.int 1) (.cons (.index 0) (.bool true) .nil)))
    (.cons (.name "a") (.map (.cons (.name "b") (.map (.cons (.name "c") .null .nil)) .nil)) .nil)

theorem flatten_keeps_leaves_colonSample :
    colonSample.Distinct ∧ colonSample.EveryKey Key.IsCanonical ∧ '\\' ∉ "::".toList ∧
      colonSample.EveryKey (fun k => Text.EndsClear "::".toList k.chars) ∧
      (colonSample.leaves.map fun l => flatKey "::".toList l.1).Nodup ∧
      (colonSample.flatten "::").toList =
        [(.name "a\\::b:::c", .int 1), (.name "a\\::b::0", .bool true),
          (.name "a::b::c", .null)] := by
  have ht : colonSample.Distinct := by
    simp [colonSample, Distinct, Value.Distinct, keys]
  have hkeys : colonSample.EveryKey Key.IsCanonical := by
    simp only [colonSample, EveryKey, Value.EveryKey]
    decide +kernel
  have hslash : '\\' ∉ "::".toList := by decide
  have hclear : colonSample.EveryKey (fun k => Text.EndsClear "::".toList k.chars) := by
    simp only [colonSample, EveryKey, Value.EveryKey]
    decide +kernel
  obtain ⟨_, hnodup, hflat⟩ :=
    flatten_keeps_leaves ht hkeys (by decide) hslash (endsClear_of_everyKey hclear)
  exact ⟨ht, hkeys, hslash, hclear, hnodup, hflat.trans (by decide +kernel)⟩

/-- Without the proviso leaves are lost.  A key that ends in a backslash makes the separator behind
it look like one inside of a key, and of two keys joined by two full stops it cannot be told which
one had a third. -/
theorem flatten_loses_leaf :
    let t := Tree.cons (.name "a\\") (.map (.cons (.name "b") (.int 1) .nil))
      (.cons (.name "a.b") (.int 2) .nil)
    let u := Tree.cons (.name "a.") (.map (.cons (.name "b") (.int 1) .nil))
      (.cons (.name "a") (.map (.cons (.name ".b") (.int 2) .nil)) .nil)
    (t.Distinct ∧ t.EveryKey Key.IsCanonical ∧
      t.at? [.name "a\\", .name "b"] = some (.int 1) ∧ t.at? [.name "a.b"] = some (.int 2) ∧
      flatKey ".".toList [.name "a\\", .name "b"] = flatKey ".".toList [.name "a.b"] ∧
      t.flatten "." = .cons (.name "a\\.b") (.int 2) .nil) ∧
    u.Distinct ∧ u.EveryKey Key.IsCanonical ∧
      u.at? [.name "a.", .name "b"] = some (.int 1) ∧
      u.at? [.name "a", .name ".b"] = some (.int 2) ∧
      u.flatten ".." = .cons (.name "a...b") (.int 2) .nil := by
  intro t u
  have ht : t.Distinct := by simp [t, Distinct, Value.Distinct, keys]
  have hu : u.Distinct := by simp [u, Distinct, Value.Distinct, keys]
  have htkeys : t.EveryKey Key.IsCanonical := by
    simp only [t, EveryKey, Value.EveryKey]
    decide
  have hukeys : u.EveryKey Key.IsCanonical := by
    simp only [u, EveryKey, Value.EveryKey]
    decide
  exact ⟨⟨ht, htkeys, by decide, by decide, by decide, by decide⟩, hu, hukeys, by decide, by decide,
    by decide⟩

end Quill.Tree
