import Quill.Proofs.Tree.Merging

/-!
# Attaching

One tree attached at the end of another.  Only names come back to what is there: a value under an
index key is appended, so that its own key is lost, and no entry under an index key is overwritten.
The indices that are given out follow one another until the greatest one is taken, and the values
for which none is left are dropped.  Two sequences of leaves are concatenated by it, and by a merge
as well, which appends leaves too.
-/

namespace Quill.Tree

/-- The entries under index keys, in order. -/
def indexEntries (t : Tree) : List (Key × Value) :=
  t.toList.filter (·.1.isIndex)

/-- The values under index keys, in order. -/
def indexValues (t : Tree) : List Value :=
  t.indexEntries.map (·.2)

/-- What appending `v` to `t` does, with its answer.  The value comes last, under an index that is
beyond all others, unless the greatest index is taken. -/
inductive IsPushed (t : Tree) (v : Value) : Option Key → Tree → Prop
  | last {i : Int64} {now : Tree} : 0 ≤ i → (∀ j, .index j ∈ t.keys → j < i) →
      t.get? (.index i) = none → .index Int64.maxValue ∉ t.keys →
      now.toList = t.toList ++ [(.index i, v)] → IsPushed t v (some (.index i)) now
  | dropped : .index Int64.maxValue ∈ t.keys → IsPushed t v none t

/-- `c` is `a` with `b` attached. -/
structure IsAttached (a b c : Tree) : Prop where
  /-- What is under an index stays. -/
  kept : ∀ i v, a.get? (.index i) = some v → c.get? (.index i) = some v
  /-- The values of `b` under index keys follow, as many as there are indices for. -/
  appended : c.indexEntries =
    a.indexEntries ++ (sequenceFrom a.ceiling (b.indexValues.take (2 ^ 63 - a.ceiling))).toList
  /-- Under a name there is what `b` holds, and what `a` holds where `b` holds nothing. -/
  named : ∀ s, c.get? (.name s) = (b.get? (.name s)).or (a.get? (.name s))
  /-- The keys of `a` keep their places. -/
  before : a.keys <+: c.keys

/-! ### One appended value -/

theorem isPushed_push (t : Tree) (v : Value) : IsPushed t v t.pushedKey? (t.push v) := by
  rcases t.push_cases v with ⟨hnone, hsame⟩ | ⟨i, hi, hfree, hpush⟩
  · rw [pushedKey?, hnone, hsame]
    exact .dropped (t.nextIndex?_eq_none_iff.mp hnone)
  · have hnext := toInt_of_nextIndex? hi
    rw [pushedKey?, hi, hpush]
    refine .last ?_ ?_ hfree ?_ (toList_insert_of_not_mem t v ((get?_eq_none_iff t _).mp hfree))
    · rw [Int64.le_iff_toInt_le, hnext]
      exact Int.natCast_nonneg _
    · intro j hj
      rw [Int64.lt_iff_toInt_lt, hnext]
      exact toInt_lt_ceiling hj
    · intro hgreatest
      rw [← nextIndex?_eq_none_iff, hi] at hgreatest
      cases hgreatest

/-- A value that is there is not touched. -/
theorem get?_push_of_some {t : Tree} {k : Key} {w : Value} (h : t.get? k = some w) (v : Value) :
    (t.push v).get? k = some w := by
  obtain hsame | ⟨_, hfree, _⟩ := get?_push t v k
  · rw [hsame, h]
  · rw [hfree] at h
    cases h

theorem get?_push_name (t : Tree) (v : Value) (s : String) :
    (t.push v).get? (.name s) = t.get? (.name s) := by
  obtain hsame | ⟨hindex, _⟩ := get?_push t v (.name s)
  · exact hsame
  · cases hindex

theorem indexEntries_push (t : Tree) (v : Value) :
    (t.push v).indexEntries =
      t.indexEntries ++
        if t.ceiling = 2 ^ 63 then [] else [(.index (Int64.ofNat t.ceiling), v)] := by
  rw [indexEntries, toList_push, List.filter_append, indexEntries]
  split <;> rfl

theorem indexEntries_insert_name (t : Tree) (s : String) (v : Value) :
    (t.insert (.name s) v).indexEntries = t.indexEntries := by
  induction t with
  | nil => rfl
  | cons k w rest ih =>
      unfold indexEntries at ih ⊢
      by_cases hk : k = .name s
      · subst hk
        rw [insert, if_pos rfl]
        rfl
      · rw [insert, if_neg hk, toList, toList, List.filter_cons, List.filter_cons, ih]

/-! ### The attached entries -/

theorem attach_index (a : Tree) (i : Int64) (v : Value) (rest : Tree) :
    attach a (.cons (.index i) v rest) = attach (a.push v) rest := rfl

theorem attach_name (a : Tree) (s : String) (v : Value) (rest : Tree) :
    attach a (.cons (.name s) v rest) = attach (a.insert (.name s) v) rest := rfl

/-- The first of the values to come takes the ceiling, if it is not out of reach. -/
theorem toList_sequenceFrom_take_cons {i : Nat} (hi : i < 2 ^ 63) (v : Value) (vs : List Value) :
    (sequenceFrom i ((v :: vs).take (2 ^ 63 - i))).toList =
      (.index (Int64.ofNat i), v) ::
        (sequenceFrom (i + 1) (vs.take (2 ^ 63 - (i + 1)))).toList := by
  have hroom : 2 ^ 63 - i = 2 ^ 63 - (i + 1) + 1 := by omega
  rw [hroom, List.take_succ_cons, sequenceFrom, toList]

/-- The values under index keys take consecutive indices from the ceiling on, as long as there are
any. -/
theorem indexEntries_attach (a b : Tree) :
    (attach a b).indexEntries =
      a.indexEntries ++
        (sequenceFrom a.ceiling (b.indexValues.take (2 ^ 63 - a.ceiling))).toList := by
  induction b generalizing a with
  | nil =>
      rw [attach, indexValues, indexEntries, indexEntries, toList, List.filter_nil, List.map_nil,
        List.take_nil, sequenceFrom, toList, List.append_nil]
  | cons k v rest ih =>
      cases k with
      | name s =>
          have hsame : (Tree.cons (.name s) v rest).indexValues = rest.indexValues := rfl
          have hceiling : (a.insert (.name s) v).ceiling = a.ceiling := by
            rw [ceiling_insert, Key.above, Nat.max_zero]
          rw [attach_name, ih, indexEntries_insert_name, hceiling, hsame]
      | index j =>
          have hmore : (Tree.cons (.index j) v rest).indexValues = v :: rest.indexValues := rfl
          have hle := a.ceiling_le
          rw [attach_index, ih, indexEntries_push, ceiling_push, hmore, List.append_assoc]
          by_cases hfull : a.ceiling = 2 ^ 63
          · -- Out of reach the ceiling stays where it is, and no later value is taken either.
            have hstays : min (a.ceiling + 1) (2 ^ 63) = a.ceiling := by omega
            have hroom : 2 ^ 63 - a.ceiling = 0 := by omega
            rw [if_pos hfull, hstays, hroom, List.take_zero, List.take_zero, List.nil_append]
          · have hnext : min (a.ceiling + 1) (2 ^ 63) = a.ceiling + 1 := by omega
            rw [if_neg hfull, hnext, toList_sequenceFrom_take_cons (by omega),
              List.singleton_append]

theorem prefix_keys_attach (a b : Tree) : a.keys <+: (attach a b).keys := by
  induction b generalizing a with
  | nil => exact List.prefix_refl _
  | cons k v rest ih =>
      rw [attach]
      split
      · obtain ⟨new, hnew, _⟩ := exists_keys_push a v
        exact List.IsPrefix.trans ⟨new, hnew.symm⟩ (ih _)
      · obtain ⟨new, hnew, _⟩ := exists_keys_insert a k v
        exact List.IsPrefix.trans ⟨new, hnew.symm⟩ (ih _)

theorem get?_attach_index {a : Tree} {i : Int64} {w : Value} (h : a.get? (.index i) = some w)
    (b : Tree) : (attach a b).get? (.index i) = some w := by
  induction b generalizing a with
  | nil => exact h
  | cons k v rest ih =>
      cases k with
      | index j =>
          rw [attach_index]
          exact ih (get?_push_of_some h v)
      | name s =>
          rw [attach_name]
          exact ih (by rw [get?_insert_of_ne a v (by simp), h])

theorem get?_attach_name (a : Tree) {b : Tree} (hb : b.keys.Nodup) (s : String) :
    (attach a b).get? (.name s) = (b.get? (.name s)).or (a.get? (.name s)) := by
  induction b generalizing a with
  | nil => rfl
  | cons k v rest ih =>
      obtain ⟨hnot, hrest⟩ := List.nodup_cons.mp hb
      cases k with
      | index j => rw [attach_index, ih _ hrest, get?_push_name, get?, if_neg (by simp)]
      | name s' =>
          rw [attach_name, ih _ hrest, get?]
          by_cases hs : s' = s
          · subst hs
            rw [(get?_eq_none_iff rest _).mpr hnot, get?_insert_self, if_pos rfl]
            rfl
          · have hne : Key.name s' ≠ .name s := by simpa using hs
            rw [get?_insert_of_ne a v hne, if_neg hne]

theorem isAttached_attach (a : Tree) {b : Tree} (hb : b.keys.Nodup) :
    IsAttached a b (attach a b) where
  kept _ _ h := get?_attach_index h b
  appended := indexEntries_attach a b
  named := get?_attach_name a hb
  before := prefix_keys_attach a b

/-! ### Sequences -/

theorem attach_sequenceFrom (a : Tree) (i : Nat) (vs : List Value) :
    attach a (sequenceFrom i vs) = vs.foldl push a := by
  induction vs generalizing a i with
  | nil => rfl
  | cons v rest ih => rw [sequenceFrom, attach_index, ih, List.foldl_cons]

/-- A merge appends leaves one after the other. -/
theorem absorb_sequenceFrom {vs : List Value} (hleaves : ∀ v ∈ vs, v.isMap = false) (a : Tree)
    (i : Nat) : absorb {} a (sequenceFrom i vs) = vs.foldl push a := by
  induction vs generalizing a i with
  | nil => rfl
  | cons v rest ih =>
      rw [List.forall_mem_cons] at hleaves
      have happends : appends {} (.index (Int64.ofNat i)) v = true := by
        rw [appends, hleaves.1]
        rfl
      rw [sequenceFrom, absorb_cons, absorbEntry_of_appends a (by simp [Removes]) happends,
        ih hleaves.2, List.foldl_cons]

theorem attach_sequence {xs : List Value} (hxs : xs.length ≤ 2 ^ 63) (ys : List Value) :
    attach (sequence xs) (sequence ys) = sequence ((xs ++ ys).take (2 ^ 63)) := by
  rw [sequence, sequence, attach_sequenceFrom]
  exact foldl_push_sequence hxs ys

theorem merge_sequence {xs ys : List Value} (hxs : xs.length ≤ 2 ^ 63) (hys : ys.length ≤ 2 ^ 63)
    (hleaves : ∀ v ∈ ys, v.isMap = false) :
    merge {} (sequence xs) (sequence ys) = sequence ((xs ++ ys).take (2 ^ 63)) := by
  cases xs with
  | nil =>
      -- An empty target takes over the sequence as it is, its keys along with it.
      rw [List.nil_append, List.take_of_length_le hys]
      exact merge_nil_left rfl _
  | cons x rest =>
      have hne : sequence (x :: rest) ≠ .nil := by simp [sequence, sequenceFrom]
      rw [merge_of_ne_nil _ hne, sequence, sequence, absorb_sequenceFrom hleaves]
      exact foldl_push_sequence hxs ys

/-- Appending never overwrites.  A value that is appended comes last, under an index beyond all
others, or is dropped because the greatest index is taken.  So a tree that is attached leaves every
entry under an index as it is.  Sequences of leaves, as long as sequences can be, are concatenated
by attaching and by merging alike, up to the greatest index. -/
theorem appending_never_overwrites :
    (∀ t v, IsPushed t v t.pushedKey? (t.push v)) ∧
      (∀ a b : Tree, b.keys.Nodup → IsAttached a b (attach a b)) ∧
      ∀ xs ys : List Value, xs.length ≤ 2 ^ 63 → ys.length ≤ 2 ^ 63 →
        attach (sequence xs) (sequence ys) = sequence ((xs ++ ys).take (2 ^ 63)) ∧
          ((∀ v ∈ ys, v.isMap = false) →
            merge {} (sequence xs) (sequence ys) = sequence ((xs ++ ys).take (2 ^ 63))) :=
  ⟨isPushed_push, fun a _ hb => isAttached_attach a hb, fun _ ys hxs hys =>
    ⟨attach_sequence hxs ys, merge_sequence hxs hys⟩⟩

/-- One index is left, so the second of the values finds none. -/
def nearlyFull : Tree :=
  ofList [(.name "kind", .string "old"), (.index (Int64.maxValue - 1), .bool true)]

/-- Two values under index keys, with a name between them. -/
def twoAndName : Tree :=
  ofList [(.index 0, .int 5), (.name "kind", .string "new"), (.index 1, .map .nil)]

theorem appending_never_overwrites_nearlyFull :
    IsPushed nearlyFull .null (some (.index Int64.maxValue)) (nearlyFull.push .null) ∧
      IsPushed (attach nearlyFull twoAndName) .null none
        ((attach nearlyFull twoAndName).push .null) ∧
      twoAndName.keys.Nodup ∧
      (attach nearlyFull twoAndName).indexEntries =
        [(.index (Int64.maxValue - 1), .bool true), (.index Int64.maxValue, .int 5)] ∧
      (attach nearlyFull twoAndName).get? (.name "kind") = some (.string "new") ∧
      attach (sequence [.null]) (sequence [.unset]) = sequence [.null, .unset] ∧
      merge {} (sequence [.null]) (sequence [.unset]) = sequence [.null, .unset] := by
  obtain ⟨hpush, hattach, hsequence⟩ := appending_never_overwrites
  have hdistinct : twoAndName.keys.Nodup := by decide +kernel
  have hattached := hattach nearlyFull twoAndName hdistinct
  have hboth := hsequence [.null] [.unset] (by decide) (by decide)
  exact ⟨hpush nearlyFull .null, hpush (attach nearlyFull twoAndName) .null, hdistinct,
    hattached.appended, hattached.named "kind", hboth.1, hboth.2 (by decide)⟩

end Quill.Tree
