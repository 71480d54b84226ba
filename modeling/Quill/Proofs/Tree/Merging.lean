import Quill.Proofs.Tree.Appending
import Quill.Tree.Merge

/-!
# Merging, one entry after the other

A merge takes the entries of the incoming tree in order.  Each does one of three things to the
target: it removes its key, it is appended, or it is put under its own key, merged with the map that
is there if it is a map too.  With distinct keys no entry comes back to the key of another, so an
entry that is put under its own key finds there what the target had, and stays to the end.
-/

namespace Quill.Tree

/-- The value that is put under a key: two maps are merged, anything else gives way to the incoming
value. -/
def mergedWith (o : MergeOptions) (found : Option Value) (v : Value) : Value :=
  match found, v with
  | some (.map existing), .map incoming => .map (merge o existing incoming)
  | _, v => v

/-- Bring one entry into a tree. -/
def absorbEntry (o : MergeOptions) (a : Tree) (k : Key) (v : Value) : Tree :=
  if o.allowRemoval && v == .unset then a.erase k
  else if appends o k v then a.push v
  else a.insert k (mergedWith o (a.get? k) v)

/-- An incoming entry removes its key. -/
def Removes (o : MergeOptions) (v : Value) : Prop :=
  o.allowRemoval = true ∧ v = .unset

/-- An incoming entry is put under its own key. -/
def Keeps (o : MergeOptions) (k : Key) (v : Value) : Prop :=
  ¬Removes o v ∧ appends o k v = false

variable {o : MergeOptions} {a b : Tree} {k other : Key} {v w : Value}

/-! ### The value under a key -/

@[simp] theorem mergedWith_maps (o : MergeOptions) (x y : Tree) :
    mergedWith o (some (.map x)) (.map y) = .map (merge o x y) := rfl

theorem mergedWith_of_isMap_eq_false (o : MergeOptions) (found : Option Value)
    (h : v.isMap = false) : mergedWith o found v = v := by
  unfold mergedWith
  split
  · cases h
  · rfl

theorem mergedWith_of_no_map (o : MergeOptions) {found : Option Value}
    (h : ∀ x, found ≠ some (.map x)) (v : Value) : mergedWith o found v = v := by
  unfold mergedWith
  split
  · exact absurd rfl (h _)
  · rfl

/-! ### One entry -/

/-- Whether a map is appended depends on the kind of its key alone. -/
theorem appends_map {x : Tree} (h : appends o k (.map x) = true) (hindex : other.isIndex = true)
    (y : Tree) : appends o other (.map y) = true := by
  unfold appends at h ⊢
  rw [Bool.and_eq_true] at h
  rw [hindex, Bool.true_and]
  exact h.2

theorem absorbEntry_of_removes (a : Tree) (k : Key) (h : Removes o v) :
    absorbEntry o a k v = a.erase k := by
  simp [absorbEntry, h.1, h.2]

theorem absorbEntry_of_appends (a : Tree) (hv : ¬Removes o v) (h : appends o k v = true) :
    absorbEntry o a k v = a.push v := by
  have hstays : ¬(o.allowRemoval && v == .unset) = true := by simpa [Removes] using hv
  rw [absorbEntry, if_neg hstays, if_pos h]

theorem absorbEntry_of_keeps (a : Tree) (h : Keeps o k v) :
    absorbEntry o a k v = a.insert k (mergedWith o (a.get? k) v) := by
  have hstays : ¬(o.allowRemoval && v == .unset) = true := by simpa [Removes] using h.1
  have hown : ¬appends o k v = true := by simp [h.2]
  rw [absorbEntry, if_neg hstays, if_neg hown]

/-- What an entry can do. -/
theorem absorbEntry_cases (o : MergeOptions) (a : Tree) (k : Key) (v : Value) :
    Removes o v ∧ absorbEntry o a k v = a.erase k ∨
      ¬Removes o v ∧ appends o k v = true ∧ absorbEntry o a k v = a.push v ∨
      Keeps o k v ∧ absorbEntry o a k v = a.insert k (mergedWith o (a.get? k) v) := by
  by_cases hremoves : Removes o v
  · exact .inl ⟨hremoves, absorbEntry_of_removes a k hremoves⟩
  · cases happends : appends o k v with
    | true => exact .inr (.inl ⟨hremoves, rfl, absorbEntry_of_appends a hremoves happends⟩)
    | false => exact .inr (.inr ⟨⟨hremoves, happends⟩, absorbEntry_of_keeps a ⟨hremoves, happends⟩⟩)

/-- A merge takes the first entry and goes on with the others. -/
theorem absorb_cons (o : MergeOptions) (a : Tree) (k : Key) (v : Value) (rest : Tree) :
    absorb o a (.cons k v rest) = absorb o (absorbEntry o a k v) rest := by
  rcases v.exists_map_or_isMap_eq_false with ⟨incoming, rfl⟩ | hmap
  · rw [absorb]
    split
    · rename_i happends
      rw [absorbEntry_of_appends a (by simp [Removes]) happends]
    · rename_i hown
      rw [absorbEntry_of_keeps a ⟨by simp [Removes], by simpa using hown⟩]
      split
      · rename_i existing hexisting
        rw [hexisting]
        rfl
      · rename_i hnone
        rw [mergedWith_of_no_map o hnone]
  · rw [absorbEntry, mergedWith_of_isMap_eq_false o _ hmap]
    cases v with
    | map incoming => cases hmap
    | _ =>
        simp only [absorb]
        split
        · rfl
        · split <;> rfl

/-! ### What is found under a key -/

theorem get?_absorbEntry_self (a : Tree) (h : Keeps o k v) :
    (absorbEntry o a k v).get? k = some (mergedWith o (a.get? k) v) := by
  rw [absorbEntry_of_keeps a h, get?_insert_self]

/-- Another key keeps its value, or it is an index that was free and holds the appended value. -/
theorem get?_absorbEntry_of_ne (o : MergeOptions) (a : Tree) (v : Value) (h : k ≠ other) :
    (absorbEntry o a k v).get? other = a.get? other ∨
      appends o k v = true ∧ other.isIndex = true ∧ a.get? other = none ∧
        (absorbEntry o a k v).get? other = some v := by
  obtain ⟨_, heq⟩ | ⟨_, happends, heq⟩ | ⟨_, heq⟩ := absorbEntry_cases o a k v
  · exact .inl (by rw [heq, get?_erase_of_ne a h])
  · rw [heq]
    exact (get?_push a v other).imp_right fun hpushed => ⟨happends, hpushed⟩
  · exact .inl (by rw [heq, get?_insert_of_ne a _ h])

/-- An entry leaves the value for the key of another one that is put under its own key. -/
theorem mergedWith_absorbEntry (a : Tree) (v : Value) (hne : k ≠ other) (h : Keeps o other w) :
    mergedWith o ((absorbEntry o a k v).get? other) w = mergedWith o (a.get? other) w := by
  obtain hsame | ⟨happends, hindex, hfree, hpushed⟩ := get?_absorbEntry_of_ne o a v hne
  · rw [hsame]
  · rw [hpushed, hfree]
    rcases w.exists_map_or_isMap_eq_false with ⟨y, rfl⟩ | hmap
    · -- A map that is appended tells that the other one would be appended too.
      have hno : ∀ x, some v ≠ some (.map x) := by
        intro x hx
        rw [Option.some.injEq] at hx
        rw [hx] at happends
        have hother := appends_map happends hindex y
        rw [h.2] at hother
        cases hother
      rw [mergedWith_of_no_map o hno]
      rfl
    · rw [mergedWith_of_isMap_eq_false o _ hmap, mergedWith_of_isMap_eq_false o _ hmap]

theorem get?_absorb_of_some (o : MergeOptions) (h : other ∉ b.keys) (hw : a.get? other = some w) :
    (absorb o a b).get? other = some w := by
  induction b generalizing a with
  | nil => exact hw
  | cons k v rest ih =>
      simp only [keys, List.mem_cons, not_or] at h
      rw [absorb_cons]
      refine ih h.2 ?_
      obtain hsame | ⟨_, _, hfree, _⟩ := get?_absorbEntry_of_ne o a v (Ne.symm h.1)
      · rw [hsame, hw]
      · rw [hfree] at hw
        cases hw

/-- What is put under its own key meets there what the target had, and it stays. -/
theorem get?_absorb_of_keeps (hb : b.keys.Nodup) (hw : b.get? k = some w) (h : Keeps o k w) :
    (absorb o a b).get? k = some (mergedWith o (a.get? k) w) := by
  induction b generalizing a with
  | nil => cases hw
  | cons k' v rest ih =>
      obtain ⟨hnot, hrest⟩ := List.nodup_cons.mp hb
      rw [absorb_cons]
      by_cases hk : k' = k
      · subst hk
        rw [get?, if_pos rfl, Option.some.injEq] at hw
        rw [hw]
        exact get?_absorb_of_some o hnot (get?_absorbEntry_self a h)
      · rw [get?, if_neg hk] at hw
        rw [ih hrest hw, mergedWith_absorbEntry a v hk h]

/-! ### The keys -/

/-- An entry that does not remove its key adds one key at the end, or none. -/
theorem keys_absorbEntry (a : Tree) (k : Key) (h : ¬Removes o v) :
    ∃ new, (absorbEntry o a k v).keys = a.keys ++ new ∧ new.length ≤ 1 := by
  obtain ⟨hremoves, _⟩ | ⟨_, _, heq⟩ | ⟨_, heq⟩ := absorbEntry_cases o a k v
  · exact absurd hremoves h
  · rw [heq]
    exact exists_keys_push a v
  · rw [heq]
    exact exists_keys_insert a k _

/-- Where no entry removes its key, the keys of the target stay in front, and no entry adds more
than one. -/
theorem exists_keys_absorb (h : ∀ e ∈ b.toList, ¬Removes o e.2) (a : Tree) :
    ∃ new, (absorb o a b).keys = a.keys ++ new ∧ new.length ≤ b.keys.length := by
  induction b generalizing a with
  | nil => exact ⟨[], (List.append_nil _).symm, Nat.le_refl _⟩
  | cons k v rest ih =>
      rw [toList, List.forall_mem_cons] at h
      obtain ⟨first, hfirst, hone⟩ := keys_absorbEntry a k h.1
      obtain ⟨new, hnew, hlength⟩ := ih h.2 (absorbEntry o a k v)
      refine ⟨first ++ new, ?_, ?_⟩
      · rw [absorb_cons, hnew, hfirst, List.append_assoc]
      · rw [List.length_append, keys, List.length_cons]
        omega

/-! ### Where every entry is put under its own key -/

theorem get?_absorb_of_not_mem (hkeeps : ∀ e ∈ b.toList, Keeps o e.1 e.2) (h : other ∉ b.keys) :
    (absorb o a b).get? other = a.get? other := by
  induction b generalizing a with
  | nil => rfl
  | cons k v rest ih =>
      simp only [keys, List.mem_cons, not_or] at h
      rw [toList, List.forall_mem_cons] at hkeeps
      rw [absorb_cons, ih hkeeps.2 h.2, absorbEntry_of_keeps a hkeeps.1,
        get?_insert_of_ne a _ (Ne.symm h.1)]

/-- The keys that are new follow those of the target, in the order in which they come. -/
theorem keys_absorb (hkeeps : ∀ e ∈ b.toList, Keeps o e.1 e.2) (hb : b.keys.Nodup) :
    (absorb o a b).keys = a.keys ++ b.keys.filter (· ∉ a.keys) := by
  induction b generalizing a with
  | nil => simp [absorb, keys]
  | cons k v rest ih =>
      obtain ⟨hnot, hrest⟩ := List.nodup_cons.mp hb
      rw [toList, List.forall_mem_cons] at hkeeps
      rw [absorb_cons, ih hkeeps.2 hrest, absorbEntry_of_keeps a hkeeps.1]
      by_cases hk : k ∈ a.keys
      · rw [keys_insert_of_mem a _ hk, keys, List.filter_cons_of_neg (by simpa using hk)]
      · have hsame : rest.keys.filter (· ∉ a.keys ++ [k]) = rest.keys.filter (· ∉ a.keys) := by
          refine List.filter_congr fun j hj => ?_
          have hne : j ≠ k := fun h => hnot (h ▸ hj)
          simp [hne]
        rw [keys_insert_of_not_mem a _ hk, hsame, keys,
          List.filter_cons_of_pos (by simpa using hk), List.append_assoc]
        rfl

/-! ### Whole merges -/

theorem merge_of_ne_nil (o : MergeOptions) (ha : a ≠ .nil) (b : Tree) :
    merge o a b = absorb o a b := by
  have hempty : a.isEmpty = false := by
    rw [← Bool.not_eq_true, isEmpty_iff]
    exact ha
  simp [merge, hempty]

theorem merge_of_allowRemoval (h : o.allowRemoval = true) (a b : Tree) :
    merge o a b = absorb o a b := by
  simp [merge, h]

theorem merge_nil_left (h : o.allowRemoval = false) (b : Tree) : merge o .nil b = b := by
  simp [merge, h, isEmpty]

/-- An empty target takes over the incoming entries as they are. -/
theorem absorb_nil_left (hkeeps : ∀ e ∈ b.toList, Keeps o e.1 e.2) (hb : b.keys.Nodup) :
    absorb o .nil b = b := by
  have hkeys : (absorb o .nil b).keys = b.keys := by
    rw [keys_absorb hkeeps hb]
    simp [keys]
  refine eq_of_get?_eq (hkeys ▸ hb) hkeys fun k hk => ?_
  rw [hkeys, ← contains_iff, contains, Option.isSome_iff_exists] at hk
  obtain ⟨w, hw⟩ := hk
  rw [get?_absorb_of_keeps hb hw (hkeeps _ (mem_toList_of_get? hw)), hw]
  rfl

/-- Without the short cut for an empty target a merge would answer the same. -/
theorem merge_eq_absorb (hkeeps : ∀ e ∈ b.toList, Keeps o e.1 e.2) (hb : b.keys.Nodup) (a : Tree) :
    merge o a b = absorb o a b := by
  cases hremoval : o.allowRemoval with
  | true => exact merge_of_allowRemoval hremoval a b
  | false =>
      cases a with
      | nil => rw [merge_nil_left hremoval, absorb_nil_left hkeeps hb]
      | cons k v rest => exact merge_of_ne_nil o (by simp) b

/-! ### Distinct keys -/

theorem Distinct.mergedWith {found : Option Value} (hv : v.Distinct)
    (h : ∀ x y, found = some (.map x) → v = .map y → (merge o x y).Distinct) :
    (mergedWith o found v).Distinct := by
  unfold Tree.mergedWith
  split
  · exact h _ _ rfl rfl
  · exact hv

theorem Distinct.absorbEntry (ha : a.Distinct) (hv : v.Distinct)
    (h : ∀ x y, x.Distinct → v = .map y → (merge o x y).Distinct) (k : Key) :
    (absorbEntry o a k v).Distinct := by
  obtain ⟨_, heq⟩ | ⟨_, _, heq⟩ | ⟨_, heq⟩ := absorbEntry_cases o a k v
  · rw [heq]
    exact ha.erase k
  · rw [heq]
    exact ha.push hv
  · rw [heq]
    refine ha.insert k (Distinct.mergedWith hv fun x y hfound hy => h x y ?_ hy)
    exact ha.of_get? hfound

theorem Distinct.absorb (ha : a.Distinct) (hb : b.Distinct)
    (h : ∀ k x y, x.Distinct → b.get? k = some (.map y) → (merge o x y).Distinct) :
    (absorb o a b).Distinct := by
  induction b generalizing a with
  | nil => exact ha
  | cons k v rest ih =>
      obtain ⟨hnot, hv, hrest⟩ := hb
      rw [absorb_cons]
      refine ih (ha.absorbEntry hv (fun x y hx hy => h k x y hx ?_) k) hrest ?_
      · rw [get?, if_pos rfl, hy]
      · intro k' x y hx hy
        have hne : k ≠ k' := fun heq => hnot (heq ▸ mem_keys_of_get? hy)
        refine h k' x y hx ?_
        rw [get?, if_neg hne, hy]

/-- A merge keeps the keys of every map distinct. -/
theorem Distinct.merge (ha : a.Distinct) (hb : b.Distinct) : (merge o a b).Distinct := by
  induction b using childInduction generalizing a with
  | step b ih =>
      unfold Tree.merge
      split
      · exact hb
      · exact ha.absorb hb fun k x y hx hy => ih k y hy hx (hb.of_get? hy)

/-! ### What holds at every depth -/

/-- What holds everywhere in a target holds there after an entry if it holds everywhere in the value
that is appended or put under the key. -/
theorem EveryValue.absorbEntry {P : Value → Prop} (ha : a.EveryValue P)
    (hpush : ¬Removes o v → appends o k v = true → v.Everywhere P)
    (hkeep : Keeps o k v → (mergedWith o (a.get? k) v).Everywhere P) :
    (absorbEntry o a k v).EveryValue P := by
  obtain ⟨_, heq⟩ | ⟨hstays, happends, heq⟩ | ⟨hkeeps, heq⟩ := absorbEntry_cases o a k v
  · rw [heq]
    exact ha.erase k
  · rw [heq]
    exact ha.push (hpush hstays happends)
  · rw [heq]
    exact ha.insert k (hkeep hkeeps)

theorem EveryValue.absorb {P : Value → Prop} (hb : b.keys.Nodup)
    (ha : a.EveryValue P)
    (hpush : ∀ k v, b.get? k = some v → ¬Removes o v → appends o k v = true → v.Everywhere P)
    (hkeep : ∀ k v, b.get? k = some v → Keeps o k v →
      (mergedWith o (a.get? k) v).Everywhere P) :
    (absorb o a b).EveryValue P := by
  induction b generalizing a with
  | nil => exact ha
  | cons k v rest ih =>
      obtain ⟨hnot, hrest⟩ := List.nodup_cons.mp hb
      have hfirst : (Tree.cons k v rest).get? k = some v := if_pos rfl
      have hothers :
          ∀ j w, rest.get? j = some w → k ≠ j ∧ (Tree.cons k v rest).get? j = some w := by
        intro j w hw
        have hne : k ≠ j := fun heq => hnot (heq ▸ mem_keys_of_get? hw)
        exact ⟨hne, by rw [get?, if_neg hne, hw]⟩
      rw [absorb_cons]
      refine ih hrest (ha.absorbEntry (hpush k v hfirst) (hkeep k v hfirst)) ?_ ?_
      · intro j w hw
        exact hpush j w (hothers j w hw).2
      · intro j w hw hkeeps
        rw [mergedWith_absorbEntry a v (hothers j w hw).1 hkeeps]
        exact hkeep j w (hothers j w hw).2 hkeeps

end Quill.Tree
