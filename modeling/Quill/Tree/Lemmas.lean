import Quill.Tree.Basic

/-!
# Entries of trees

What each operation on the entries of a tree does to look-ups and to the order of the keys.
Insertion keeps the keys distinct and puts a new key last, removal keeps the order of the keys
that stay.  The values are not looked into here.
-/

namespace Quill

namespace Tree

/-- Induction over the entries of a tree. -/
@[elab_as_elim, induction_eliminator]
theorem entryInduction {motive : Tree → Prop} (nil : motive .nil)
    (cons : ∀ key value rest, motive rest → motive (.cons key value rest)) : ∀ t, motive t
  | .nil => nil
  | .cons key value rest => cons key value rest (entryInduction nil cons rest)

/-! ### Views -/

theorem keys_eq_map_toList (t : Tree) : t.keys = t.toList.map (·.1) := by
  induction t with
  | nil => rfl
  | cons k v rest ih => simp [keys, toList, ih]

theorem values_eq_map_toList (t : Tree) : t.values = t.toList.map (·.2) := by
  induction t with
  | nil => rfl
  | cons k v rest ih => simp [values, toList, ih]

theorem isEmpty_iff (t : Tree) : t.isEmpty = true ↔ t = .nil := by
  cases t with
  | nil => simp [isEmpty]
  | cons k v rest => simp [isEmpty]

theorem keys_eq_nil_iff (t : Tree) : t.keys = [] ↔ t = .nil := by
  cases t with
  | nil => simp [keys]
  | cons k v rest => simp [keys]

/-- Trees with the same entries in the same order are equal. -/
theorem toList_injective : ∀ {t u : Tree}, t.toList = u.toList → t = u
  | .nil, .nil, _ => rfl
  | .nil, .cons .., h => by simp [toList] at h
  | .cons .., .nil, h => by simp [toList] at h
  | .cons k v rest, .cons k' v' rest', h => by
      simp only [toList, List.cons.injEq, Prod.mk.injEq] at h
      obtain ⟨⟨rfl, rfl⟩, h⟩ := h
      rw [toList_injective h]

/-! ### Looking up -/

theorem get?_eq_none_iff (t : Tree) (key : Key) : t.get? key = none ↔ key ∉ t.keys := by
  induction t with
  | nil => simp [get?, keys]
  | cons k v rest ih =>
      by_cases h : k = key
      · simp [get?, keys, h]
      · simp [get?, keys, h, ih, Ne.symm h]

theorem contains_iff (t : Tree) (key : Key) : t.contains key = true ↔ key ∈ t.keys := by
  have h := t.get?_eq_none_iff key
  cases hg : t.get? key with
  | none => simpa [contains, hg] using h.mp hg
  | some v =>
      simp only [contains, hg, Option.isSome_some, true_iff]
      exact Decidable.byContradiction fun hn => by simp [h.mpr hn] at hg

theorem mem_keys_of_get? {t : Tree} {key : Key} {v : Value} (h : t.get? key = some v) :
    key ∈ t.keys :=
  (t.contains_iff key).mp (by simp [contains, h])

theorem mem_toList_of_get? {t : Tree} {k : Key} {v : Value} (h : t.get? k = some v) :
    (k, v) ∈ t.toList := by
  induction t with
  | nil => cases h
  | cons k' v' rest ih =>
      by_cases hk : k' = k
      · rw [get?, if_pos hk, Option.some.injEq] at h
        rw [hk, h]
        exact List.mem_cons_self
      · rw [get?, if_neg hk] at h
        exact List.mem_cons_of_mem _ (ih h)

theorem get?_of_mem_toList {t : Tree} (ht : t.keys.Nodup) {k : Key} {v : Value}
    (h : (k, v) ∈ t.toList) : t.get? k = some v := by
  induction t with
  | nil => cases h
  | cons k' v' rest ih =>
      obtain ⟨hnot, hrest⟩ := List.nodup_cons.mp ht
      rcases List.mem_cons.mp h with heq | hmem
      · obtain ⟨rfl, rfl⟩ := Prod.mk.inj heq
        rw [get?, if_pos rfl]
      · have hk : k ∈ rest.keys := by
          rw [keys_eq_map_toList]
          exact List.mem_map_of_mem (f := Prod.fst) hmem
        have hne : k' ≠ k := fun h => hnot (h ▸ hk)
        rw [get?, if_neg hne, ih hrest hmem]

/-! ### Insertion -/

theorem get?_insert_self (t : Tree) (key : Key) (v : Value) :
    (t.insert key v).get? key = some v := by
  induction t with
  | nil => simp [insert, get?]
  | cons k w rest ih =>
      by_cases h : k = key
      · simp [insert, get?, h]
      · simp [insert, get?, h, ih]

theorem get?_insert_of_ne (t : Tree) {key other : Key} (v : Value) (h : key ≠ other) :
    (t.insert key v).get? other = t.get? other := by
  induction t with
  | nil => simp [insert, get?, h]
  | cons k w rest ih =>
      by_cases hk : k = key
      · subst hk
        simp [insert, get?, h]
      · by_cases ho : k = other
        · subst ho
          simp [insert, get?, hk]
        · simp [insert, get?, hk, ho, ih]

theorem get?_insert (t : Tree) (key other : Key) (v : Value) :
    (t.insert key v).get? other = if key = other then some v else t.get? other := by
  by_cases h : key = other
  · subst h
    simp [get?_insert_self]
  · simp [get?_insert_of_ne t v h, h]

/-- A key that is there keeps its place. -/
theorem keys_insert_of_mem (t : Tree) {key : Key} (v : Value) (h : key ∈ t.keys) :
    (t.insert key v).keys = t.keys := by
  induction t with
  | nil => simp [keys] at h
  | cons k w rest ih =>
      by_cases hk : k = key
      · simp [insert, keys, hk]
      · have hr : key ∈ rest.keys := by
          simpa [keys, Ne.symm hk] using h
        simp [insert, keys, hk, ih hr]

/-- A new key comes last. -/
theorem keys_insert_of_not_mem (t : Tree) {key : Key} (v : Value) (h : key ∉ t.keys) :
    (t.insert key v).keys = t.keys ++ [key] := by
  induction t with
  | nil => rfl
  | cons k w rest ih =>
      simp only [keys, List.mem_cons, not_or] at h
      have hk : ¬k = key := Ne.symm h.1
      simp [insert, keys, hk, ih h.2]

/-- An insertion adds one key at the end, or none. -/
theorem exists_keys_insert (t : Tree) (key : Key) (v : Value) :
    ∃ new, (t.insert key v).keys = t.keys ++ new ∧ new.length ≤ 1 := by
  by_cases h : key ∈ t.keys
  · exact ⟨[], by rw [keys_insert_of_mem t v h, List.append_nil], by simp⟩
  · exact ⟨[key], keys_insert_of_not_mem t v h, by simp⟩

theorem mem_keys_insert (t : Tree) (key other : Key) (v : Value) :
    other ∈ (t.insert key v).keys ↔ other = key ∨ other ∈ t.keys := by
  by_cases h : key ∈ t.keys
  · rw [keys_insert_of_mem t v h]
    constructor
    · exact Or.inr
    · rintro (rfl | h')
      · exact h
      · exact h'
  · rw [keys_insert_of_not_mem t v h]
    simp [or_comm]

/-- Setting what is there changes nothing. -/
theorem insert_get? {t : Tree} {key : Key} {v : Value} (h : t.get? key = some v) :
    t.insert key v = t := by
  induction t with
  | nil => simp [get?] at h
  | cons k w rest ih =>
      by_cases hk : k = key
      · simp only [get?, hk, if_true, Option.some.injEq] at h
        simp [insert, hk, h]
      · simp only [get?, hk, if_false] at h
        simp [insert, hk, ih h]

/-- Of two values set under one key the second stays. -/
theorem insert_insert_self (t : Tree) (key : Key) (v w : Value) :
    (t.insert key v).insert key w = t.insert key w := by
  induction t with
  | nil => simp [insert]
  | cons k u rest ih =>
      by_cases hk : k = key
      · simp [insert, hk]
      · simp [insert, hk, ih]

theorem insert_ne_nil (t : Tree) (key : Key) (v : Value) : t.insert key v ≠ .nil := by
  cases t with
  | nil => simp [insert]
  | cons k w rest =>
      by_cases hk : k = key
      · simp [insert, hk]
      · simp [insert, hk]

/-! ### Removal -/

theorem keys_erase (t : Tree) (key : Key) : (t.erase key).keys = t.keys.erase key := by
  induction t with
  | nil => rfl
  | cons k v rest ih =>
      by_cases hk : k = key
      · simp [erase, keys, hk]
      · simp [erase, keys, hk, ih, List.erase_cons_tail]

theorem get?_erase_of_ne (t : Tree) {key other : Key} (h : key ≠ other) :
    (t.erase key).get? other = t.get? other := by
  induction t with
  | nil => rfl
  | cons k v rest ih =>
      by_cases hk : k = key
      · subst hk
        simp [erase, get?, h]
      · by_cases ho : k = other
        · subst ho
          simp [erase, get?, hk]
        · simp [erase, get?, hk, ho, ih]

/-- With distinct keys nothing is left of a key that was removed. -/
theorem get?_erase_self {t : Tree} (h : t.keys.Nodup) (key : Key) :
    (t.erase key).get? key = none := by
  rw [get?_eq_none_iff, keys_erase]
  exact h.not_mem_erase

/-- Removing what is not there changes nothing. -/
theorem erase_of_not_mem {t : Tree} {key : Key} (h : key ∉ t.keys) : t.erase key = t := by
  induction t with
  | nil => rfl
  | cons k v rest ih =>
      simp only [keys, List.mem_cons, not_or] at h
      have hk : ¬k = key := Ne.symm h.1
      simp [erase, hk, ih h.2]

/-! ### Distinct keys -/

theorem nodup_keys_insert {t : Tree} (h : t.keys.Nodup) (key : Key) (v : Value) :
    (t.insert key v).keys.Nodup := by
  by_cases hm : key ∈ t.keys
  · rw [keys_insert_of_mem t v hm]
    exact h
  · rw [keys_insert_of_not_mem t v hm]
    rw [List.nodup_append]
    refine ⟨h, by simp, ?_⟩
    intro a ha b hb
    rw [List.mem_singleton] at hb
    subst hb
    rintro rfl
    exact hm ha

/-- Trees with the same distinct keys in the same order and the same look-ups are equal. -/
theorem eq_of_get?_eq {t u : Tree} (ht : t.keys.Nodup) (hkeys : t.keys = u.keys)
    (hget : ∀ k ∈ t.keys, t.get? k = u.get? k) : t = u := by
  induction t generalizing u with
  | nil => exact ((keys_eq_nil_iff u).mp hkeys.symm).symm
  | cons k v rest ih =>
      obtain ⟨hnot, hrest⟩ := List.nodup_cons.mp ht
      cases u with
      | nil => cases hkeys
      | cons k' v' rest' =>
          obtain ⟨rfl, hsame⟩ := List.cons.inj hkeys
          have hv : v = v' := by
            have hfirst := hget k List.mem_cons_self
            simpa [get?] using hfirst
          have hbehind : rest = rest' := by
            refine ih hrest hsame fun j hj => ?_
            have hne : k ≠ j := fun h => hnot (h ▸ hj)
            have hother := hget j (List.mem_cons_of_mem _ hj)
            simpa only [get?, hne, if_false] using hother
          rw [hv, hbehind]

/-- A new key with its value comes last. -/
theorem toList_insert_of_not_mem (t : Tree) {key : Key} (v : Value) (h : key ∉ t.keys) :
    (t.insert key v).toList = t.toList ++ [(key, v)] := by
  induction t with
  | nil => rfl
  | cons k w rest ih =>
      simp only [keys, List.mem_cons, not_or] at h
      have hk : ¬k = key := Ne.symm h.1
      simp [insert, toList, hk, ih h.2]

theorem insertAll_append (t : Tree) (entries others : List (Key × Value)) :
    t.insertAll (entries ++ others) = (t.insertAll entries).insertAll others :=
  List.foldl_append

theorem get?_insertAll_of_not_mem {t : Tree} {entries : List (Key × Value)} {k : Key}
    (h : k ∉ entries.map (·.1)) : (t.insertAll entries).get? k = t.get? k := by
  induction entries generalizing t with
  | nil => rfl
  | cons e rest ih =>
      simp only [List.map_cons, List.mem_cons, not_or] at h
      show ((t.insert e.1 e.2).insertAll rest).get? k = t.get? k
      rw [ih h.2, get?_insert_of_ne t e.2 (Ne.symm h.1)]

/-- Of several entries with one key the last stays. -/
theorem get?_insertAll_append_cons {t : Tree} (before : List (Key × Value)) {k : Key} (v : Value)
    {after : List (Key × Value)} (h : k ∉ after.map (·.1)) :
    (t.insertAll (before ++ (k, v) :: after)).get? k = some v := by
  rw [insertAll_append]
  show (((t.insertAll before).insert k v).insertAll after).get? k = some v
  rw [get?_insertAll_of_not_mem h, get?_insert_self]

/-- Entries with new keys, each once, are put behind those that are there. -/
theorem toList_insertAll {t : Tree} {entries : List (Key × Value)}
    (h : (t.keys ++ entries.map (·.1)).Nodup) :
    (t.insertAll entries).toList = t.toList ++ entries := by
  induction entries generalizing t with
  | nil => exact (List.append_nil _).symm
  | cons e rest ih =>
      have hnew : e.1 ∉ t.keys := by
        intro hmem
        exact (List.nodup_append.mp h).2.2 e.1 hmem e.1 (by simp) rfl
      have hrest : ((t.insert e.1 e.2).keys ++ rest.map (·.1)).Nodup := by
        rw [keys_insert_of_not_mem t e.2 hnew, List.append_assoc]
        exact h
      show ((t.insert e.1 e.2).insertAll rest).toList = _
      rw [ih hrest, toList_insert_of_not_mem t e.2 hnew, List.append_assoc]
      rfl

theorem toList_ofList {entries : List (Key × Value)} (h : (entries.map (·.1)).Nodup) :
    (ofList entries).toList = entries :=
  toList_insertAll (t := .nil) h

/-- A tree with distinct keys is made from its entries. -/
theorem ofList_toList {t : Tree} (h : t.keys.Nodup) : ofList t.toList = t := by
  rw [keys_eq_map_toList] at h
  exact toList_injective (toList_ofList h)

end Tree

end Quill
