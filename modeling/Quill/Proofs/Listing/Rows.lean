import Quill.Proofs.Listing.Reading
import Quill.Proofs.Tree.Appending

/-!
# Rows apart from each other

Without a key column a row of a table and the plan decide between them what stands for the row, and
its place is its number or the key it had.  Neither the rows beside it nor what the navigator has
parsed before have a part in it: each entry of the result is the entry that a table of this row
alone gives.
-/

namespace Quill

/-- The table of one row. -/
def Tree.alone (e : Key × Tree) : Tree :=
  .cons e.1 (.map e.2) .nil

theorem Tree.rows_keys_sublist (t : Tree) : (t.rows.map (·.1)).Sublist t.keys := by
  induction t with
  | nil => exact .slnil
  | cons k v rest ih =>
      cases v with
      | map row => exact ih.cons_cons k
      | _ => exact ih.cons k

namespace Listing

open Navigation Navigator

/-- What stands for a row. -/
def Row.output (r : Row) : Value :=
  r.bare.getD (.map r.cells)

/-- What stands for a row that is read as planned. -/
def Plan.output (plan : Plan) (row : Tree) : Value :=
  (plan.read row).output

theorem IsPlan.rowKey_eq {separator : String} {default : Value} {specifiers : List String}
    {rowKey : RowKey} {p : Plan} (h : IsPlan separator default specifiers rowKey p) :
    p.rowKey = rowKey := by
  cases h <;> rfl

/-- Columns that are not labelled as the key column give no key. -/
theorem key_readOn_of_unlabelled {plan : Plan} {row : Tree} {cs : List Column}
    (h : ∀ c ∈ cs, plan.rowKey ≠ .column c.label) (r : Row) :
    (plan.readOn row cs r).key = r.key := by
  induction cs generalizing r with
  | nil => rfl
  | cons c rest ih =>
      obtain ⟨hc, hrest⟩ := List.forall_mem_cons.mp h
      rw [Plan.readOn]
      simp only [hc, decide_false, Bool.false_and, Bool.false_eq_true, if_false]
      split
      · rfl
      · exact ih hrest _

/-! ### Where rows are placed -/

theorem place_numbered {plan : Plan} (h : plan.rowKey = .numbered) (result : Tree)
    (e : Key × Tree) : plan.place result e = result.push (plan.output e.2) := by
  have hkey : (plan.read e.2).key = none := key_readOn_of_unlabelled (by simp [h]) _
  rw [Plan.place, placeRow, h]
  simp only [hkey]
  rfl

theorem place_preserved {plan : Plan} (h : plan.rowKey = .preserved) (result : Tree)
    (e : Key × Tree) : plan.place result e = result.insert e.1 (plan.output e.2) := by
  rw [Plan.place, placeRow, h]
  rfl

theorem foldl_place_numbered {plan : Plan} (h : plan.rowKey = .numbered)
    (entries : List (Key × Tree)) :
    entries.foldl plan.place .nil =
      .sequence ((entries.take (2 ^ 63)).map fun e => plan.output e.2) := by
  have hplace : plan.place = fun t e => t.push (plan.output e.2) := by
    funext t e
    exact place_numbered h t e
  have hpush := @Tree.foldl_push_sequence [] (by simp) (entries.map fun e => plan.output e.2)
  rw [List.foldl_map, List.nil_append, ← List.map_take] at hpush
  rw [hplace]
  exact hpush

theorem foldl_place_preserved {plan : Plan} (h : plan.rowKey = .preserved)
    (entries : List (Key × Tree)) :
    entries.foldl plan.place .nil = .ofList (entries.map fun e => (e.1, plan.output e.2)) := by
  have hplace : plan.place = fun t e => t.insert e.1 (plan.output e.2) := by
    funext t e
    exact place_preserved h t e
  rw [Tree.ofList, Tree.insertAll, List.foldl_map, hplace]

theorem keys_foldl_place_preserved {plan : Plan} (h : plan.rowKey = .preserved)
    {entries : List (Key × Tree)} (hkeys : (entries.map (·.1)).Nodup) :
    (entries.foldl plan.place .nil).keys = entries.map (·.1) ∧
      (entries.foldl plan.place .nil).values = entries.map fun e => plan.output e.2 := by
  have hnodup : ((entries.map fun e => (e.1, plan.output e.2)).map (·.1)).Nodup := by
    rw [List.map_map]
    exact hkeys
  rw [foldl_place_preserved h, Tree.keys_eq_map_toList, Tree.values_eq_map_toList,
    Tree.toList_ofList hnodup, List.map_map, List.map_map]
  exact ⟨rfl, rfl⟩

/-- Without a key column the entries of the result stand in the order of their rows. -/
theorem getElem?_values_list {cs : Columns} {specifiers : List String}
    (hcs : cs.specifiers? = some specifiers) {rows : Tree} {rowKey : RowKey}
    (hkey : rowKey = .numbered ∨ rowKey = .preserved ∧ rows.keys.Nodup) {default : Value}
    {own : Option String} {n : Navigator} (hn : n.cache.IsSound) {result : Tree}
    (h : ((list rows cs rowKey default own).on n).1 = .ok result) {i : Nat} (hi : i < 2 ^ 63)
    {e : Key × Tree} (he : rows.rows[i]? = some e) :
    ∃ p, IsPlan (own.getD n.separator) default specifiers rowKey p ∧
      result.values[i]? = some (p.output e.2) := by
  have hrows : rows ≠ .nil := by
    rintro rfl
    cases he
  rw [list_on_eq_ok_iff hcs _ _ _ _ hn, if_neg hrows] at h
  obtain ⟨p, hp, rfl⟩ := h
  refine ⟨p, hp, ?_⟩
  rcases hkey with rfl | ⟨rfl, hnodup⟩
  · rw [foldl_place_numbered hp.rowKey_eq, Tree.values_sequence, List.getElem?_map,
      List.getElem?_take_of_lt hi, he]
    rfl
  · have hkeys := hnodup.sublist rows.rows_keys_sublist
    rw [(keys_foldl_place_preserved hp.rowKey_eq hkeys).2, List.getElem?_map, he]
    rfl

/-! ### Tables of one row -/

/-- The one row of a table is the first that is placed. -/
theorem list_alone_on {cs : Columns} {specifiers : List String}
    (hcs : cs.specifiers? = some specifiers) {rowKey : RowKey} {default : Value}
    {own : Option String} {n : Navigator} (hn : n.cache.IsSound) {p : Plan}
    (hp : IsPlan (own.getD n.separator) default specifiers rowKey p) (e : Key × Tree) :
    ((list (.alone e) cs rowKey default own).on n).1 = .ok (p.place .nil e) :=
  list_of_isPlan hcs hn hp (.alone e)

section Apart

variable {cs : Columns} (hcs : cs.specifiers? ≠ none) (default : Value) (own : Option String)
  {n n' : Navigator} (hn : n.cache.IsSound) (hn' : n'.cache.IsSound)
  (hsep : n.separator = n'.separator)

include hcs hn hn' hsep

/-- Rows are listed apart from each other.  Numbered, they give a sequence in their order, as long
as there are indices to number them with; under the keys they had they give these keys in their
order.  Either way each entry is the one that the table of its row alone gives, and neither what was
parsed before the whole table nor what was parsed before the one row makes a difference. -/
theorem list_rows_apart (rows result : Tree) :
    (((list rows cs .numbered default own).on n).1 = .ok result →
      ∃ outputs, result = .sequence outputs ∧
        List.Forall₂ (fun e v =>
          ((list (.alone e) cs .numbered default own).on n').1 = .ok (.sequence [v]))
          (rows.rows.take (2 ^ 63)) outputs) ∧
    (rows.keys.Nodup → ((list rows cs .preserved default own).on n).1 = .ok result →
      result.keys = rows.rows.map (·.1) ∧
        List.Forall₂ (fun e v =>
          ((list (.alone e) cs .preserved default own).on n').1 = .ok (.cons e.1 v .nil))
          rows.rows result.values) := by
  obtain ⟨specifiers, hspecifiers⟩ := Option.ne_none_iff_exists'.mp hcs
  constructor
  · intro h
    rw [list_on_eq_ok_iff hspecifiers _ _ _ _ hn] at h
    by_cases hrows : rows = .nil
    · rw [if_pos hrows] at h
      rw [hrows]
      exact ⟨[], h, .nil⟩
    · rw [if_neg hrows] at h
      obtain ⟨p, hp, rfl⟩ := h
      refine ⟨_, foldl_place_numbered hp.rowKey_eq rows.rows, ?_⟩
      rw [hsep] at hp
      rw [List.forall₂_map_right_iff, List.forall₂_same]
      intro e _
      rw [list_alone_on hspecifiers hn' hp, place_numbered hp.rowKey_eq]
      rfl
  · intro hnodup h
    rw [list_on_eq_ok_iff hspecifiers _ _ _ _ hn] at h
    by_cases hrows : rows = .nil
    · rw [if_pos hrows] at h
      rw [hrows, h]
      exact ⟨rfl, .nil⟩
    · rw [if_neg hrows] at h
      obtain ⟨p, hp, rfl⟩ := h
      have hkeys := hnodup.sublist rows.rows_keys_sublist
      obtain ⟨hplaced, hvalues⟩ := keys_foldl_place_preserved hp.rowKey_eq hkeys
      refine ⟨hplaced, ?_⟩
      rw [hsep] at hp
      rw [hvalues, List.forall₂_map_right_iff, List.forall₂_same]
      intro e _
      rw [list_alone_on hspecifiers hn' hp, place_preserved hp.rowKey_eq]
      rfl

end Apart

/-- Two rows with an entry between them that is none. -/
def spacedRows : Tree :=
  .cons (.name "b") (.map (.cons (.name "x") (.map (.cons (.name "y") (.int 1) .nil))
      (.cons (.name "z") .null .nil)))
    (.cons (.index 4) (.int 3)
      (.cons (.index 2) (.map (.cons (.name "z") (.string "s") .nil)) .nil))

/-- The whole table on a navigator that has parsed nothing, each row on one that knows a path. -/
theorem list_rows_apart_spacedRows :
    let cs := Columns.list ["x.y", "z as w"]
    let n := fresh "/" 0
    let n' := ((parse (.text "x.y") "." true).on (fresh "/" 1)).2
    let first := Value.map (.cons (.name "x.y") (.int 1) (.cons (.name "w") .null .nil))
    let last := Value.map (.cons (.name "x.y") .unset (.cons (.name "w") (.string "s") .nil))
    cs.specifiers? ≠ none ∧ n.cache.IsSound ∧ n'.cache.IsSound ∧ n.separator = n'.separator ∧
      spacedRows.keys.Nodup ∧
      ((list spacedRows cs .numbered .unset (some ".")).on n).1 = .ok (.sequence [first, last]) ∧
      ((list spacedRows cs .preserved .unset (some ".")).on n).1 =
        .ok (.cons (.name "b") first (.cons (.index 2) last .nil)) ∧
      (∃ outputs, Tree.sequence [first, last] = .sequence outputs ∧
        List.Forall₂ (fun e v =>
          ((list (.alone e) cs .numbered .unset (some ".")).on n').1 = .ok (.sequence [v]))
          (spacedRows.rows.take (2 ^ 63)) outputs) ∧
      List.Forall₂ (fun e v =>
        ((list (.alone e) cs .preserved .unset (some ".")).on n').1 = .ok (.cons e.1 v .nil))
        spacedRows.rows [first, last] := by
  intro cs n n' first last
  have hcs : cs.specifiers? ≠ none := by decide
  have hn : n.cache.IsSound := Cache.isSound_ofCapacity 0
  have hfresh : (fresh "/" 1).cache.IsSound := Cache.isSound_ofCapacity 1
  have hn' : n'.cache.IsSound := (isSteady_parse (.text "x.y") "." true _ _ hfresh hfresh rfl).2.1
  have hsep : n.separator = n'.separator := rfl
  have hkeys : spacedRows.keys.Nodup := by decide
  have hnumbered : ((list spacedRows cs .numbered .unset (some ".")).on n).1 =
      .ok (.sequence [first, last]) := by decide +kernel
  have hpreserved : ((list spacedRows cs .preserved .unset (some ".")).on n).1 =
      .ok (.cons (.name "b") first (.cons (.index 2) last .nil)) := by decide +kernel
  obtain ⟨happart, _⟩ := list_rows_apart hcs .unset (some ".") hn hn' hsep spacedRows
    (.sequence [first, last])
  obtain ⟨_, hkept⟩ := list_rows_apart hcs .unset (some ".") hn hn' hsep spacedRows
    (.cons (.name "b") first (.cons (.index 2) last .nil))
  exact ⟨hcs, hn, hn', hsep, hkeys, hnumbered, hpreserved, happart hnumbered,
    (hkept hkeys hpreserved).2⟩

end Listing

end Quill
