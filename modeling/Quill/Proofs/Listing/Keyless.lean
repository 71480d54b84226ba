import Quill.Proofs.Listing.KeyColumn
import Quill.Proofs.Reading.Structured

/-!
# Rows without a key

A row for which the key column gives no key goes behind everything that the earlier rows gave.  It
takes the place of none of them, and where one of them has the greatest index it is dropped.

Rows that are placed as they are differ in one point.  Where the key column finds nothing in them
they fall back to the number of rows placed so far.  If that number is no key yet they are appended
under it; if it is one they take the place of what has it, and of nothing else.
-/

namespace Quill

namespace Tree

/-- The first entries of a tree. -/
def take : Nat → Tree → Tree
  | 0, _ => .nil
  | _ + 1, .nil => .nil
  | i + 1, .cons k v rest => .cons k v (take i rest)

theorem rows_take_succ {t : Tree} {i : Nat} {k : Key} {row : Tree}
    (h : t.toList[i]? = some (k, .map row)) :
    (t.take (i + 1)).rows = (t.take i).rows ++ [(k, row)] := by
  induction t generalizing i with
  | nil => cases h
  | cons k' v rest ih =>
      cases i with
      | zero =>
          obtain ⟨rfl, rfl⟩ := Prod.mk.inj (Option.some.inj h)
          rfl
      | succ i =>
          have hrest := ih (i := i) h
          cases v with
          | map first => exact congrArg (List.cons (k', first)) hrest
          | _ => exact hrest

theorem exists_rows_eq_take_append (t : Tree) (i : Nat) :
    ∃ later, t.rows = (t.take i).rows ++ later := by
  induction t generalizing i with
  | nil => exact ⟨[], by cases i <;> rfl⟩
  | cons k v rest ih =>
      cases i with
      | zero => exact ⟨_, rfl⟩
      | succ i =>
          obtain ⟨later, hlater⟩ := ih i
          refine ⟨later, ?_⟩
          cases v with
          | map row => exact congrArg (List.cons (k, row)) hlater
          | _ => exact hlater

/-- A value in the place of what a key had: the keys stay in their order, and what the others have
stays under them. -/
structure IsReplaced (earlier now : Tree) (k : Key) (v : Value) : Prop where
  keys : now.keys = earlier.keys
  value : now.get? k = some v
  others : ∀ other, other ≠ k → now.get? other = earlier.get? other

theorem isReplaced_insert {t : Tree} {k : Key} (h : k ∈ t.keys) (v : Value) :
    t.IsReplaced (t.insert k v) k v where
  keys := keys_insert_of_mem t v h
  value := get?_insert_self t k v
  others := fun _ hne => get?_insert_of_ne t v (Ne.symm hne)

end Tree

namespace Listing

open Navigation Navigator

/-- Whether a row has no usable key behind what earlier rows gave. -/
def IsKeyless (cs : Columns) (name : String) (own : Option String) (n : Navigator)
    (earlier row : Tree) : Prop :=
  match cs.specifiers? with
  | some specifiers =>
      ∀ p c v, ((plan (own.getD n.separator) .null specifiers (.column name)).on n).1 = .ok p →
        p.keyColumn? = some c → ((cell p row c).on n).1 = .ok v → v.toKey? = none
  | none =>
      -- What is found is no key, or nothing is found and the number of rows is no key yet.
      (∀ d v, ((Navigator.get row (.text name) d own).on n).1 = .ok v → v.toKey? = none) ∨
        (∀ d, ((Navigator.get row (.text name) d own).on n).1 = .ok d) ∧
          earlier.get? (.index (Int64.ofNat earlier.size)) = none

/-- Whether a row that is placed as it is falls back to a number of rows that is a key already. -/
def IsCrowded (cs : Columns) (name : String) (own : Option String) (n : Navigator)
    (earlier row : Tree) : Prop :=
  cs.specifiers? = none ∧ (∀ d, ((Navigator.get row (.text name) d own).on n).1 = .ok d) ∧
    .index (Int64.ofNat earlier.size) ∈ earlier.keys

/-! ### Columns -/

/-- Of a list of columns a row is keyless if its plan reads no key in it. -/
theorem isKeyless_iff {cs : Columns} {specifiers : List String}
    (hcs : cs.specifiers? = some specifiers) (name : String) (own : Option String) {n : Navigator}
    (hn : n.cache.IsSound) (earlier row : Tree) :
    IsKeyless cs name own n earlier row ↔
      ∀ p, IsPlan (own.getD n.separator) .null specifiers (.column name) p →
        p.keyOf row = none := by
  unfold IsKeyless
  rw [hcs]
  constructor
  · intro h p hp
    unfold Plan.keyOf
    cases hc : p.keyColumn? with
    | none => rfl
    | some c =>
        have hplan := (plan_on_eq_ok_iff _ _ _ _ hn p).mpr hp
        have hreadable := hp.isReadable c (mem_of_keyColumn? hc).1
        exact h p c _ hplan hc (cell_on hreadable row hn)
  · intro h p c v hplan hc hv
    have hp := (plan_on_eq_ok_iff _ _ _ _ hn p).mp hplan
    have hreadable := hp.isReadable c (mem_of_keyColumn? hc).1
    rw [cell_on hreadable row hn, Except.ok.injEq] at hv
    have hkey := h p hp
    rw [Plan.keyOf, hc] at hkey
    rw [← hv]
    exact hkey

/-- A row is keyless if it has nothing under a literal key column, or what it has there is no
key. -/
theorem isKeyless_of_literal {cs : Columns} {specifiers : List String}
    (hcs : cs.specifiers? = some specifiers) {name : String} {own : Option String} {n : Navigator}
    (hn : n.cache.IsSound) (hmark : ¬labelMark <:+: name.toList)
    (hsep : ¬(own.getD n.separator).toList <:+: name.toList)
    (halias : ∀ s ∈ specifiers, (splitLabel s).2 = name → (splitLabel s).1 = name) {row : Tree}
    (h : (row.get? (.ofText name)).bind Value.toKey? = none) (earlier : Tree) :
    IsKeyless cs name own n earlier row := by
  rw [isKeyless_iff hcs _ _ hn]
  intro p hp
  by_cases hhidden : IsHidden specifiers name
  · exact keyOf_of_isHidden hp halias hhidden row
  · rw [keyOf_of_not_isHidden hp hmark halias hsep hhidden]
    cases hv : row.get? (.ofText name) with
    | none => rfl
    | some v =>
        rw [hv] at h
        exact h

/-- The next row of a list of columns is placed behind the earlier ones. -/
theorem list_take_succ {cs : Columns} {specifiers : List String}
    (hcs : cs.specifiers? = some specifiers) {rowKey : RowKey} {default : Value}
    {own : Option String} {n : Navigator} (hn : n.cache.IsSound) {p : Plan}
    (hp : IsPlan (own.getD n.separator) default specifiers rowKey p) {rows : Tree} {i : Nat}
    {had : Key} {row : Tree} (hrow : rows.toList[i]? = some (had, .map row)) :
    ∃ earlier, ((list (rows.take i) cs rowKey default own).on n).1 = .ok earlier ∧
      ((list (rows.take (i + 1)) cs rowKey default own).on n).1 =
        .ok (p.place earlier (had, row)) := by
  refine ⟨_, list_of_isPlan hcs hn hp _, ?_⟩
  rw [list_of_isPlan hcs hn hp, Tree.rows_take_succ hrow, List.foldl_append]
  rfl

/-! ### Whole rows -/

/-- A key column that is read for one default is read for every other. -/
theorem exists_wholeKey {separator name : String} {row : Tree} {d v : Value}
    (h : wholeKey separator name row d = .ok v) (d' : Value) :
    ∃ v', wholeKey separator name row d' = .ok v' := by
  unfold wholeKey at *
  cases hempty : row.isEmpty with
  | true => exact ⟨d', rfl⟩
  | false =>
      rw [hempty] at h
      cases hp : denote (.text name) separator false with
      | error e =>
          rw [hp] at h
          cases h
      | ok path => exact ⟨_, rfl⟩

/-- The next row of all columns is placed behind the earlier ones. -/
theorem list_all_take_succ {cs : Columns} (hcs : cs.specifiers? = none) {name : String}
    {default : Value} {own : Option String} {n : Navigator} (hn : n.cache.IsSound)
    {rows result : Tree} (h : ((list rows cs (.column name) default own).on n).1 = .ok result)
    {i : Nat} {had : Key} {row : Tree} (hrow : rows.toList[i]? = some (had, .map row)) :
    ∃ earlier v, ((list (rows.take i) cs (.column name) default own).on n).1 = .ok earlier ∧
      wholeKey (own.getD n.separator) name row (.int (Int64.ofNat earlier.size)) = .ok v ∧
      ((list (rows.take (i + 1)) cs (.column name) default own).on n).1 =
        .ok (place earlier v.toKey? (.map row)) := by
  obtain ⟨later, hlater⟩ := rows.exists_rows_eq_take_append (i + 1)
  rw [list_all_on hcs _ _ _ _ hn, hlater, List.foldlM_append, Tree.rows_take_succ hrow] at h
  obtain ⟨now, hnow, _⟩ := exists_of_bind_eq_ok h
  rw [List.foldlM_append] at hnow
  obtain ⟨earlier, hearlier, hlast⟩ := exists_of_bind_eq_ok hnow
  rw [List.foldlM_cons] at hlast
  obtain ⟨placed, hplaced, _⟩ := exists_of_bind_eq_ok hlast
  obtain ⟨v, hv, hplace⟩ := exists_of_map_eq_ok hplaced
  refine ⟨earlier, v, (list_all_on hcs _ _ _ _ hn).trans hearlier, hv, ?_⟩
  rw [list_all_on hcs _ _ _ _ hn, Tree.rows_take_succ hrow, List.foldlM_append, hearlier, hplace]
  show (placeWhole (own.getD n.separator) name earlier (had, row)).bind _ = _
  rw [hplaced]
  rfl

theorem list_all_alone {cs : Columns} (hcs : cs.specifiers? = none) {name : String}
    {default : Value} {own : Option String} {n : Navigator} (hn : n.cache.IsSound) {had : Key}
    {row : Tree} {v : Value}
    (h : wholeKey (own.getD n.separator) name row (.int 0) = .ok v) :
    ((list (.alone (had, row)) cs (.column name) default own).on n).1 =
      .ok (place .nil v.toKey? (.map row)) := by
  have hplaced : placeWhole (own.getD n.separator) name .nil (had, row) =
      .ok (place .nil v.toKey? (.map row)) := by
    unfold placeWhole
    rw [show Int64.ofNat Tree.nil.size = 0 from rfl, h]
    rfl
  rw [list_all_on hcs _ _ _ _ hn]
  show (placeWhole (own.getD n.separator) name .nil (had, row)).bind _ = _
  rw [hplaced]
  rfl

/-- A plain key that a row does not have finds nothing in it. -/
theorem get_plainKey_missing {name : String} {own : Option String} {n : Navigator}
    (hn : n.cache.IsSound) (hplain : Path.isPlainKey (own.getD n.separator) name = true)
    {row : Tree} (h : row.get? (.ofText name) = none) (d : Value) :
    ((Navigator.get row (.text name) d own).on n).1 = .ok d := by
  rw [get_on hn, denote_of_isPlainKey hplain]
  by_cases hempty : row.isEmpty = true
  · rw [if_pos hempty]
  · rw [if_neg hempty]
    show Except.ok ((Path.key name .nil).get d false row) = .ok d
    rw [Path.get_last (ne_wildcard_of_isPlainKey hplain), h]
    rfl

/-- Where the key column finds nothing in a row, its key is the number of rows. -/
theorem eq_of_missing {name : String} {own : Option String} {n : Navigator} (hn : n.cache.IsSound)
    {row : Tree} (h : ∀ d, ((Navigator.get row (.text name) d own).on n).1 = .ok d) {d v : Value}
    (hv : wholeKey (own.getD n.separator) name row d = .ok v) : v = d :=
  Except.ok.inj (hv.symm.trans ((get_on hn row (.text name) own d).symm.trans (h d)))

/-- The key of a row without a usable one: none, or the number of rows where it is no key yet. -/
theorem toKey?_of_isKeyless {cs : Columns} (hcs : cs.specifiers? = none) {name : String}
    {own : Option String} {n : Navigator} (hn : n.cache.IsSound) {earlier row : Tree}
    (h : IsKeyless cs name own n earlier row) {v : Value}
    (hv : wholeKey (own.getD n.separator) name row (.int (Int64.ofNat earlier.size)) = .ok v) :
    v.toKey? = none ∨ v.toKey? = some (.index (Int64.ofNat earlier.size)) ∧
      earlier.get? (.index (Int64.ofNat earlier.size)) = none := by
  unfold IsKeyless at h
  rw [hcs] at h
  rcases h with hunusable | ⟨hmissing, hfree⟩
  · exact .inl (hunusable _ v ((get_on hn row (.text name) own _).trans hv))
  · rw [eq_of_missing hn hmissing hv]
    exact .inr ⟨rfl, hfree⟩

/-- A row that has no usable key behind others has none alone. -/
theorem IsKeyless.nil {cs : Columns} {name : String} {own : Option String} {n : Navigator}
    {earlier row : Tree} (h : IsKeyless cs name own n earlier row) :
    IsKeyless cs name own n .nil row := by
  unfold IsKeyless at *
  cases hcs : cs.specifiers? with
  | some specifiers =>
      rw [hcs] at h
      exact h
  | none =>
      rw [hcs] at h
      rcases h with hunusable | ⟨hmissing, _⟩
      · exact .inl hunusable
      · exact .inr ⟨hmissing, rfl⟩

/-- A whole row that has no usable key alone is the first one of a sequence. -/
theorem list_all_alone_of_isKeyless {cs : Columns} (hcs : cs.specifiers? = none) {name : String}
    {default : Value} {own : Option String} {n : Navigator} (hn : n.cache.IsSound) {had : Key}
    {row : Tree} (h : IsKeyless cs name own n .nil row) {d v : Value}
    (hv : wholeKey (own.getD n.separator) name row d = .ok v) :
    ((list (.alone (had, row)) cs (.column name) default own).on n).1 =
      .ok (.sequence [.map row]) := by
  obtain ⟨v', hv'⟩ := exists_wholeKey hv (.int 0)
  rw [list_all_alone hcs hn hv']
  rcases toKey?_of_isKeyless hcs hn h hv' with hnone | ⟨hzero, _⟩
  · rw [hnone]
    rfl
  · rw [hzero]
    rfl

/-- A crowded row is keyless where there are no others. -/
theorem IsCrowded.isKeyless_nil {cs : Columns} {name : String} {own : Option String}
    {n : Navigator} {earlier row : Tree} (h : IsCrowded cs name own n earlier row) :
    IsKeyless cs name own n .nil row := by
  unfold IsKeyless
  rw [h.1]
  exact .inr ⟨h.2.1, rfl⟩

/-! ### Rows behind others -/

/-- Each row that is listed is placed behind what the earlier rows give.  If it has no usable key,
what stands for it, the same as in a table of this row alone, is appended there: under an index that
nothing has, or nowhere if the greatest index is taken.  A row that is placed as it is and falls
back to a number of rows that is taken stands in the place of what had it, and all else stays. -/
theorem list_keyless_isAppended {cs : Columns} {name : String} {own : Option String}
    {n n' : Navigator} (hn : n.cache.IsSound) (hn' : n'.cache.IsSound)
    (hsep : n.separator = n'.separator) {rows result : Tree}
    (h : ((list rows cs (.column name) .null own).on n).1 = .ok result) {i : Nat} {had : Key}
    {row : Tree} (hrow : rows.toList[i]? = some (had, .map row)) :
    ∃ earlier now, ((list (rows.take i) cs (.column name) .null own).on n').1 = .ok earlier ∧
      ((list (rows.take (i + 1)) cs (.column name) .null own).on n').1 = .ok now ∧
      (IsKeyless cs name own n' earlier row → ∃ output,
        ((list (.alone (had, row)) cs (.column name) .null own).on n').1 =
          .ok (.sequence [output]) ∧ earlier.IsAppended now output) ∧
      (IsCrowded cs name own n' earlier row →
        ((list (.alone (had, row)) cs (.column name) .null own).on n').1 =
          .ok (.sequence [.map row]) ∧
        earlier.IsReplaced now (.index (Int64.ofNat earlier.size)) (.map row)) := by
  cases hcs : cs.specifiers? with
  | some specifiers =>
      have hrows : rows ≠ .nil := by
        rintro rfl
        cases hrow
      rw [list_on_eq_ok_iff hcs _ _ _ _ hn, if_neg hrows, hsep] at h
      obtain ⟨p, hp, _⟩ := h
      obtain ⟨earlier, hearlier, hnow⟩ := list_take_succ hcs hn' hp hrow
      -- The plan reads no key in the row, so what stands for the row is pushed.
      refine ⟨earlier, _, hearlier, hnow, fun hkeyless => ⟨p.output row, ?_⟩, fun hcrowded => ?_⟩
      · have hkey : p.keyOf row = none := (isKeyless_iff hcs _ _ hn' _ _).mp hkeyless p hp
        have hplace : ∀ t, p.place t (had, row) = t.push (p.output row) := by
          intro t
          rw [place_column hp, hkey]
          rfl
        rw [list_alone_on hcs hn' hp, hplace, hplace]
        exact ⟨rfl, Tree.isAppended_push _ _⟩
      · cases hcs.symm.trans hcrowded.1
  | none =>
      rw [list_all_on hcs _ _ _ _ hn, hsep, ← list_all_on hcs _ _ .null _ hn'] at h
      obtain ⟨earlier, v, hearlier, hv, hnow⟩ := list_all_take_succ hcs hn' h hrow
      -- The row itself is pushed, or put under the number of rows, be it free or taken.
      refine ⟨earlier, _, hearlier, hnow, fun hkeyless => ⟨.map row, ?_, ?_⟩,
        fun hcrowded => ⟨?_, ?_⟩⟩
      · exact list_all_alone_of_isKeyless hcs hn' hkeyless.nil hv
      · rcases toKey?_of_isKeyless hcs hn' hkeyless hv with hnone | ⟨hsize, hfree⟩
        · rw [hnone]
          exact Tree.isAppended_push _ _
        · rw [hsize]
          exact .inl ⟨_, hfree, rfl⟩
      · exact list_all_alone_of_isKeyless hcs hn' hcrowded.isKeyless_nil hv
      · obtain ⟨_, hmissing, htaken⟩ := hcrowded
        rw [eq_of_missing hn' hmissing hv]
        exact Tree.isReplaced_insert htaken _

/-- A row without the key column behind two rows that have indices in it.  Of a column it is
appended under the next index.  As it is, it is appended under the number of rows, or stands in the
place of the one that has this number in its key column. -/
theorem list_keyless_isAppended_missingKey :
    let keyed := fun i => Tree.cons (.name "id") (.int i) (.cons (.name "v") (.string "a") .nil)
    let row := Tree.cons (.name "v") (.string "b") .nil
    let rows := fun i => Tree.cons (.index 0) (.map (keyed 5))
      (.cons (.index 1) (.map (keyed i)) (.cons (.index 2) (.map row) .nil))
    let n := fresh "." 2
    let cells := fun rest =>
      Tree.cons (.index 5) (.string "a") (.cons (.index 0) (.string "a") rest)
    let whole := fun i rest =>
      Tree.cons (.index 5) (.map (keyed 5)) (.cons (.index i) (.map (keyed i)) rest)
    n.cache.IsSound ∧ (∀ i, (rows i).toList[2]? = some (.index 2, .map row)) ∧
      (((list (rows 0) (.list ["v"]) (.column "id") .null none).on n).1 =
          .ok (cells (.cons (.index 6) (.string "b") .nil)) ∧
        IsKeyless (.list ["v"]) "id" none n (cells .nil) row ∧
        ∃ output,
          ((list (.alone (.index 2, row)) (.list ["v"]) (.column "id") .null none).on n).1 =
            .ok (.sequence [output]) ∧
          (cells .nil).IsAppended (cells (.cons (.index 6) (.string "b") .nil)) output) ∧
      (((list (rows 0) .all (.column "id") .null none).on n).1 =
          .ok (whole 0 (.cons (.index 2) (.map row) .nil)) ∧
        IsKeyless .all "id" none n (whole 0 .nil) row ∧
        ∃ output,
          ((list (.alone (.index 2, row)) .all (.column "id") .null none).on n).1 =
            .ok (.sequence [output]) ∧
          (whole 0 .nil).IsAppended (whole 0 (.cons (.index 2) (.map row) .nil)) output) ∧
      (((list (rows 2) .all (.column "id") .null none).on n).1 =
          .ok (.cons (.index 5) (.map (keyed 5)) (.cons (.index 2) (.map row) .nil)) ∧
        IsCrowded .all "id" none n (whole 2 .nil) row ∧
        ((list (.alone (.index 2, row)) .all (.column "id") .null none).on n).1 =
          .ok (.sequence [.map row]) ∧
        (whole 2 .nil).IsReplaced
          (.cons (.index 5) (.map (keyed 5)) (.cons (.index 2) (.map row) .nil)) (.index 2)
          (.map row)) := by
  intro keyed row rows n cells whole
  have hn : n.cache.IsSound := Cache.isSound_ofCapacity 2
  have hrow : ∀ i, (rows i).toList[2]? = some (.index 2, .map row) := fun _ => rfl
  have hmissing : ∀ d, ((Navigator.get row (.text "id") d none).on n).1 = .ok d :=
    get_plainKey_missing hn (by decide +kernel) (by decide +kernel)
  have hkeyless : IsKeyless (.list ["v"]) "id" none n (cells .nil) row :=
    isKeyless_of_literal rfl hn (by decide +kernel) (by decide +kernel) (by decide +kernel)
      (by decide +kernel) _
  have hfree : IsKeyless .all "id" none n (whole 0 .nil) row := .inr ⟨hmissing, rfl⟩
  have hcrowded : IsCrowded .all "id" none n (whole 2 .nil) row :=
    ⟨rfl, hmissing, by decide +kernel⟩
  have hcells : ((list (rows 0) (.list ["v"]) (.column "id") .null none).on n).1 =
      .ok (cells (.cons (.index 6) (.string "b") .nil)) := by decide +kernel
  have hbehind : ((list (rows 0) .all (.column "id") .null none).on n).1 =
      .ok (whole 0 (.cons (.index 2) (.map row) .nil)) := by decide +kernel
  have hinstead : ((list (rows 2) .all (.column "id") .null none).on n).1 =
      .ok (.cons (.index 5) (.map (keyed 5)) (.cons (.index 2) (.map row) .nil)) := by
    decide +kernel
  have hplaced : ∀ {cs i earlier result},
      ((list (rows i) cs (.column "id") .null none).on n).1 = .ok result →
      ((list ((rows i).take 2) cs (.column "id") .null none).on n).1 = .ok earlier →
      (IsKeyless cs "id" none n earlier row → ∃ output,
        ((list (.alone (.index 2, row)) cs (.column "id") .null none).on n).1 =
          .ok (.sequence [output]) ∧ earlier.IsAppended result output) ∧
      (IsCrowded cs "id" none n earlier row →
        ((list (.alone (.index 2, row)) cs (.column "id") .null none).on n).1 =
          .ok (.sequence [.map row]) ∧
        earlier.IsReplaced result (.index (Int64.ofNat earlier.size)) (.map row)) := by
    intro cs i earlier result hresult hearlier
    obtain ⟨_, _, hfirst, hnow, hplaced⟩ := list_keyless_isAppended hn hn rfl hresult (hrow i)
    obtain rfl := Except.ok.inj (hearlier.symm.trans hfirst)
    obtain rfl := Except.ok.inj (hresult.symm.trans hnow)
    exact hplaced
  exact ⟨hn, hrow, ⟨hcells, hkeyless, (hplaced hcells (by decide +kernel)).1 hkeyless⟩,
    ⟨hbehind, hfree, (hplaced hbehind (by decide +kernel)).1 hfree⟩,
    hinstead, hcrowded, (hplaced hinstead (by decide +kernel)).2 hcrowded⟩

/-- A row without the key column is dropped behind one that has the greatest index in it, and,
placed as it is, takes the place of one that has the number of rows in it. -/
theorem list_keyless_dropped :
    let row := Tree.cons (.name "v") (.string "b") .nil
    let keyed := fun i => Tree.cons (.name "id") (.int i) (.cons (.name "v") (.string "a") .nil)
    let rows := fun i => Tree.cons (.index 0) (.map (keyed i)) (.cons (.index 1) (.map row) .nil)
    ((list (rows Int64.maxValue) (.list ["v"]) (.column "id") .null none).on (fresh "." 20)).1 =
        .ok (.cons (.index Int64.maxValue) (.string "a") .nil) ∧
      ((list (rows 1) .all (.column "id") .null none).on (fresh "." 20)).1 =
        .ok (.cons (.index 1) (.map row) .nil) := by
  decide +kernel

end Listing

end Quill
