import Quill.Proofs.Listing.Cells

/-!
# Rows under a key column

With a key column each row is placed under the key that is read for it, and behind everything else
if none is.  The key is that of the last column that is labelled as the key column, be it listed or
put in front because no listed column reads it.
-/

namespace Quill

namespace Listing

open Navigation Navigator

/-! ### Labels -/

theorem labelMark_ne_nil : labelMark ≠ [] := by decide

theorem splitLabel_of_unmarked {s : String} (h : ¬labelMark <:+: s.toList) :
    splitLabel s = (s, s) := by
  rw [splitLabel, (Text.splitLast?_eq_none_iff labelMark_ne_nil _).mpr h]

/-- A label has no label of its own. -/
theorem splitLabel_label (s : String) :
    splitLabel (splitLabel s).2 = ((splitLabel s).2, (splitLabel s).2) := by
  apply splitLabel_of_unmarked
  unfold splitLabel
  cases h : Text.splitLast? labelMark s.toList with
  | none => exact (Text.splitLast?_eq_none_iff labelMark_ne_nil _).mp h
  | some parts =>
      obtain ⟨source, label⟩ := parts
      rw [String.toList_ofList]
      exact Text.not_infix_of_splitLast? labelMark_ne_nil h

/-! ### The key of a row -/

/-- Whether a column gives the key of a row. -/
def Plan.IsKey (plan : Plan) (c : Column) : Prop :=
  plan.rowKey = .column c.label

instance (plan : Plan) (c : Column) : Decidable (plan.IsKey c) :=
  inferInstanceAs (Decidable (_ = _))

/-- The column that gives the rows their keys: the last one that is labelled as the key column. -/
def Plan.keyColumn? (plan : Plan) : Option Column :=
  (plan.columns.filter fun c => plan.IsKey c).getLast?

/-- The key that is read for a row. -/
def Plan.keyOf (plan : Plan) (row : Tree) : Option Key :=
  plan.keyColumn?.bind fun c => (plan.value row c).toKey?

theorem keyColumn?_eq_none_iff (plan : Plan) :
    plan.keyColumn? = none ↔ ∀ c ∈ plan.columns, ¬plan.IsKey c := by
  simp [Plan.keyColumn?]

theorem mem_of_keyColumn? {plan : Plan} {c : Column} (h : plan.keyColumn? = some c) :
    c ∈ plan.columns ∧ plan.IsKey c := by
  have hmem := List.mem_of_getLast? h
  rw [List.mem_filter] at hmem
  exact ⟨hmem.1, of_decide_eq_true hmem.2⟩

/-- If reading stops at none of the columns but the last, the last one that gives a key gives it. -/
theorem key_readOn {plan : Plan} {row : Tree} {cs : List Column}
    (h : ∀ c ∈ cs.dropLast, (plan.isSingle && c.source == c.label) = true →
      plan.IsKey c ∧ plan.keyIsExtra = true) (r : Row) :
    (plan.readOn row cs r).key =
      ((cs.filter fun c => plan.IsKey c).getLast?.map (plan.value row)).or r.key := by
  induction cs generalizing r with
  | nil => rfl
  | cons c rest ih =>
      have hrest : ∀ d ∈ rest.dropLast, (plan.isSingle && d.source == d.label) = true →
          plan.IsKey d ∧ plan.keyIsExtra = true := by
        intro d hd
        refine h d ?_
        cases rest with
        | nil => cases hd
        | cons e others => exact List.mem_cons_of_mem c hd
      -- What this column adds is the key behind which those of the others come.
      have hstep :
          (((c :: rest).filter fun c => plan.IsKey c).getLast?.map (plan.value row)).or r.key =
          ((rest.filter fun c => plan.IsKey c).getLast?.map (plan.value row)).or
            (if plan.IsKey c then some (plan.value row c) else r.key) := by
        by_cases hc : plan.IsKey c
        · rw [List.filter_cons_of_pos (by simpa using hc), List.getLast?_cons, if_pos hc]
          cases (rest.filter fun c => plan.IsKey c).getLast? with
          | none => rfl
          | some d => rfl
        · rw [List.filter_cons_of_neg (by simpa using hc), if_neg hc]
      rw [hstep, Plan.readOn]
      have hkeyed : (if decide (plan.rowKey = .column c.label) = true then
            { r with key := some (plan.value row c) } else r).key =
          if plan.IsKey c then some (plan.value row c) else r.key := by
        by_cases hc : plan.rowKey = .column c.label
        · rw [if_pos (decide_eq_true hc), if_pos (show plan.IsKey c from hc)]
        · rw [if_neg (by simpa using hc), if_neg (show ¬plan.IsKey c from hc)]
      rw [← hkeyed]
      split
      · exact ih hrest _
      · rename_i hkept
        split
        · rename_i hbare
          -- Reading stops here, so no other column is behind this one.
          cases rest with
          | nil => rfl
          | cons d others =>
              obtain ⟨hc, hextra⟩ := h c List.mem_cons_self hbare
              exact absurd (by simp [show plan.rowKey = .column c.label from hc, hextra]) hkept
        · exact ih hrest _

theorem IsPlan.isKey_iff {separator name : String} {default : Value} {specifiers : List String}
    {p : Plan} (h : IsPlan separator default specifiers (.column name) p) (c : Column) :
    p.IsKey c ↔ c.label = name := by
  rw [Plan.IsKey, h.rowKey_eq, RowKey.column.injEq, eq_comm]

/-- If the label of a column is a source wherever it is a label, it is the source of this column. -/
theorem AreColumns.source_of_label {separator name : String} {specifiers : List String}
    {cs : List Column} (h : AreColumns separator specifiers cs)
    (halias : ∀ s ∈ specifiers, (splitLabel s).2 = name → (splitLabel s).1 = name) {c : Column}
    (hc : c ∈ cs) (hlabel : c.label = name) : c.source = name := by
  obtain ⟨s, hs, hcolumn⟩ := h.exists_specifier hc
  rw [(columnOf_parts hcolumn).2] at hlabel
  rw [(columnOf_parts hcolumn).1]
  exact halias s hs hlabel

/-- A row that is placed under another key, or under none, leaves what is under a key as it is. -/
theorem get?_place_of_ne {t : Tree} {k : Key} {v : Value} (ht : t.get? k = some v)
    {key : Option Key} (hkey : key ≠ some k) (row : Value) : (place t key row).get? k = some v := by
  cases key with
  | none =>
      obtain hsame | ⟨_, hfree, _⟩ := t.get?_push row k
      · exact hsame.trans ht
      · rw [hfree] at ht
        cases ht
  | some k' =>
      have hne : k' ≠ k := fun heq => hkey (congrArg some heq)
      exact (Tree.get?_insert_of_ne t row hne).trans ht

section Keyed

variable {separator name : String} {default : Value} {specifiers : List String} {p : Plan}
  (hp : IsPlan separator default specifiers (.column name) p)

include hp

/-- The key that is read for a row is the value of the column that gives it.  A key column that has
a label itself is read under that label, so it gives none; but neither does any other column
then. -/
theorem key_read (row : Tree) : (p.read row).key = p.keyColumn?.map (p.value row) := by
  have hsingle : ∀ cs, AreColumns separator specifiers cs → (specifiers.length == 1) = true →
      ∃ c, cs = [c] := by
    intro cs hcs hone
    rw [← List.length_eq_one_iff, ← List.Forall₂.length_eq hcs]
    exact beq_iff_eq.mp hone
  have hkeys := hp.isKey_iff
  cases hp with
  | @asked _ cs hcs _ =>
      rw [Plan.read, key_readOn, Plan.keyColumn?, Option.or_none]
      intro c hc hbare
      rw [Bool.and_eq_true] at hbare
      obtain ⟨d, rfl⟩ := hsingle cs hcs hbare.1
      cases hc
  | @extra _ c cs hcs _ hc =>
      by_cases hlabel : c.label = name
      · rw [Plan.read, key_readOn, Plan.keyColumn?, Option.or_none]
        intro d hd hbare
        rw [Bool.and_eq_true] at hbare
        obtain ⟨e, rfl⟩ := hsingle cs hcs hbare.1
        obtain rfl : d = c := by simpa using hd
        exact ⟨(hkeys d).mpr hlabel, rfl⟩
      · have hunlabelled : ∀ d ∈ c :: cs, d.label ≠ name := by
          rintro d hd rfl
          rcases List.mem_cons.mp hd with rfl | hd
          · exact hlabel rfl
          · obtain ⟨s, _, hcolumn⟩ := hcs.exists_specifier hd
            apply hlabel
            rw [(columnOf_parts hc).2, (columnOf_parts hcolumn).2, splitLabel_label]
        have hnone := fun d hd hkey => hunlabelled d hd ((hkeys d).mp hkey)
        rw [Plan.read, key_readOn_of_unlabelled hnone, (keyColumn?_eq_none_iff _).mpr hnone]
        rfl

/-- A row is placed under its key, or behind everything else if it has none. -/
theorem place_column (result : Tree) (e : Key × Tree) :
    p.place result e = Listing.place result (p.keyOf e.2) (p.output e.2) := by
  rw [Plan.place, placeRow, hp.rowKey_eq]
  dsimp only
  rw [key_read hp, Plan.keyOf, Option.bind_map]
  rfl

/-- What is under a key stays there until another row has that key. -/
theorem get?_foldl_place {k : Key} {v : Value} {later : List (Key × Tree)}
    (hlater : ∀ e ∈ later, p.keyOf e.2 ≠ some k) {t : Tree} (ht : t.get? k = some v) :
    (later.foldl p.place t).get? k = some v := by
  induction later generalizing t with
  | nil => exact ht
  | cons e rest ih =>
      obtain ⟨he, hrest⟩ := List.forall_mem_cons.mp hlater
      refine ih hrest ?_
      rw [place_column hp]
      exact get?_place_of_ne ht he (p.output e.2)

/-- Of the rows with one key the last is under it. -/
theorem get?_foldl_place_append_cons {k : Key} {e : Key × Tree} (he : p.keyOf e.2 = some k)
    (before : List (Key × Tree)) {after : List (Key × Tree)}
    (hlast : ∀ e' ∈ after, p.keyOf e'.2 ≠ some k) (t : Tree) :
    ((before ++ e :: after).foldl p.place t).get? k = some (p.output e.2) := by
  rw [List.foldl_append, List.foldl_cons]
  apply get?_foldl_place hp hlast
  rw [place_column hp, he]
  exact Tree.get?_insert_self _ _ _

end Keyed

/-! ### Rows without their keys -/

/-- The plan for the same specifiers without a key column. -/
def Plan.unkeyed (plan : Plan) : Plan :=
  { plan with
    columns := if plan.keyIsExtra then plan.columns.tail else plan.columns
    rowKey := .numbered
    keyIsExtra := false }

theorem IsPlan.unkeyed {separator : String} {default : Value} {specifiers : List String}
    {rowKey : RowKey} {p : Plan} (h : IsPlan separator default specifiers rowKey p) :
    IsPlan separator default specifiers .numbered p.unkeyed := by
  cases h with
  | asked hcs _ => exact .asked hcs (by simp)
  | extra hcs _ _ => exact .asked hcs (by simp)

/-- A column that is not left out stands for the row or adds a cell to it, whatever it does to the
key. -/
theorem readOn_cons {plan : Plan} {c : Column} (h : plan.IsKey c → plan.keyIsExtra = false)
    (row : Tree) (rest : List Column) (r : Row) :
    ∃ key, plan.readOn row (c :: rest) r =
      if plan.isSingle && c.source == c.label then ⟨r.cells, some (plan.value row c), key⟩
      else plan.readOn row rest
        ⟨r.cells.insert (.ofText c.label) (plan.value row c), r.bare, key⟩ := by
  rw [Plan.readOn]
  by_cases hc : plan.rowKey = .column c.label
  · refine ⟨some (plan.value row c), ?_⟩
    simp only [hc, h hc, decide_true, if_true, Bool.and_false, Bool.false_eq_true, if_false]
  · refine ⟨r.key, ?_⟩
    simp only [hc, decide_false, Bool.false_and, Bool.false_eq_true, if_false]

/-- As long as no column is left out, what stands for a row does not depend on the key column. -/
theorem output_readOn_unkeyed {p : Plan} {cs : List Column}
    (h : ∀ c ∈ cs, p.IsKey c → p.keyIsExtra = false) (row cells : Tree)
    (bare key key' : Option Value) :
    (p.readOn row cs ⟨cells, bare, key⟩).output =
      (p.unkeyed.readOn row cs ⟨cells, bare, key'⟩).output := by
  induction cs generalizing cells key key' with
  | nil => rfl
  | cons c rest ih =>
      obtain ⟨hc, hrest⟩ := List.forall_mem_cons.mp h
      have hnone : p.unkeyed.IsKey c → p.unkeyed.keyIsExtra = false := fun _ => rfl
      obtain ⟨_, hread⟩ := readOn_cons hc row rest ⟨cells, bare, key⟩
      obtain ⟨_, hunkeyed⟩ := readOn_cons hnone row rest ⟨cells, bare, key'⟩
      rw [hread, hunkeyed, show p.unkeyed.isSingle = p.isSingle from rfl]
      split
      · rfl
      · exact ih hrest _ _ _

/-- Whether a key column is hidden among the columns: it is read, but under other labels only. -/
def IsHidden (specifiers : List String) (name : String) : Prop :=
  (∃ s ∈ specifiers, (splitLabel s).1 = name) ∧
    ∀ s ∈ specifiers, (splitLabel s).1 = name → (splitLabel s).2 ≠ name

instance (specifiers : List String) (name : String) : Decidable (IsHidden specifiers name) :=
  inferInstanceAs (Decidable (_ ∧ _))

section Hidden

variable {separator name : String} {default : Value} {specifiers : List String} {p : Plan}
  (hp : IsPlan separator default specifiers (.column name) p)

include hp

/-- Unless it is hidden, there is a column that gives the rows their keys. -/
theorem exists_isKey (hmark : ¬labelMark <:+: name.toList) (h : ¬IsHidden specifiers name) :
    ∃ c ∈ p.columns, p.IsKey c := by
  have hlabelled : ∃ c ∈ p.columns, c.label = name := by
    cases hp with
    | @asked _ cs hcs hkey =>
        obtain ⟨d, hd, hdname⟩ := hkey name rfl
        obtain ⟨s, hs, hscolumn⟩ := hcs.exists_specifier hd
        have hlisted : (splitLabel s).1 = name := (columnOf_parts hscolumn).1.symm.trans hdname
        have hshown : ∃ s ∈ specifiers, (splitLabel s).2 = name := by
          by_contra hnone
          exact h ⟨⟨s, hs, hlisted⟩, fun s hs _ hlabel => hnone ⟨s, hs, hlabel⟩⟩
        obtain ⟨s, hs, hlabel⟩ := hshown
        obtain ⟨c, hc, hcolumn⟩ := hcs.exists_column hs
        exact ⟨c, hc, (columnOf_parts hcolumn).2.trans hlabel⟩
    | @extra _ c cs _ _ hc =>
        refine ⟨c, List.mem_cons_self, ?_⟩
        rw [(columnOf_parts hc).2, splitLabel_of_unmarked hmark]
  obtain ⟨c, hc, hlabel⟩ := hlabelled
  exact ⟨c, hc, (hp.isKey_iff c).mpr hlabel⟩

theorem not_isKey_of_isHidden
    (halias : ∀ s ∈ specifiers, (splitLabel s).2 = name → (splitLabel s).1 = name)
    (h : IsHidden specifiers name) : ∀ c ∈ p.columns, ¬p.IsKey c := by
  obtain ⟨⟨s, hs, hsource⟩, hnever⟩ := h
  intro c hc hkey
  rw [hp.isKey_iff] at hkey
  cases hp with
  | asked hcs _ =>
      obtain ⟨s', hs', hcolumn⟩ := hcs.exists_specifier hc
      rw [(columnOf_parts hcolumn).2] at hkey
      exact hnever s' hs' (halias s' hs' hkey) hkey
  | extra hcs hnone _ =>
      obtain ⟨d, hd, hcolumn⟩ := hcs.exists_column hs
      exact hnone d hd ((columnOf_parts hcolumn).1.trans hsource)

theorem keyOf_of_isHidden
    (halias : ∀ s ∈ specifiers, (splitLabel s).2 = name → (splitLabel s).1 = name)
    (h : IsHidden specifiers name) (row : Tree) : p.keyOf row = none := by
  rw [Plan.keyOf, (keyColumn?_eq_none_iff p).mpr (not_isKey_of_isHidden hp halias h)]
  rfl

end Hidden

section Literal

variable {separator name : String} {default : Value} {specifiers : List String} {p : Plan}
  (hp : IsPlan separator default specifiers (.column name) p)
  (hmark : ¬labelMark <:+: name.toList)
  (halias : ∀ s ∈ specifiers, (splitLabel s).2 = name → (splitLabel s).1 = name)

include hp hmark halias

/-- A literal key column leaves what stands for a row as it is. -/
theorem output_unkeyed (row : Tree) : p.output row = p.unkeyed.output row := by
  have hkeys := hp.isKey_iff
  cases hp with
  | asked hcs hkey =>
      exact output_readOn_unkeyed (fun _ _ _ => rfl) row .nil none none none
  | @extra _ c cs hcs hnone hc =>
      have hlabel := (columnOf_parts hc).2
      rw [splitLabel_of_unmarked hmark] at hlabel
      rw [Plan.output, Plan.output, Plan.read, Plan.read, Plan.readOn]
      simp only [hlabel, decide_true, Bool.and_self, if_true]
      refine output_readOn_unkeyed (fun d hd hkey => ?_) row .nil none _ none
      -- No other column is labelled as the key column, for it would read it.
      exact absurd (hcs.source_of_label halias hd ((hkeys d).mp hkey)) (hnone d hd)

/-- A column that gives the rows their keys reads the key column, without following a path. -/
theorem source_of_isKey (hsep : ¬separator.toList <:+: name.toList) {c : Column}
    (hc : c ∈ p.columns) (hkey : p.IsKey c) : c.source = name ∧ c.isPath = false := by
  have hsource : c.source = name := by
    rw [hp.isKey_iff] at hkey
    cases hp with
    | asked hcs _ => exact hcs.source_of_label halias hc hkey
    | extra hcs _ hd =>
        rcases List.mem_cons.mp hc with rfl | hmem
        · rw [(columnOf_parts hd).1, splitLabel_of_unmarked hmark]
        · exact hcs.source_of_label halias hmem hkey
  obtain ⟨s, hcolumn⟩ := hp.exists_specifier hc
  refine ⟨hsource, isPath_of_no_separator hcolumn ?_⟩
  rwa [← (columnOf_parts hcolumn).1, hsource]

/-- A literal key column that is not hidden gives a row the key that the row has under it. -/
theorem keyOf_of_not_isHidden (hsep : ¬separator.toList <:+: name.toList)
    (h : ¬IsHidden specifiers name) (row : Tree) :
    p.keyOf row = ((row.get? (.ofText name)).getD default).toKey? := by
  unfold Plan.keyOf
  cases hkey : p.keyColumn? with
  | none =>
      obtain ⟨c, hc, hkeys⟩ := exists_isKey hp hmark h
      exact absurd hkeys ((keyColumn?_eq_none_iff p).mp hkey c hc)
  | some c =>
      obtain ⟨hc, hkeys⟩ := mem_of_keyColumn? hkey
      obtain ⟨hsource, hpath⟩ := source_of_isKey hp hmark halias hsep hc hkeys
      rw [Option.bind_some, Plan.value, hpath, hsource, hp.default_eq]
      rfl

end Literal

/-- A key column that is a literal key and no label of another column.  Unless it is hidden, each
row that has a key in this column is under that key, if no later row has the same; and what is there
is what a table of this row alone gives without a key column.  Hidden, it has no effect: the rows
are numbered. -/
theorem list_column_keys_rows {cs : Columns} {specifiers : List String}
    (hcs : cs.specifiers? = some specifiers) {name : String} {own : Option String}
    {n n' : Navigator} (hn : n.cache.IsSound) (hn' : n'.cache.IsSound)
    (hsame : n.separator = n'.separator) (hmark : ¬labelMark <:+: name.toList)
    (hsep : ¬(own.getD n.separator).toList <:+: name.toList)
    (halias : ∀ s ∈ specifiers, (splitLabel s).2 = name → (splitLabel s).1 = name)
    {rows result : Tree} (h : ((list rows cs (.column name) .null own).on n).1 = .ok result) :
    (¬IsHidden specifiers name → ∀ before e after k, rows.rows = before ++ e :: after →
      (e.2.get? (.ofText name)).bind Value.toKey? = some k →
      (∀ e' ∈ after, (e'.2.get? (.ofText name)).bind Value.toKey? ≠ some k) →
      ∃ v, result.get? k = some v ∧
        ((list (.alone e) cs .numbered .null own).on n').1 = .ok (.sequence [v])) ∧
    (IsHidden specifiers name → ((list rows cs .numbered .null own).on n').1 = .ok result) := by
  rw [list_on_eq_ok_iff hcs _ _ _ _ hn] at h
  by_cases hrows : rows = .nil
  · rw [if_pos hrows] at h
    rw [hrows, h]
    exact ⟨fun _ before e after _ hsplit => absurd hsplit (by simp [Tree.rows]), fun _ => rfl⟩
  rw [if_neg hrows] at h
  obtain ⟨p, hp, rfl⟩ := h
  have hunkeyed := hp.unkeyed
  rw [hsame] at hunkeyed
  have hnumbered : ∀ t e, p.unkeyed.place t e = t.push (p.output e.2) := by
    intro t e
    rw [place_numbered rfl, output_unkeyed hp hmark halias]
  constructor
  · intro hshown before e after k hsplit hk hlast
    have hkeyOf : ∀ row, p.keyOf row = (row.get? (.ofText name)).bind Value.toKey? := by
      intro row
      rw [keyOf_of_not_isHidden hp hmark halias hsep hshown]
      cases row.get? (.ofText name) with
      | none => rfl
      | some v => rfl
    refine ⟨p.output e.2, ?_, ?_⟩
    · rw [hsplit]
      refine get?_foldl_place_append_cons hp ((hkeyOf e.2).trans hk) before ?_ .nil
      intro e' he'
      rw [hkeyOf]
      exact hlast e' he'
    · rw [list_alone_on hcs hn' hunkeyed, hnumbered]
      rfl
  · intro hhidden
    have hplace : p.unkeyed.place = p.place := by
      funext t e
      rw [hnumbered, place_column hp, keyOf_of_isHidden hp halias hhidden]
      rfl
    rw [list_on_eq_ok_iff hcs _ _ _ _ hn', if_neg hrows]
    exact ⟨p.unkeyed, hunkeyed, by rw [hplace]⟩

/-- The key column once under its name and once under another, and a later row with the key of an
earlier one. -/
theorem list_column_keys_rows_repeatedKey :
    let row := fun v => Tree.cons (.name "v") (.int v) (.cons (.name "id") (.string "7") .nil)
    let loose := Tree.cons (.name "v") (.int 2) .nil
    let rows := Tree.cons (.index 0) (.map (row 1))
      (.cons (.index 1) (.map loose) (.cons (.index 2) (.map (row 3)) .nil))
    let specifiers := ["v", "id as x", "id"]
    let n := fresh "." 2
    let output := fun v id => Value.map
      (.cons (.name "v") (.int v) (.cons (.name "x") id (.cons (.name "id") id .nil)))
    let result := Tree.cons (.index 7) (output 3 (.string "7"))
      (.cons (.index 8) (output 2 .null) .nil)
    n.cache.IsSound ∧ ¬labelMark <:+: "id".toList ∧ ¬".".toList <:+: "id".toList ∧
      (∀ s ∈ specifiers, (splitLabel s).2 = "id" → (splitLabel s).1 = "id") ∧
      ((list rows (.list specifiers) (.column "id") .null none).on n).1 = .ok result ∧
      ¬IsHidden specifiers "id" ∧
      rows.rows = [(.index 0, row 1), (.index 1, loose)] ++ (.index 2, row 3) :: [] ∧
      ∃ v, result.get? (.index 7) = some v ∧
        ((list (.alone (.index 2, row 3)) (.list specifiers) .numbered .null none).on n).1 =
          .ok (.sequence [v]) := by
  intro row loose rows specifiers n output result
  have hn : n.cache.IsSound := Cache.isSound_ofCapacity 2
  have hmark : ¬labelMark <:+: "id".toList := by decide +kernel
  have hsep : ¬".".toList <:+: "id".toList := by decide +kernel
  have halias : ∀ s ∈ specifiers, (splitLabel s).2 = "id" → (splitLabel s).1 = "id" := by
    decide +kernel
  have hlist : ((list rows (.list specifiers) (.column "id") .null none).on n).1 = .ok result := by
    decide +kernel
  have hshown : ¬IsHidden specifiers "id" := by decide +kernel
  have hrows : rows.rows = [(.index 0, row 1), (.index 1, loose)] ++ (.index 2, row 3) :: [] := rfl
  have hkey : ((row 3).get? (.ofText "id")).bind Value.toKey? = some (.index 7) := by
    decide +kernel
  obtain ⟨hkeyed, _⟩ := @list_column_keys_rows (.list specifiers) specifiers rfl "id" none n n
    hn hn rfl hmark hsep halias rows result hlist
  exact ⟨hn, hmark, hsep, halias, hlist, hshown, hrows,
    hkeyed hshown _ _ [] _ hrows hkey (by simp)⟩

/-- A key column that is listed under another label only: the row has a key in it and is numbered
instead. -/
theorem list_column_hides_key :
    let row := Tree.cons (.name "id") (.int 7) .nil
    let output := Value.map (.cons (.name "x") (.int 7) .nil)
    (row.get? (.ofText "id")).bind Value.toKey? = some (.index 7) ∧
      ((list (.alone (.index 0, row)) (.list ["id as x"]) (.column "id") .null none).on
        (fresh "." 20)).1 = .ok (.sequence [output]) ∧
      (Tree.sequence [output]).get? (.index 7) = none := by
  decide +kernel

end Listing

end Quill
