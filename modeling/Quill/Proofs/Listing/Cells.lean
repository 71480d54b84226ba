import Quill.Proofs.Listing.Rows
import Quill.Proofs.Tree.KeyText

/-!
# Cells

What a column reads in a row, against what the navigator reads there along the source of the column.
The two are the same if the source denotes a path of several segments, or nothing but the key that
it spells as it stands.  A source that denotes one segment in any other way, an escaped key, a
wildcard, a group or a key with a separator beside it, is not followed as a path: the cell is what
the row has under the source itself.
-/

namespace Quill

namespace Listing

open Navigation Navigator

/-- The cell of a specifier in what stands for a row: the whole of it, if nothing else was asked for
and the specifier has no label of its own, and else what is under its label. -/
def cellIn? (specifiers : List String) (specifier : String) (output : Value) : Option Value :=
  if specifiers.length = 1 ∧ (splitLabel specifier).1 = (splitLabel specifier).2 then some output
  else output.tree?.bind (·.get? (.ofText (splitLabel specifier).2))

/-! ### The value of a column -/

/-- Without a separator in it an expression denotes one segment at most. -/
theorem length_le_one_of_denote {separator s : String} (h : ¬separator.toList <:+: s.toList)
    {allowEmpty : Bool} {p : Path} (hp : denote (.text s) separator allowEmpty = .ok p) :
    p.length ≤ 1 := by
  cases hnil : p.isNil with
  | true =>
      rw [Path.eq_nil_of_isNil hnil]
      exact Nat.zero_le 1
  | false =>
      obtain ⟨_, hread⟩ := (readWhole_eq_ok_iff s separator allowEmpty hnil).mp hp
      unfold readText at hread
      by_cases hplain : Path.isPlainKey separator s = true
      · rw [if_pos hplain] at hread
        rw [← Except.ok.inj hread]
        exact Nat.le_refl 1
      · rw [if_neg hplain, Path.ofText_eq_ok_iff] at hread
        refine hread.length_le_one fun hmem => h ?_
        exact ((Path.scans_iff _ _ _).mpr rfl).infix_of_mem hmem

/-- A source with several segments has a separator in it, so the segments alone decide whether it is
read as a path. -/
theorem isPath_of_columnOf {separator specifier : String} {c : Column}
    (hc : columnOf separator specifier = .ok c) {p : Path}
    (hp : denote (.text (splitLabel specifier).1) separator true = .ok p) :
    c.isPath = decide (1 < p.length) := by
  by_cases hoccurs : Text.occurs separator.toList (splitLabel specifier).1.toList = true
  · unfold columnOf at hc
    rw [if_pos hoccurs, hp] at hc
    rw [← Except.ok.inj hc]
  · rw [Text.occurs_iff] at hoccurs
    rw [isPath_of_no_separator hc hoccurs]
    have hlength := length_le_one_of_denote hoccurs hp
    exact (decide_eq_false (Nat.not_lt.mpr hlength)).symm

/-- A path that a column is read along: of several segments, or the key that its source spells as it
stands, the wildcard left out. -/
def IsFollowed (source : String) (p : Path) : Prop :=
  1 < p.length ∨ p = .key source .nil ∧ source ≠ Path.wildcard

/-- Where a column is read along the path of its source, it reads what the navigator gets along the
path, and elsewhere what the row has under the source. -/
theorem value_of_columnOf {separator specifier : String} {c : Column}
    (hc : columnOf separator specifier = .ok c) {p : Path}
    (hp : denote (.text (splitLabel specifier).1) separator true = .ok p) (hne : p ≠ .nil)
    {plan : Plan} (hplan : plan.separator = separator) (row : Tree) :
    (IsFollowed (splitLabel specifier).1 p →
      plan.value row c = if row.isEmpty then plan.default else p.get plan.default false row) ∧
    (¬IsFollowed (splitLabel specifier).1 p →
      plan.value row c = (row.get? (.ofText (splitLabel specifier).1)).getD plan.default) := by
  have hpath := isPath_of_columnOf hc hp
  have hdenote := denote_of_ne_nil hp (Path.isNil_eq_false_of_ne_nil hne)
  unfold Plan.value
  rw [(columnOf_parts hc).1, hplan, hdenote, hpath]
  by_cases hlong : 1 < p.length
  · simp only [hlong, decide_true, if_true]
    exact ⟨fun _ => trivial, fun h => absurd (.inl hlong) h⟩
  · simp only [hlong, decide_false]
    refine ⟨fun h => ?_, fun _ => rfl⟩
    obtain ⟨hkey, hwildcard⟩ := h.resolve_left hlong
    rw [hkey, Path.get_last hwildcard]
    cases row with
    | nil => rfl
    | cons k v rest => rfl

/-! ### The cells of a row -/

/-- Columns that give no key and do not stand for the whole row are put under their labels, one
after the other. -/
theorem readOn_of_cells {plan : Plan} {row : Tree} {cs : List Column}
    (hkey : ∀ c ∈ cs, plan.rowKey ≠ .column c.label)
    (hbare : ∀ c ∈ cs, (plan.isSingle && c.source == c.label) = false) (r : Row) :
    plan.readOn row cs r =
      { r with
        cells := r.cells.insertAll (cs.map fun c => (.ofText c.label, plan.value row c)) } := by
  induction cs generalizing r with
  | nil => rfl
  | cons c rest ih =>
      obtain ⟨hc, hrest⟩ := List.forall_mem_cons.mp hkey
      obtain ⟨hb, hothers⟩ := List.forall_mem_cons.mp hbare
      rw [Plan.readOn]
      simp only [hc, hb, decide_false, Bool.false_and, Bool.false_eq_true, if_false]
      rw [ih hrest hothers]
      rfl

/-- If no column stands for the whole row, the last one with a label is under that label. -/
theorem get?_output {plan : Plan} {csBefore csAfter : List Column} {c : Column}
    (hcolumns : plan.columns = csBefore ++ c :: csAfter)
    (hlater : ∀ d ∈ csAfter, Key.ofText d.label ≠ Key.ofText c.label)
    (hkey : ∀ c ∈ plan.columns, plan.rowKey ≠ .column c.label)
    (hbare : ∀ c ∈ plan.columns, (plan.isSingle && c.source == c.label) = false) (row : Tree) :
    (plan.output row).tree?.bind (·.get? (.ofText c.label)) = some (plan.value row c) := by
  have hnone : Key.ofText c.label ∉
      (csAfter.map fun d => (Key.ofText d.label, plan.value row d)).map (·.1) := by
    rw [List.map_map, List.mem_map]
    rintro ⟨d, hd, heq⟩
    exact hlater d hd heq
  rw [Plan.output, Plan.read, readOn_of_cells hkey hbare, hcolumns, List.map_append, List.map_cons]
  exact Tree.get?_insertAll_append_cons _ _ hnone

/-- The only column, without a label of its own, stands for the whole row. -/
theorem output_of_bare {plan : Plan} {c : Column} (hcolumns : plan.columns = [c])
    (hkey : plan.rowKey ≠ .column c.label) (hsingle : plan.isSingle = true)
    (hsame : c.source = c.label) (row : Tree) : plan.output row = plan.value row c := by
  rw [Plan.output, Plan.read, hcolumns, Plan.readOn]
  simp only [hkey, decide_false, Bool.false_and, Bool.false_eq_true, if_false, hsingle, hsame,
    beq_self_eq_true, Bool.and_self, if_true]
  rfl

/-- Without a key column the cell of a specifier is the value of its column, unless a later column
has the same label. -/
theorem cellIn?_output {separator : String} {default : Value} {before after : List String}
    {s : String} (hlast : ∀ s' ∈ after, (splitLabel s').2 ≠ (splitLabel s).2) {rowKey : RowKey}
    (hkey : ∀ name, rowKey ≠ .column name) {p : Plan}
    (hp : IsPlan separator default (before ++ s :: after) rowKey p) :
    ∃ c, columnOf separator s = .ok c ∧
      ∀ row, cellIn? (before ++ s :: after) s (p.output row) = some (p.value row c) := by
  cases hp with
  | extra => exact absurd rfl (hkey _)
  | @asked _ cs hcs _ =>
      obtain ⟨csBefore, c, csAfter, rfl, hc, hafter⟩ := hcs.split
      obtain ⟨hsource, hlabel⟩ := columnOf_parts hc
      have hlength : (before ++ s :: after).length = (csBefore ++ c :: csAfter).length :=
        List.Forall₂.length_eq hcs
      have hlater : ∀ d ∈ csAfter, Key.ofText d.label ≠ Key.ofText c.label := by
        intro d hd heq
        obtain ⟨s', hs', hd'⟩ := hafter.exists_specifier hd
        apply hlast s' hs'
        rw [← hlabel, ← (columnOf_parts hd').2]
        exact Key.ofText_injective heq
      refine ⟨c, hc, fun row => ?_⟩
      unfold cellIn?
      rw [← hsource, ← hlabel]
      by_cases hone : (before ++ s :: after).length = 1
      · have hnone : csBefore = [] ∧ csAfter = [] := by
          rw [hone, List.length_append, List.length_cons] at hlength
          exact ⟨List.eq_nil_of_length_eq_zero (by omega), List.eq_nil_of_length_eq_zero (by omega)⟩
        obtain ⟨rfl, rfl⟩ := hnone
        by_cases hsame : c.source = c.label
        · rw [if_pos ⟨hone, hsame⟩, output_of_bare rfl (hkey c.label) (beq_iff_eq.mpr hone) hsame]
        · rw [if_neg fun h => hsame h.2]
          exact get?_output rfl hlater (fun d _ => hkey d.label) (by simp [hsame]) row
      · rw [if_neg fun h => hone h.1]
        refine get?_output rfl hlater (fun d _ => hkey d.label) (fun d _ => ?_) row
        rw [Bool.and_eq_false_iff]
        exact .inl (beq_eq_false_iff_ne.mpr hone)

/-! ### Cells and paths -/

/-- Without a key column each row has a cell for each specifier whose label no later one has.  If
the source of the specifier denotes a path of several segments, or the key that it spells as it
stands, the cell is what the navigator reads in the row along the source, with the same separator
and default.  If it denotes one segment in another way, the cell is what the row has under the
source itself. -/
theorem list_cell_reads_path {cs : Columns} {before after : List String} {s : String}
    (hcs : cs.specifiers? = some (before ++ s :: after))
    (hlast : ∀ s' ∈ after, (splitLabel s').2 ≠ (splitLabel s).2) {own : Option String}
    {n n' : Navigator} (hn : n.cache.IsSound) (hn' : n'.cache.IsSound)
    (hsep : n.separator = n'.separator) {p : Path}
    (hparse : ((parse (.text (splitLabel s).1) (own.getD n.separator) true).on n).1 = .ok p)
    (hne : p ≠ .nil) {rows result : Tree} {rowKey : RowKey}
    (hkey : rowKey = .numbered ∨ rowKey = .preserved ∧ rows.keys.Nodup) {default : Value}
    (h : ((list rows cs rowKey default own).on n).1 = .ok result) {i : Nat} (hi : i < 2 ^ 63)
    {e : Key × Tree} (he : rows.rows[i]? = some e) :
    ∃ output cell, result.values[i]? = some output ∧
      cellIn? (before ++ s :: after) s output = some cell ∧
      (IsFollowed (splitLabel s).1 p →
        ((Navigator.get e.2 (.text (splitLabel s).1) default own).on n').1 = .ok cell) ∧
      (¬IsFollowed (splitLabel s).1 p →
        cell = (e.2.get? (.ofText (splitLabel s).1)).getD default) := by
  obtain ⟨plan, hplan, hentry⟩ := getElem?_values_list hcs hkey hn h hi he
  have hunkeyed : ∀ name, rowKey ≠ .column name := by
    rcases hkey with rfl | ⟨rfl, _⟩
    · simp
    · simp
  obtain ⟨c, hc, hcell⟩ := cellIn?_output hlast hunkeyed hplan
  rw [parse_on _ _ _ hn] at hparse
  obtain ⟨hfollowed, helse⟩ := value_of_columnOf hc hparse hne hplan.separator_eq e.2
  rw [hplan.default_eq] at hfollowed helse
  refine ⟨_, _, hentry, hcell e.2, fun hf => ?_, helse⟩
  have hdenote := denote_of_ne_nil hparse (Path.isNil_eq_false_of_ne_nil hne)
  rw [get_on hn', ← hsep, hdenote, hfollowed hf]
  cases e.2 with
  | nil => rfl
  | cons k v rest => rfl

/-- A wildcard behind a key, between columns of which one has the same label. -/
theorem list_cell_reads_path_shadowedLabel :
    let row := Tree.cons (.name "a") (.map (.cons (.name "x") (.int 1)
      (.cons (.name "y") (.int 2) .nil))) .nil
    let rows := Tree.cons (.name "r") .null (.cons (.name "q") (.map row) .nil)
    let before := ["b as m"]
    let after := ["a"]
    let n := fresh "/" 3
    let p := Path.key "a" (.key "*" .nil)
    let found := Value.map (.cons (.name "x") (.int 1) (.cons (.name "y") (.int 2) .nil))
    let output := Value.map (.cons (.name "m") found (.cons (.name "a") found .nil))
    splitLabel "a/* as m" = ("a/*", "m") ∧
      (∀ s' ∈ after, (splitLabel s').2 ≠ (splitLabel "a/* as m").2) ∧ n.cache.IsSound ∧
      ((parse (.text (splitLabel "a/* as m").1) "/" true).on n).1 = .ok p ∧ p ≠ .nil ∧
      ((list rows (.list (before ++ "a/* as m" :: after)) .numbered .null none).on n).1 =
        .ok (.sequence [output]) ∧
      rows.rows[0]? = some (.name "q", row) ∧
      ∃ entry cell, (Tree.sequence [output]).values[0]? = some entry ∧
        cellIn? (before ++ "a/* as m" :: after) "a/* as m" entry = some cell ∧
        ((Navigator.get row (.text "a/*") .null none).on n).1 = .ok cell := by
  intro row rows before after n p found output
  have hsplit : splitLabel "a/* as m" = ("a/*", "m") := by decide +kernel
  have hlast : ∀ s' ∈ after, (splitLabel s').2 ≠ (splitLabel "a/* as m").2 := by decide +kernel
  have hn : n.cache.IsSound := Cache.isSound_ofCapacity 3
  have hparse : ((parse (.text (splitLabel "a/* as m").1) "/" true).on n).1 = .ok p := by
    decide +kernel
  have hlist : ((list rows (.list (before ++ "a/* as m" :: after)) .numbered .null none).on n).1 =
      .ok (.sequence [output]) := by decide +kernel
  have hrow : rows.rows[0]? = some (.name "q", row) := rfl
  obtain ⟨entry, cell, hentry, hcell, hread, _⟩ := @list_cell_reads_path
    (.list (before ++ "a/* as m" :: after)) before after "a/* as m" rfl hlast none n n hn hn rfl p
    hparse (by simp [p]) rows _ .numbered (.inl rfl) .null hlist 0 (by decide) _ hrow
  refine ⟨hsplit, hlast, hn, hparse, by simp [p], hlist, hrow, entry, cell, hentry, hcell, ?_⟩
  have hfollowed : IsFollowed (splitLabel "a/* as m").1 p := .inl (by decide)
  exact hread hfollowed

/-- A separator behind the only key: the expression denotes the key without it, and the row has
nothing under the key with it. -/
theorem list_cell_misses_path :
    let row := Tree.cons (.name "id") (.int 1) .nil
    ((parse (.text "id.") "." true).on (fresh "." 20)).1 = .ok (.key "id" .nil) ∧
      ((Navigator.get row (.text "id.") .null none).on (fresh "." 20)).1 = .ok (.int 1) ∧
      ((list (.alone (.index 0, row)) (.list ["id."]) .numbered .null none).on (fresh "." 20)).1 =
        .ok (.sequence [.null]) := by
  decide +kernel

end Listing

end Quill
