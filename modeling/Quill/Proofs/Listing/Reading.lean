import Mathlib.Data.List.Forall2
import Quill.Proofs.Navigation.Answers

/-!
# What a listing reads

A listing goes over the specifiers of its columns, over the rows of the table and over the columns
of each row, and all along it passes the navigator on.  On a sound cache the navigator makes no
difference, and what is left of the three loops is said here without one: a specifier stands for a
column or is no path, a column reads a value in a row, and the rows are placed one after the other.

Only the specifiers can fail.  A column that is read as a path has been parsed as one before the
first row is looked at, and it denotes the same path in every row.
-/

namespace Quill

/-- The rows of a table with their keys: the entries that are maps. -/
def Tree.rows : Tree → List (Key × Tree)
  | .nil => []
  | .cons k (.map row) rest => (k, row) :: rest.rows
  | .cons _ _ rest => rest.rows

namespace Listing

open Navigation Navigator

/-! ### Columns -/

/-- The column that a specifier stands for. -/
def columnOf (separator specifier : String) : Except PathError Column :=
  let source := (splitLabel specifier).1
  let label := (splitLabel specifier).2
  if Text.occurs separator.toList source.toList then
    (denote (.text source) separator true).map fun p => ⟨source, label, 1 < p.length⟩
  else .ok ⟨source, label, false⟩

/-- The columns that several specifiers stand for. -/
def AreColumns (separator : String) (specifiers : List String) (cs : List Column) : Prop :=
  List.Forall₂ (fun s c => columnOf separator s = .ok c) specifiers cs

theorem column_on (separator specifier : String) {n : Navigator} (hn : n.cache.IsSound) :
    ((column separator specifier).on n).1 = columnOf separator specifier := by
  unfold column columnOf
  obtain ⟨source, label⟩ := splitLabel specifier
  by_cases hoccurs : Text.occurs separator.toList source.toList = true
  · simp only [hoccurs, if_true]
    have hparse := parse_on (.text source) separator true hn
    rw [on_bind]
    cases hon : (parse (.text source) separator true).on n with
    | mk r after =>
        rw [hon] at hparse
        rw [← hparse]
        cases r with
        | ok p => rfl
        | error e => rfl
  · simp only [hoccurs]
    rfl

/-- A column has the source and the label of its specifier. -/
theorem columnOf_parts {separator specifier : String} {c : Column}
    (h : columnOf separator specifier = .ok c) :
    c.source = (splitLabel specifier).1 ∧ c.label = (splitLabel specifier).2 := by
  unfold columnOf at h
  by_cases hoccurs : Text.occurs separator.toList (splitLabel specifier).1.toList = true
  · rw [if_pos hoccurs] at h
    cases hp : denote (.text (splitLabel specifier).1) separator true with
    | error e => simp [hp, Except.map] at h
    | ok p =>
        simp only [hp, Except.map, Except.ok.injEq] at h
        rw [← h]
        exact ⟨rfl, rfl⟩
  · rw [if_neg hoccurs, Except.ok.injEq] at h
    rw [← h]
    exact ⟨rfl, rfl⟩

/-- A source without a separator in it is not read as a path. -/
theorem isPath_of_no_separator {separator specifier : String} {c : Column}
    (h : columnOf separator specifier = .ok c)
    (hsep : ¬separator.toList <:+: (splitLabel specifier).1.toList) : c.isPath = false := by
  rw [← Text.occurs_iff] at hsep
  unfold columnOf at h
  rw [if_neg hsep, Except.ok.injEq] at h
  rw [← h]

/-- A path that is not empty is denoted whether or not the empty path is allowed. -/
theorem denote_of_ne_nil {s separator : String} {p : Path}
    (h : denote (.text s) separator true = .ok p) (hp : p.isNil = false) :
    denote (.text s) separator false = .ok p := by
  have hread := (readWhole_eq_ok_iff s separator true hp).mp h
  exact (readWhole_eq_ok_iff s separator false hp).mpr hread

/-- A column that is read as a path denotes one. -/
def IsReadable (separator : String) (c : Column) : Prop :=
  c.isPath = true → ∃ p, denote (.text c.source) separator false = .ok p

theorem isReadable_of_columnOf {separator specifier : String} {c : Column}
    (h : columnOf separator specifier = .ok c) : IsReadable separator c := by
  intro hpath
  unfold columnOf at h
  by_cases hoccurs : Text.occurs separator.toList (splitLabel specifier).1.toList = true
  · rw [if_pos hoccurs] at h
    cases hp : denote (.text (splitLabel specifier).1) separator true with
    | error e => simp [hp, Except.map] at h
    | ok p =>
        simp only [hp, Except.map, Except.ok.injEq] at h
        subst h
        have hlength : 1 < p.length := by simpa using hpath
        refine ⟨p, denote_of_ne_nil hp ?_⟩
        cases p with
        | nil => cases hlength
        | key text rest => rfl
        | group ms rest => rfl
  · rw [if_neg hoccurs, Except.ok.injEq] at h
    rw [← h] at hpath
    cases hpath

/-- A specifier among others stands for a column among theirs. -/
theorem AreColumns.split {separator s : String} {before after : List String} {cs : List Column}
    (h : AreColumns separator (before ++ s :: after) cs) :
    ∃ csBefore c csAfter, cs = csBefore ++ c :: csAfter ∧ columnOf separator s = .ok c ∧
      AreColumns separator after csAfter := by
  induction before generalizing cs with
  | nil =>
      obtain ⟨c, csAfter, hc, hafter, rfl⟩ := List.forall₂_cons_left_iff.mp h
      exact ⟨[], c, csAfter, rfl, hc, hafter⟩
  | cons first rest ih =>
      obtain ⟨d, others, _, hothers, rfl⟩ := List.forall₂_cons_left_iff.mp h
      obtain ⟨csBefore, c, csAfter, rfl, hc, hafter⟩ := ih hothers
      exact ⟨d :: csBefore, c, csAfter, rfl, hc, hafter⟩

theorem AreColumns.exists_specifier {separator : String} {specifiers : List String}
    {cs : List Column} (h : AreColumns separator specifiers cs) {c : Column} (hc : c ∈ cs) :
    ∃ s ∈ specifiers, columnOf separator s = .ok c := by
  induction h with
  | nil => cases hc
  | cons hfirst _ ih =>
      rcases List.mem_cons.mp hc with rfl | hrest
      · exact ⟨_, List.mem_cons_self, hfirst⟩
      · obtain ⟨s, hs, hcolumn⟩ := ih hrest
        exact ⟨s, List.mem_cons_of_mem _ hs, hcolumn⟩

theorem AreColumns.exists_column {separator : String} {specifiers : List String}
    {cs : List Column} (h : AreColumns separator specifiers cs) {s : String} (hs : s ∈ specifiers) :
    ∃ c ∈ cs, columnOf separator s = .ok c := by
  obtain ⟨before, after, rfl⟩ := List.append_of_mem hs
  obtain ⟨csBefore, c, csAfter, rfl, hc, _⟩ := h.split
  exact ⟨c, List.mem_append_right _ List.mem_cons_self, hc⟩

/-- The columns of several specifiers are the columns of each. -/
theorem columns_on_eq_ok_iff (separator : String) (specifiers : List String) {n : Navigator}
    (hn : n.cache.IsSound) (cs : List Column) :
    ((columns separator specifiers).on n).1 = .ok cs ↔ AreColumns separator specifiers cs := by
  induction specifiers generalizing n cs with
  | nil =>
      rw [AreColumns, List.forall₂_nil_left_iff]
      show (Except.ok [] : Except PathError (List Column)) = .ok cs ↔ _
      rw [Except.ok.injEq, eq_comm]
  | cons specifier rest ih =>
      have hafter : ((column separator specifier).on n).2.cache.IsSound :=
        (isSteady_column separator specifier n n hn hn rfl).2.1
      rw [AreColumns, List.forall₂_cons_left_iff, columns, on_bind_eq_ok_iff, column_on _ _ hn]
      constructor
      · rintro ⟨c, hc, hrest⟩
        rw [on_bind_eq_ok_iff] at hrest
        obtain ⟨others, hothers, hcons⟩ := hrest
        exact ⟨c, others, hc, (ih hafter others).mp hothers, (Except.ok.inj hcons).symm⟩
      · rintro ⟨c, others, hc, hothers, rfl⟩
        refine ⟨c, hc, ?_⟩
        rw [on_bind_eq_ok_iff]
        exact ⟨others, (ih hafter others).mpr hothers, rfl⟩

/-! ### Cells -/

/-- What a column reads in a row. -/
def Plan.value (plan : Plan) (row : Tree) (c : Column) : Value :=
  if c.isPath then
    match denote (.text c.source) plan.separator false with
    | .ok p => if row.isEmpty then plan.default else p.get plan.default false row
    | .error _ => plan.default
  else (row.get? (.ofText c.source)).getD plan.default

theorem cell_on {plan : Plan} {c : Column} (hc : IsReadable plan.separator c) (row : Tree)
    {n : Navigator} (hn : n.cache.IsSound) :
    ((cell plan row c).on n).1 = .ok (plan.value row c) := by
  unfold cell Plan.value
  by_cases hpath : c.isPath = true
  · obtain ⟨p, hp⟩ := hc hpath
    rw [if_pos hpath, if_pos hpath, get_on hn, Option.getD_some, hp]
    cases row with
    | nil => rfl
    | cons k v rest => rfl
  · rw [if_neg hpath, if_neg hpath]
    rfl

/-! ### Rows -/

/-- What is known of a row once more columns of it have been read. -/
def Plan.readOn (plan : Plan) (row : Tree) : List Column → Row → Row
  | [], r => r
  | c :: rest, r =>
      let v := plan.value row c
      let isKey : Bool := plan.rowKey = .column c.label
      let r := if isKey then { r with key := some v } else r
      if isKey && plan.keyIsExtra then plan.readOn row rest r
      else if plan.isSingle && c.source == c.label then { r with bare := some v }
      else plan.readOn row rest { r with cells := r.cells.insert (.ofText c.label) v }

/-- What is read of a row. -/
def Plan.read (plan : Plan) (row : Tree) : Row :=
  plan.readOn row plan.columns ⟨.nil, none, none⟩

theorem readRow_on {plan : Plan} (row : Tree) {cs : List Column}
    (hcs : ∀ c ∈ cs, IsReadable plan.separator c) (r : Row) {n : Navigator}
    (hn : n.cache.IsSound) :
    ((readRow plan row cs r).on n).1 = .ok (plan.readOn row cs r) := by
  induction cs generalizing r n with
  | nil => rfl
  | cons c rest ih =>
      obtain ⟨hc, hrest⟩ := List.forall_mem_cons.mp hcs
      obtain ⟨after, hsound, _, hon⟩ :=
        (isSteady_cell plan row c).on_bind_of_ok hn (cell_on hc row hn) _
      rw [readRow, hon, Plan.readOn]
      dsimp only
      split
      · exact ih hrest _ hsound
      · split
        · rfl
        · exact ih hrest _ hsound

/-- Place a row behind others. -/
def Plan.place (plan : Plan) (result : Tree) (e : Key × Tree) : Tree :=
  placeRow plan result e.1 (plan.read e.2)

theorem readRows_on {plan : Plan} (hcs : ∀ c ∈ plan.columns, IsReadable plan.separator c)
    (result rows : Tree) {n : Navigator} (hn : n.cache.IsSound) :
    ((readRows plan result rows).on n).1 = .ok (rows.rows.foldl plan.place result) := by
  induction rows generalizing result n with
  | nil => rfl
  | cons had v rest ih =>
      cases v with
      | map row =>
          obtain ⟨after, hsound, _, hon⟩ := (isSteady_readRow plan row plan.columns _).on_bind_of_ok
            hn (readRow_on row hcs ⟨.nil, none, none⟩ hn) _
          rw [readRows, hon]
          exact ih _ hsound
      | _ => exact ih result hn

/-! ### Plans -/

/-- How columns are read: as their specifiers say and, if the key column is not among what they
read, with the key column in front. -/
inductive IsPlan (separator : String) (default : Value) (specifiers : List String) :
    RowKey → Plan → Prop
  | asked {rowKey : RowKey} {cs : List Column} (hcs : AreColumns separator specifiers cs)
      (hkey : ∀ name, rowKey = .column name → ∃ c ∈ cs, c.source = name) :
      IsPlan separator default specifiers rowKey
        ⟨separator, default, cs, specifiers.length == 1, rowKey, false⟩
  | extra {name : String} {c : Column} {cs : List Column}
      (hcs : AreColumns separator specifiers cs) (hnone : ∀ d ∈ cs, d.source ≠ name)
      (hc : columnOf separator name = .ok c) :
      IsPlan separator default specifiers (.column name)
        ⟨separator, default, c :: cs, specifiers.length == 1, .column name, true⟩

theorem plan_on_eq_ok_iff (separator : String) (default : Value) (specifiers : List String)
    (rowKey : RowKey) {n : Navigator} (hn : n.cache.IsSound) (p : Plan) :
    ((plan separator default specifiers rowKey).on n).1 = .ok p ↔
      IsPlan separator default specifiers rowKey p := by
  have hafter : ((columns separator specifiers).on n).2.cache.IsSound :=
    (isSteady_columns separator specifiers n n hn hn rfl).2.1
  unfold plan
  simp only [on_bind_eq_ok_iff, columns_on_eq_ok_iff _ _ hn]
  constructor
  · rintro ⟨cs, hcs, hp⟩
    cases rowKey with
    | numbered =>
        obtain rfl := Except.ok.inj hp
        exact .asked hcs (by simp)
    | preserved =>
        obtain rfl := Except.ok.inj hp
        exact .asked hcs (by simp)
    | column name =>
        dsimp only at hp
        split at hp
        · rename_i hany
          obtain rfl := Except.ok.inj hp
          refine .asked hcs ?_
          rintro name' ⟨⟩
          simpa using hany
        · rename_i hany
          rw [on_bind_eq_ok_iff] at hp
          obtain ⟨c, hc, hp⟩ := hp
          rw [column_on _ _ hafter] at hc
          obtain rfl := Except.ok.inj hp
          exact .extra hcs (by simpa using hany) hc
  · intro h
    cases h with
    | @asked _ cs hcs hkey =>
        refine ⟨cs, hcs, ?_⟩
        cases rowKey with
        | numbered => rfl
        | preserved => rfl
        | column name =>
            have hany : cs.any (·.source == name) = true := by simpa using hkey name rfl
            dsimp only
            rw [if_pos hany]
            rfl
    | @extra name c cs hcs hnone hc =>
        have hany : ¬cs.any (·.source == name) = true := by simpa using hnone
        refine ⟨cs, hcs, ?_⟩
        dsimp only
        rw [if_neg hany, on_bind_eq_ok_iff]
        refine ⟨c, ?_, rfl⟩
        rw [column_on _ _ hafter, hc]

theorem IsPlan.separator_eq {separator : String} {default : Value} {specifiers : List String}
    {rowKey : RowKey} {p : Plan} (h : IsPlan separator default specifiers rowKey p) :
    p.separator = separator := by
  cases h <;> rfl

theorem IsPlan.default_eq {separator : String} {default : Value} {specifiers : List String}
    {rowKey : RowKey} {p : Plan} (h : IsPlan separator default specifiers rowKey p) :
    p.default = default := by
  cases h <;> rfl

/-- Each column that is read has a specifier. -/
theorem IsPlan.exists_specifier {separator : String} {default : Value} {specifiers : List String}
    {rowKey : RowKey} {p : Plan} (h : IsPlan separator default specifiers rowKey p) {c : Column}
    (hc : c ∈ p.columns) : ∃ s, columnOf separator s = .ok c := by
  cases h with
  | asked hcs _ =>
      obtain ⟨s, _, hs⟩ := hcs.exists_specifier hc
      exact ⟨s, hs⟩
  | @extra name _ _ hcs _ hd =>
      rcases List.mem_cons.mp hc with rfl | hmem
      · exact ⟨name, hd⟩
      · obtain ⟨s, _, hs⟩ := hcs.exists_specifier hmem
        exact ⟨s, hs⟩

theorem IsPlan.isReadable {separator : String} {default : Value} {specifiers : List String}
    {rowKey : RowKey} {p : Plan} (h : IsPlan separator default specifiers rowKey p) :
    ∀ c ∈ p.columns, IsReadable p.separator c := by
  intro c hc
  obtain ⟨s, hcolumn⟩ := h.exists_specifier hc
  rw [h.separator_eq]
  exact isReadable_of_columnOf hcolumn

/-! ### Whole rows under a key column -/

/-- What a key column finds in a row that is placed as it is. -/
def wholeKey (separator name : String) (row : Tree) (default : Value) : Except PathError Value :=
  if row.isEmpty then .ok default
  else (denote (.text name) separator false).map (·.get default false row)

/-- Place a row as it is behind others. -/
def placeWhole (separator name : String) (result : Tree) (e : Key × Tree) :
    Except PathError Tree :=
  (wholeKey separator name e.2 (.int (Int64.ofNat result.size))).map fun v =>
    Listing.place result v.toKey? (.map e.2)

theorem placeRows_on (separator name : String) (result rows : Tree) {n : Navigator}
    (hn : n.cache.IsSound) :
    ((placeRows separator name result rows).on n).1 =
      rows.rows.foldlM (placeWhole separator name) result := by
  induction rows generalizing result n with
  | nil => rfl
  | cons had v rest ih =>
      cases v with
      | map row =>
          have hkey : ((Navigator.get row (.text name) (.int (Int64.ofNat result.size))
              (some separator)).on n).1 =
                wholeKey separator name row (.int (Int64.ofNat result.size)) :=
            get_on hn row (.text name) (some separator) _
          rw [placeRows, Tree.rows, List.foldlM_cons, placeWhole]
          cases hv : wholeKey separator name row (.int (Int64.ofNat result.size)) with
          | error e =>
              rw [hv] at hkey
              rw [on_bind]
              cases hon : (Navigator.get row (.text name) (.int (Int64.ofNat result.size))
                  (some separator)).on n with
              | mk r after =>
                  rw [hon] at hkey
                  obtain rfl : r = .error e := hkey
                  rfl
          | ok v =>
              obtain ⟨after, hsound, _, hon⟩ :=
                (isSteady_get row _ _ _).on_bind_of_ok hn (hkey.trans hv) _
              rw [hon]
              exact ih _ hsound
      | _ => exact ih result hn

/-! ### Lists -/

/-- What a list of columns answers: its plan, if the specifiers have one, places the rows one after
the other.  Of the empty table no specifier is read. -/
theorem list_on_eq_ok_iff {cs : Columns} {specifiers : List String}
    (hcs : cs.specifiers? = some specifiers) (rows : Tree) (rowKey : RowKey) (default : Value)
    (own : Option String) {n : Navigator} (hn : n.cache.IsSound) (result : Tree) :
    ((list rows cs rowKey default own).on n).1 = .ok result ↔
      if rows = .nil then result = .nil
      else ∃ p, IsPlan (own.getD n.separator) default specifiers rowKey p ∧
        result = rows.rows.foldl p.place .nil := by
  have hafter : ∀ separator, ((plan separator default specifiers rowKey).on n).2.cache.IsSound :=
    fun separator => (isSteady_plan separator default specifiers rowKey n n hn hn rfl).2.1
  cases rows with
  | nil =>
      show (Except.ok Tree.nil : Except PathError Tree) = .ok result ↔ _
      rw [if_pos rfl, Except.ok.injEq, eq_comm]
  | cons k v rest =>
      rw [if_neg (by simp)]
      have hlist : (list (.cons k v rest) cs rowKey default own).on n =
          (plan (own.getD n.separator) default specifiers rowKey >>= fun p =>
            readRows p .nil (.cons k v rest)).on n := by
        unfold list
        rw [on_bind]
        simp only [hcs]
        rfl
      rw [hlist, on_bind_eq_ok_iff]
      constructor
      · rintro ⟨p, hp, hrows⟩
        have hplan := (plan_on_eq_ok_iff _ _ _ _ hn p).mp hp
        rw [readRows_on hplan.isReadable _ _ (hafter _)] at hrows
        exact ⟨p, hplan, (Except.ok.inj hrows).symm⟩
      · rintro ⟨p, hplan, rfl⟩
        exact ⟨p, (plan_on_eq_ok_iff _ _ _ _ hn p).mpr hplan,
          readRows_on hplan.isReadable _ _ (hafter _)⟩

/-- Specifiers that have a plan for one table have the same for every other. -/
theorem list_of_isPlan {cs : Columns} {specifiers : List String}
    (hcs : cs.specifiers? = some specifiers) {rowKey : RowKey} {default : Value}
    {own : Option String} {n : Navigator} (hn : n.cache.IsSound) {p : Plan}
    (hp : IsPlan (own.getD n.separator) default specifiers rowKey p) (rows : Tree) :
    ((list rows cs rowKey default own).on n).1 = .ok (rows.rows.foldl p.place .nil) := by
  rw [list_on_eq_ok_iff hcs _ _ _ _ hn]
  split
  · rename_i hrows
    rw [hrows]
    rfl
  · exact ⟨p, hp, rfl⟩

/-- What all columns answer with a key column. -/
theorem list_all_on {cs : Columns} (hcs : cs.specifiers? = none) (rows : Tree) (name : String)
    (default : Value) (own : Option String) {n : Navigator} (hn : n.cache.IsSound) :
    ((list rows cs (.column name) default own).on n).1 =
      rows.rows.foldlM (placeWhole (own.getD n.separator) name) .nil := by
  cases rows with
  | nil => rfl
  | cons k v rest =>
      rw [← placeRows_on (own.getD n.separator) name .nil (.cons k v rest) hn]
      unfold list
      rw [on_bind]
      simp only [hcs]
      rfl

end Listing

end Quill
