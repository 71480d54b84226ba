import Quill.Proofs.Tree.Merging

/-!
# Merging with removal

A merge with removal takes the markers of the incoming tree for requests to remove keys.  It also
goes without the short cut for an empty target: the incoming entries are brought in one after the
other, and a value under an index is appended where a merge without removal leaves it under its own
index.  So the two merges can differ even if there is no marker, and they do so exactly when such a
value does not stand under the next free index already.

Markers are looked for only where the merge goes, and it does not go into the maps that it takes
over as a whole.  Markers inside of those stay.
-/

namespace Quill

/-- A merge goes along the keys from map to map.  It does not go into a map under an index if all
values under indices are appended. -/
def IndexMerge.GoesAlong (mode : IndexMerge) (q : List Key) : Prop :=
  mode = .append → ∀ k ∈ q, k.isIndex = false

namespace Tree

/-- Every entry that is appended stands under the next free index behind `seen` and the entries
before it. -/
def NumberedAfter (mode : IndexMerge) : Tree → Tree → Prop
  | _, .nil => True
  | seen, .cons k v rest =>
      (appends ⟨mode, true⟩ k v = true → seen.nextIndex? = k.index?) ∧
        NumberedAfter mode (seen.insert k v) rest

/-- Every entry that is appended stands under the next free index behind the entries before it. -/
def IsNumbered (mode : IndexMerge) (t : Tree) : Prop :=
  NumberedAfter mode .nil t

/-- Wherever the merge meets an empty map of the target with a map, the two trees themselves
included, that map is numbered. -/
def NumberedWhereEmpty (mode : IndexMerge) (a b : Tree) : Prop :=
  ∀ q y, mode.GoesAlong q → a.at? q = some (.map .nil) → b.at? q = some (.map y) →
    y.IsNumbered mode

variable {mode : IndexMerge} {a b seen : Tree} {k : Key} {q : List Key} {v w : Value}

theorem goesAlong_nil (mode : IndexMerge) : mode.GoesAlong [] := by
  simp [IndexMerge.GoesAlong]

theorem goesAlong_cons_iff (mode : IndexMerge) (k : Key) (q : List Key) (remove : Bool)
    (y : Tree) : mode.GoesAlong (k :: q) ↔
      appends ⟨mode, remove⟩ k (.map y) = false ∧ mode.GoesAlong q := by
  cases mode <;> simp [IndexMerge.GoesAlong, appends, Value.isMap]

/-- An entry that holds no marker and is not appended is put under its own key. -/
theorem keeps_of_ne_unset {remove : Bool} (hv : v ≠ .unset)
    (h : appends ⟨mode, remove⟩ k v = false) : Keeps ⟨mode, remove⟩ k v :=
  ⟨fun hremoves => hv hremoves.2, h⟩

/-! ### An empty target -/

theorem push_eq_insert {t : Tree} (hk : k.isIndex = true) (h : t.nextIndex? = k.index?)
    (v : Value) : t.push v = t.insert k v := by
  cases k with
  | index i => rw [push, h]; rfl
  | name s => cases hk

theorem isIndex_of_appends {o : MergeOptions} (h : appends o k v = true) : k.isIndex = true := by
  unfold appends at h
  rw [Bool.and_eq_true] at h
  exact h.1

/-- Brought in one after the other, new entries end up in the order and under the keys they have
exactly if those that are appended stand under the next free index. -/
theorem absorb_eq_insertAll_iff (hkeys : (seen.keys ++ b.keys).Nodup)
    (hunset : ∀ e ∈ b.toList, e.2 ≠ .unset) :
    absorb ⟨mode, true⟩ seen b = seen.insertAll b.toList ↔ NumberedAfter mode seen b := by
  induction b generalizing seen with
  | nil => simp [absorb, toList, insertAll, NumberedAfter]
  | cons k v rest ih =>
      obtain ⟨hv, hothers⟩ : v ≠ .unset ∧ ∀ e ∈ rest.toList, e.2 ≠ .unset :=
        List.forall_mem_cons.mp hunset
      have hnew : k ∉ seen.keys := by
        intro hmem
        exact (List.nodup_append.mp hkeys).2.2 k hmem k List.mem_cons_self rfl
      have hnext : ((seen.insert k v).keys ++ rest.keys).Nodup := by
        rw [keys_insert_of_not_mem seen v hnew, List.append_assoc]
        exact hkeys
      have hrest := ih hnext hothers
      have hsplit : seen.insertAll (Tree.cons k v rest).toList =
          (seen.insert k v).insertAll rest.toList := rfl
      rw [absorb_cons, hsplit, NumberedAfter]
      cases happends : appends ⟨mode, true⟩ k v with
      | false =>
          have hnone : seen.get? k = none := (get?_eq_none_iff seen k).mpr hnew
          rw [absorbEntry_of_keeps seen (keeps_of_ne_unset hv happends), hnone,
            mergedWith_of_no_map _ (by simp), hrest]
          simp
      | true =>
          have hstays : ¬Removes ⟨mode, true⟩ v := fun h => hv h.2
          rw [absorbEntry_of_appends seen hstays happends]
          by_cases hnum : seen.nextIndex? = k.index?
          · rw [push_eq_insert (isIndex_of_appends happends) hnum, hrest]
            simp [hnum]
          · refine iff_of_false (fun heq => hnum ?_) (fun h => hnum (h.1 rfl))
            -- The keys tell where the value went: it is missing, or it is under another index.
            obtain ⟨new, hkeys', hlength⟩ := exists_keys_absorb (o := ⟨mode, true⟩)
              (fun e he h => hothers e he h.2) (seen.push v)
            have htotal : (seen.push v).keys ++ new = seen.keys ++ k :: rest.keys := by
              rw [← hkeys', heq, keys_eq_map_toList, toList_insertAll, toList_insert_of_not_mem]
              · simp [keys_eq_map_toList]
              · exact hnew
              · rw [← keys_eq_map_toList]
                exact hnext
            obtain ⟨_, hsame⟩ | ⟨i, hi, hfree, hpush⟩ := seen.push_cases v
            · have hcount := congrArg List.length htotal
              rw [hsame, List.length_append, List.length_append, List.length_cons] at hcount
              omega
            · rw [hpush, keys_insert_of_not_mem seen v ((get?_eq_none_iff _ _).mp hfree),
                List.append_assoc, List.append_cancel_left_eq] at htotal
              rw [hi, ← (List.cons.inj htotal).1]
              rfl

/-- Where index keys are merged like names nothing is appended. -/
theorem isNumbered_strict (t : Tree) : t.IsNumbered .strict := by
  suffices h : ∀ seen, NumberedAfter .strict seen t from h .nil
  induction t with
  | nil => exact fun _ => trivial
  | cons k v rest ih => exact fun seen => ⟨by simp [appends], ih _⟩

/-! ### The same entries with and without removal -/

theorem absorbEntry_removing_eq (hv : v ≠ .unset)
    (h : appends ⟨mode, true⟩ k v = false →
      mergedWith ⟨mode, true⟩ (a.get? k) v = mergedWith ⟨mode, false⟩ (a.get? k) v) :
    absorbEntry ⟨mode, true⟩ a k v = absorbEntry ⟨mode, false⟩ a k v := by
  have hstays : ∀ remove, ¬Removes ⟨mode, remove⟩ v := fun _ hremoves => hv hremoves.2
  cases happends : appends ⟨mode, true⟩ k v with
  | true =>
      rw [absorbEntry_of_appends a (hstays true) happends,
        absorbEntry_of_appends a (hstays false) happends]
  | false =>
      rw [absorbEntry_of_keeps a ⟨hstays true, happends⟩,
        absorbEntry_of_keeps a ⟨hstays false, happends⟩, h happends]

/-- Where no marker is met the flag matters only to the maps that are merged. -/
theorem absorb_removing_iff (hb : b.keys.Nodup) (hunset : ∀ e ∈ b.toList, e.2 ≠ .unset) :
    absorb ⟨mode, true⟩ a b = absorb ⟨mode, false⟩ a b ↔
      ∀ k w, b.get? k = some w → appends ⟨mode, true⟩ k w = false →
        mergedWith ⟨mode, true⟩ (a.get? k) w = mergedWith ⟨mode, false⟩ (a.get? k) w := by
  constructor
  · intro h k w hw happends
    have hne : w ≠ .unset := hunset _ (mem_toList_of_get? hw)
    have hwith := get?_absorb_of_keeps (a := a) hb hw (keeps_of_ne_unset hne happends)
    have hwithout := get?_absorb_of_keeps (o := ⟨mode, false⟩) (a := a) hb hw
      (keeps_of_ne_unset hne happends)
    rw [h, hwithout, Option.some.injEq] at hwith
    exact hwith.symm
  · intro h
    induction b generalizing a with
    | nil => rfl
    | cons k v rest ih =>
        obtain ⟨hnot, hrest⟩ := List.nodup_cons.mp hb
        obtain ⟨hv, hothers⟩ : v ≠ .unset ∧ ∀ e ∈ rest.toList, e.2 ≠ .unset :=
          List.forall_mem_cons.mp hunset
        have hentry : absorbEntry ⟨mode, true⟩ a k v = absorbEntry ⟨mode, false⟩ a k v :=
          absorbEntry_removing_eq hv (h k v (if_pos rfl))
        rw [absorb_cons, absorb_cons, hentry]
        refine ih hrest hothers fun k' w hw happends => ?_
        have hne : k ≠ k' := fun heq => hnot (heq ▸ mem_keys_of_get? hw)
        have hw' : w ≠ .unset := hothers _ (mem_toList_of_get? hw)
        have hthere : (Tree.cons k v rest).get? k' = some w := by rw [get?, if_neg hne, hw]
        calc mergedWith ⟨mode, true⟩ ((absorbEntry ⟨mode, false⟩ a k v).get? k') w
            = mergedWith ⟨mode, true⟩ ((absorbEntry ⟨mode, true⟩ a k v).get? k') w := by
              rw [hentry]
          _ = mergedWith ⟨mode, true⟩ (a.get? k') w :=
              mergedWith_absorbEntry a v hne (keeps_of_ne_unset hw' happends)
          _ = mergedWith ⟨mode, false⟩ (a.get? k') w := h k' w hthere happends
          _ = mergedWith ⟨mode, false⟩ ((absorbEntry ⟨mode, false⟩ a k v).get? k') w :=
              (mergedWith_absorbEntry (o := ⟨mode, false⟩) a v hne
                (keeps_of_ne_unset hw' happends)).symm

/-- No entry at the top of a tree without markers is one. -/
theorem EveryValue.ne_unset (h : b.EveryValue (· ≠ .unset)) (hb : b.keys.Nodup) :
    ∀ e ∈ b.toList, e.2 ≠ .unset :=
  fun _ he => (h.of_get? (get?_of_mem_toList hb he)).here

/-- Two values are merged alike if they are not both maps. -/
theorem mergedWith_removing_iff {found : Option Value} :
    mergedWith ⟨mode, true⟩ found w = mergedWith ⟨mode, false⟩ found w ↔
      ∀ x y, found = some (.map x) → w = .map y →
        merge ⟨mode, true⟩ x y = merge ⟨mode, false⟩ x y := by
  obtain ⟨x, rfl⟩ | hno := Value.exists_map_or_no_map found
  · rcases w.exists_map_or_isMap_eq_false with ⟨y, rfl⟩ | hmap
    · simp
    · rw [mergedWith_of_isMap_eq_false _ _ hmap, mergedWith_of_isMap_eq_false _ _ hmap]
      refine iff_of_true rfl fun _ y _ hy => ?_
      rw [hy] at hmap
      cases hmap
  · rw [mergedWith_of_no_map _ hno, mergedWith_of_no_map _ hno]
    exact iff_of_true rfl fun x _ hx => absurd hx (hno x)

/-! ### Empty maps of the target -/

/-- Nothing is below an empty target, so the incoming tree itself is the only map that counts. -/
theorem numberedWhereEmpty_nil_iff : NumberedWhereEmpty mode .nil b ↔ b.IsNumbered mode := by
  constructor
  · intro h
    exact h [] b (goesAlong_nil mode) rfl rfl
  · intro hnumbered q y _ hempty hy
    cases q with
    | nil =>
        rw [at?_nil, Option.some.injEq, Value.map.injEq] at hy
        exact hy ▸ hnumbered
    | cons k q => cases hempty

/-- In a target with entries all that counts is below the keys under which both trees have maps. -/
theorem numberedWhereEmpty_iff (ha : a ≠ .nil) : NumberedWhereEmpty mode a b ↔
    ∀ k x y, a.get? k = some (.map x) → b.get? k = some (.map y) →
      appends ⟨mode, true⟩ k (.map y) = false → NumberedWhereEmpty mode x y := by
  constructor
  · intro h k x y hx hy hkept q z hq hempty hz
    have hlong := (goesAlong_cons_iff mode k q true y).mpr ⟨hkept, hq⟩
    exact h (k :: q) z hlong ((at?_of_get? hx q).trans hempty) ((at?_of_get? hy q).trans hz)
  · intro h q z hq hempty hz
    cases q with
    | nil =>
        rw [at?_nil, Option.some.injEq, Value.map.injEq] at hempty
        exact absurd hempty ha
    | cons k q =>
        obtain ⟨x, hx, hbelow⟩ := exists_map_of_at?_map hempty
        obtain ⟨y, hy, hbelow'⟩ := exists_map_of_at?_map hz
        obtain ⟨hkept, hrest⟩ := (goesAlong_cons_iff mode k q true y).mp hq
        exact h k x y hx hy hkept q z hrest hbelow hbelow'

/-- Without removal the short cut for an empty target keeps the incoming entries under their keys,
with removal they are brought in one by one. -/
theorem merge_nil_removing_iff (hb : b.keys.Nodup) (hunset : ∀ e ∈ b.toList, e.2 ≠ .unset) :
    merge ⟨mode, true⟩ .nil b = merge ⟨mode, false⟩ .nil b ↔ b.IsNumbered mode := by
  have hall : absorb ⟨mode, true⟩ .nil b = Tree.nil.insertAll b.toList ↔ b.IsNumbered mode :=
    absorb_eq_insertAll_iff (by simpa [keys] using hb) hunset
  have hsame : Tree.nil.insertAll b.toList = b := ofList_toList hb
  rw [hsame] at hall
  rw [merge_of_allowRemoval rfl, merge_nil_left rfl, hall]

theorem merge_removing_eq_iff (hb : b.Distinct) (hunset : b.EveryValue (· ≠ .unset)) (a : Tree) :
    merge ⟨mode, true⟩ a b = merge ⟨mode, false⟩ a b ↔ NumberedWhereEmpty mode a b := by
  induction b using childInduction generalizing a with
  | step b ih =>
      have hentries := hunset.ne_unset hb.nodup_keys
      by_cases ha : a = .nil
      · rw [ha, merge_nil_removing_iff hb.nodup_keys hentries, numberedWhereEmpty_nil_iff]
      · have hbelow : ∀ k x y, b.get? k = some (.map y) →
            (merge ⟨mode, true⟩ x y = merge ⟨mode, false⟩ x y ↔ NumberedWhereEmpty mode x y) :=
          fun k x y hy => ih k y hy (hb.of_get? hy) (hunset.of_get? hy).2 x
        rw [merge_of_ne_nil _ ha, merge_of_ne_nil _ ha, absorb_removing_iff hb.nodup_keys hentries,
          numberedWhereEmpty_iff ha]
        constructor
        · intro h k x y hx hy hkept
          exact (hbelow k x y hy).mp (mergedWith_removing_iff.mp (h k _ hy hkept) x y hx rfl)
        · intro h k w hw hkept
          refine mergedWith_removing_iff.mpr fun x y hx hy => ?_
          subst hy
          exact (hbelow k x y hw).mpr (h k x y hx hw hkept)

/-- If the incoming tree has no marker, removal makes a difference only where the merge meets an
empty map of the target with a map, the two trees themselves included.  It makes none exactly if
every entry of such a map that is appended stands under the next free index behind the entries
before it.  Where index keys are merged like names nothing is appended, and it never makes a
difference. -/
theorem merge_removing_iff (hb : b.Distinct) (hunset : b.EveryValue (· ≠ .unset)) (a : Tree) :
    (merge ⟨mode, true⟩ a b = merge ⟨mode, false⟩ a b ↔ NumberedWhereEmpty mode a b) ∧
      merge ⟨.strict, true⟩ a b = merge ⟨.strict, false⟩ a b :=
  ⟨merge_removing_eq_iff hb hunset a,
    (merge_removing_eq_iff hb hunset a).mpr fun _ y _ _ _ => isNumbered_strict y⟩

/-- The empty map under the name takes over a sequence that is numbered. -/
theorem merge_removing_iff_numberedRows :
    let a := Tree.cons (.name "rows") (.map .nil) .nil
    let y := Tree.sequence [.int 10, .map .nil, .int 20]
    let b := Tree.cons (.name "rows") (.map y) .nil
    b.Distinct ∧ b.EveryValue (· ≠ .unset) ∧
      merge ⟨.appendLeaves, true⟩ a b = merge ⟨.appendLeaves, false⟩ a b ∧
      y.IsNumbered .appendLeaves := by
  intro a y b
  have hb : b.Distinct := by simp [b, y, sequence, sequenceFrom, Distinct, Value.Distinct, keys]
  have hunset : b.EveryValue (· ≠ .unset) := by
    simp [b, y, sequence, sequenceFrom, EveryValue, Value.Everywhere]
  have hsame : merge ⟨.appendLeaves, true⟩ a b = merge ⟨.appendLeaves, false⟩ a b := by decide
  refine ⟨hb, hunset, hsame, (merge_removing_iff hb hunset a).1.mp hsame [.name "rows"] y ?_ ?_ ?_⟩
  · simp [IndexMerge.GoesAlong]
  · rfl
  · rfl

/-- The value under the index 2 becomes the first one of the empty target, though there is nothing
to remove. -/
theorem merge_removing_renumbers :
    let b := Tree.cons (.index 2) .null .nil
    b.Distinct ∧ b.EveryValue (· ≠ .unset) ∧
      merge ⟨.appendLeaves, true⟩ .nil b = .cons (.index 0) .null .nil ∧
      merge ⟨.appendLeaves, false⟩ .nil b = b ∧
      merge ⟨.appendLeaves, true⟩ .nil b ≠ merge ⟨.appendLeaves, false⟩ .nil b := by
  refine ⟨?_, ?_, by decide, by decide, by decide⟩
  · simp [Distinct, Value.Distinct, keys]
  · simp [EveryValue, Value.Everywhere]

/-! ### Markers -/

theorem ne_unset_of_stays (h : ¬Removes ⟨mode, true⟩ v) : v ≠ .unset :=
  fun hunset => h ⟨rfl, hunset⟩

theorem mergedWith_ne_unset {o : MergeOptions} {found : Option Value} (hv : v ≠ .unset) :
    mergedWith o found v ≠ .unset := by
  unfold mergedWith
  split
  · simp
  · exact hv

/-- An entry leaves no marker at the top of the target. -/
theorem absorbEntry_ne_unset (ha : a.keys.Nodup) (h : ∀ k, a.get? k ≠ some .unset) (k : Key)
    (v : Value) (other : Key) : (absorbEntry ⟨mode, true⟩ a k v).get? other ≠ some .unset := by
  obtain ⟨_, heq⟩ | ⟨hstays, _, heq⟩ | ⟨hkeeps, heq⟩ := absorbEntry_cases ⟨mode, true⟩ a k v
  · rw [heq]
    by_cases hk : k = other
    · subst hk
      rw [get?_erase_self ha]
      simp
    · rw [get?_erase_of_ne a hk]
      exact h other
  · rw [heq]
    obtain hsame | ⟨_, _, hpushed⟩ := get?_push a v other
    · rw [hsame]
      exact h other
    · rw [hpushed, ne_eq, Option.some.injEq]
      exact ne_unset_of_stays hstays
  · rw [heq]
    by_cases hk : k = other
    · subst hk
      rw [get?_insert_self, ne_eq, Option.some.injEq]
      exact mergedWith_ne_unset (ne_unset_of_stays hkeeps.1)
    · rw [get?_insert_of_ne a _ hk]
      exact h other

/-- A merge with removal leaves no marker at the top. -/
theorem absorb_ne_unset (ha : a.Distinct) (hb : b.Distinct) (h : ∀ k, a.get? k ≠ some .unset)
    (k : Key) : (absorb ⟨mode, true⟩ a b).get? k ≠ some .unset := by
  induction b generalizing a with
  | nil => exact h k
  | cons k' v rest ih =>
      obtain ⟨_, hv, hrest⟩ := hb
      rw [absorb_cons]
      refine ih ?_ hrest (absorbEntry_ne_unset ha.nodup_keys h k' v)
      refine ha.absorbEntry hv (fun x y hx hy => ?_) k'
      subst hy
      exact hx.merge hv

/-- A tree has no marker at any depth if no list of keys leads to one. -/
theorem everyValue_ne_unset {t : Tree} (ht : t.Distinct)
    (h : ∀ p k, t.at? (p ++ [k]) ≠ some .unset) : t.EveryValue (· ≠ .unset) := by
  refine everyValue_of_at? ht fun k ks v hv hunset => ?_
  obtain ⟨p, last, hp⟩ := List.eq_nil_or_concat (k :: ks) |>.resolve_left (by simp)
  rw [hp, hunset] at hv
  exact h p last (by simpa using hv)

/-- The merge goes into the map at the end of the keys: the target has a map there too, and the
merge goes along the keys. -/
def MeetsMap (mode : IndexMerge) (a : Tree) (p : List Key) : Prop :=
  mode.GoesAlong p ∧ ∃ x, a.at? p = some (.map x)

theorem meetsMap_cons_iff {x : Tree} (hx : a.get? k = some (.map x)) (y : Tree) (p : List Key) :
    MeetsMap mode a (k :: p) ↔ appends ⟨mode, true⟩ k (.map y) = false ∧ MeetsMap mode x p := by
  have hat : a.at? (k :: p) = x.at? p := at?_of_get? hx p
  rw [MeetsMap, MeetsMap, goesAlong_cons_iff mode k p true y, hat, and_assoc]

/-- No marker is left if the merge goes into every map that holds one. -/
theorem everyValue_merge_removing (hb : b.Distinct) (hclean : a.EveryValue (· ≠ .unset))
    (h : ∀ p k, b.at? (p ++ [k]) = some .unset → MeetsMap mode a p) :
    (merge ⟨mode, true⟩ a b).EveryValue (· ≠ .unset) := by
  induction b using childInduction generalizing a with
  | step b ih =>
      rw [merge_of_allowRemoval rfl]
      have hbelow : ∀ {k y} p j, b.get? k = some (.map y) → y.at? (p ++ [j]) = some .unset →
          MeetsMap mode a (k :: p) := by
        intro k y p j hy hj
        exact h (k :: p) j ((at?_of_get? hy _).trans hj)
      refine EveryValue.absorb hb.nodup_keys hclean ?_ ?_
      · intro k v hv hstays happends
        have hne : v ≠ .unset := ne_unset_of_stays hstays
        rcases v.exists_map_or_isMap_eq_false with ⟨y, rfl⟩ | hmap
        · refine ⟨hne, everyValue_ne_unset (hb.of_get? hv) fun p j hj => ?_⟩
          have hkept := (goesAlong_cons_iff mode k p true y).mp (hbelow p j hv hj).1
          rw [hkept.1] at happends
          cases happends
        · exact .of_leaf hmap hne
      · intro k v hv hkeeps
        have hne : v ≠ .unset := ne_unset_of_stays hkeeps.1
        rcases v.exists_map_or_isMap_eq_false with ⟨y, rfl⟩ | hmap
        · obtain ⟨x, hx⟩ | hno := Value.exists_map_or_no_map (a.get? k)
          · rw [hx, mergedWith_maps]
            refine ⟨by simp, ih k y hv (hb.of_get? hv) (hclean.of_get? hx).2 fun p j hj => ?_⟩
            exact ((meetsMap_cons_iff hx y p).mp (hbelow p j hv hj)).2
          · -- The map is taken over as a whole, so there is no marker in it.
            rw [mergedWith_of_no_map _ hno]
            refine ⟨hne, everyValue_ne_unset (hb.of_get? hv) fun p j hj => ?_⟩
            obtain ⟨_, z, hz⟩ := hbelow p j hv hj
            cases (eq_nil_of_at?_cons hno hz).2
        · rw [mergedWith_of_isMap_eq_false _ _ hmap]
          exact .of_leaf hmap hne

/-- Along keys that the merge goes, a marker is left exactly if the target has no map where the
marker stands in one. -/
theorem at?_merge_removing_iff (ha : a.Distinct) (hb : b.Distinct)
    (hclean : a.EveryValue (· ≠ .unset)) {p : List Key} (hp : mode.GoesAlong p)
    (hmarker : b.at? (p ++ [k]) = some .unset) :
    (merge ⟨mode, true⟩ a b).at? (p ++ [k]) = some .unset ↔ ∀ x, a.at? p ≠ some (.map x) := by
  induction p generalizing a b with
  | nil =>
      have htop : ∀ j, a.get? j ≠ some .unset := fun j hj => (hclean.of_get? hj).here rfl
      refine iff_of_false ?_ (fun hno => hno a (at?_nil a))
      rw [List.nil_append, at?_singleton, merge_of_allowRemoval rfl]
      exact absorb_ne_unset ha hb htop k
  | cons k' p ih =>
      rw [List.cons_append] at hmarker ⊢
      obtain ⟨w, hw, hbelow⟩ := exists_get?_of_at? hmarker
      obtain ⟨y, rfl⟩ : ∃ y, w = .map y := by
        obtain ⟨j, ks, hks⟩ : ∃ j ks, p ++ [k] = j :: ks := List.exists_cons_of_ne_nil (by simp)
        rw [hks] at hbelow
        exact Value.exists_map_of_at?_cons hbelow
      obtain ⟨hkept, hrest⟩ := (goesAlong_cons_iff mode k' p true y).mp hp
      have hput := get?_absorb_of_keeps (a := a) hb.nodup_keys hw
        (keeps_of_ne_unset (by simp) hkept)
      rw [merge_of_allowRemoval rfl]
      obtain ⟨x, hx⟩ | hno := Value.exists_map_or_no_map (a.get? k')
      · rw [hx, mergedWith_maps] at hput
        rw [at?_of_get? hput, at?_of_get? hx]
        exact ih (ha.of_get? hx) (hb.of_get? hw) (hclean.of_get? hx).2 hrest hbelow
      · -- The map is taken over as a whole, with the marker.
        rw [mergedWith_of_no_map _ hno] at hput
        rw [at?_of_get? hput]
        refine iff_of_true hbelow fun x hx' => ?_
        cases (eq_nil_of_at?_cons hno hx').2

/-- Into a target without markers, a merge with removal leaves no marker if it goes into every map
that holds one.  A marker in a map that is put under its own key as a whole stays. -/
theorem merge_removing_markers (ha : a.Distinct) (hb : b.Distinct)
    (hclean : a.EveryValue (· ≠ .unset)) :
    ((∀ p k, b.at? (p ++ [k]) = some .unset → MeetsMap mode a p) →
      (merge ⟨mode, true⟩ a b).EveryValue (· ≠ .unset)) ∧
    ∀ p k, mode.GoesAlong p → b.at? (p ++ [k]) = some .unset →
      ((merge ⟨mode, true⟩ a b).at? (p ++ [k]) = some .unset ↔
        ∀ x, a.at? p ≠ some (.map x)) :=
  ⟨everyValue_merge_removing hb hclean, fun _ _ => at?_merge_removing_iff ha hb hclean⟩

/-- A marker at the top and one in a map that both trees have remove their keys, one in a new map
stays. -/
theorem merge_removing_markers_newSection :
    let x := Tree.cons (.name "y") .unset .nil
    let a := Tree.cons (.name "x") (.map (.cons (.name "y") (.int 1) .nil)) .nil
    let b := Tree.cons (.name "x") .unset .nil
    let c := Tree.cons (.name "x") (.map x) (.cons (.name "z") (.map x) .nil)
    a.Distinct ∧ b.Distinct ∧ c.Distinct ∧ a.EveryValue (· ≠ .unset) ∧
      (∀ p k, b.at? (p ++ [k]) = some .unset → MeetsMap .appendLeaves a p) ∧
      (merge ⟨.appendLeaves, true⟩ a b).EveryValue (· ≠ .unset) ∧
      (merge ⟨.appendLeaves, true⟩ a c).at? [.name "x", .name "y"] ≠ some .unset ∧
      (merge ⟨.appendLeaves, true⟩ a c).at? [.name "z", .name "y"] = some .unset := by
  intro x a b c
  have ha : a.Distinct := by simp [a, Distinct, Value.Distinct, keys]
  have hb : b.Distinct := by simp [b, Distinct, Value.Distinct, keys]
  have hc : c.Distinct := by simp [c, x, Distinct, Value.Distinct, keys]
  have hclean : a.EveryValue (· ≠ .unset) := by simp [a, EveryValue, Value.Everywhere]
  have hgoes : ∀ p, IndexMerge.appendLeaves.GoesAlong p := by simp [IndexMerge.GoesAlong]
  have hmeets : ∀ p k, b.at? (p ++ [k]) = some .unset → MeetsMap .appendLeaves a p := by
    intro p k hmarker
    cases p with
    | nil => exact ⟨hgoes [], a, rfl⟩
    | cons j p =>
        have hno : ∀ y, b.get? j ≠ some (.map y) := by simp [b, get?]
        simpa using (eq_nil_of_at?_cons hno hmarker).1
  obtain ⟨hnone, -⟩ := merge_removing_markers ha hb hclean
  obtain ⟨-, hleft⟩ := @merge_removing_markers .appendLeaves a c ha hc hclean
  refine ⟨ha, hb, hc, hclean, hmeets, hnone hmeets, ?_, ?_⟩
  · have hx := hleft [.name "x"] (.name "y") (hgoes _) rfl
    exact fun hmarker => hx.mp hmarker _ rfl
  · refine (hleft [.name "z"] (.name "y") (hgoes _) rfl).mpr fun _ hmap => ?_
    cases hmap

/-- The empty target takes over the map with the marker in it. -/
theorem merge_removing_leaves_marker :
    let b := Tree.cons (.name "x") (.map (.cons (.name "y") .unset .nil)) .nil
    Tree.nil.Distinct ∧ b.Distinct ∧ Tree.nil.EveryValue (· ≠ .unset) ∧
      merge ⟨.appendLeaves, true⟩ .nil b = b ∧
      ¬(merge ⟨.appendLeaves, true⟩ .nil b).EveryValue (· ≠ .unset) := by
  intro b
  have hsame : merge ⟨.appendLeaves, true⟩ .nil b = b := by decide
  refine ⟨trivial, ?_, trivial, hsame, ?_⟩
  · simp [b, Distinct, Value.Distinct, keys]
  · rw [hsame]
    simp [b, EveryValue, Value.Everywhere]

end Tree

end Quill
