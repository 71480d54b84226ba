import Mathlib.Data.List.Infix
import Quill.Proofs.Tree.Appending
import Quill.Proofs.Tree.KeyText
import Quill.Proofs.Walk.Storing
import Quill.Walk.Get

/-!
# What a group of sub-paths gathers

A group of sub-paths is read one sub-path after the other.  Each gives its value with maps around it
that are shaped like the tree, and these are merged into what the sub-paths before it gave.  The
merge puts the value in its own place, with one exception: a value that is no map and stands under
an index is appended when its map has entries already, and so it can land beside its place, or
nowhere.

The places where the values land tell the result: it holds there what the tree holds at the ends of
the sub-paths, and nothing else.
-/

namespace Quill

/-! ### Where a value lands -/

/-- The place where a merge puts a value whose own place is the end of `p`, if there is one. -/
def Tree.landing? (found : Tree) (v : Value) (p : List Key) : Option (List Key) :=
  match found.at? p.dropLast, p.getLast? with
  | some (.map m), some (.index _) =>
      if m.isEmpty || v.isMap then some p
      else m.nextIndex?.map fun i => p.dropLast ++ [.index i]
  | _, _ => some p

namespace Tree

/-! ### Merging one value with its maps -/

theorem at?_eq_none_of_prefix {t : Tree} {ks ls : List Key} (hbegin : ks <+: ls)
    (h : t.at? ks = none) : t.at? ls = none := by
  obtain ⟨tail, rfl⟩ := hbegin
  rw [at?_append, h, Option.bind_none]

theorem at?_concat {t m : Tree} {parent : List Key} (h : t.at? parent = some (.map m)) (k : Key) :
    t.at? (parent ++ [k]) = m.get? k := by
  rw [at?_append, h, Option.bind_some, Value.at?_map_cons]
  cases m.get? k with
  | none => rfl
  | some v => exact Value.at?_nil v

/-- A value lands in its place, or it is no map and lands on a free index beside its place. -/
theorem landing?_cases {found : Tree} {v : Value} {p r : List Key}
    (h : found.landing? v p = some r) :
    r = p ∨ v.isMap = false ∧ found.at? r = none ∧
      ∃ parent k i, p = parent ++ [k] ∧ r = parent ++ [.index i] := by
  unfold landing? at h
  split at h
  · rename_i m j hm hlast
    split at h
    · exact .inl (Option.some.inj h).symm
    · rename_i hneither
      obtain ⟨i, hi, rfl⟩ := Option.map_eq_some_iff.mp h
      rw [Bool.or_eq_true, not_or] at hneither
      refine .inr ⟨Bool.eq_false_iff.mpr hneither.2, ?_, p.dropLast, .index j, i, ?_, rfl⟩
      · rw [at?_concat hm, get?_nextIndex? hi]
      · exact (List.dropLast_append_getLast? _ hlast).symm
  · exact .inl (Option.some.inj h).symm

/-- What begins a place beside an own place is this place, or it begins the own place. -/
theorem eq_or_prefix_of_beside {p r q : List Key}
    (h : ∃ parent k i, p = parent ++ [k] ∧ r = parent ++ [.index i]) (hq : q <+: r) :
    q = r ∨ q <+: p := by
  obtain ⟨parent, k, i, rfl, rfl⟩ := h
  exact (List.prefix_concat_iff.mp hq).imp_right fun hparent =>
    hparent.trans (List.prefix_append _ _)

theorem landing?_ne_nil {found : Tree} {v : Value} {p r : List Key} (hp : p ≠ [])
    (h : found.landing? v p = some r) : r ≠ [] := by
  obtain rfl | ⟨_, _, parent, k, i, _, rfl⟩ := landing?_cases h
  · exact hp
  · simp

theorem childAt_of_no_map {t : Tree} {k : Key} (h : ∀ child, t.get? k ≠ some (.map child)) :
    t.childAt k = .nil := by
  unfold childAt
  split
  · rename_i child hchild
    exact absurd hchild (h child)
  · rfl

theorem landing?_nil (v : Value) (p : List Key) : Tree.nil.landing? v p = some p := by
  unfold landing?
  split
  · rename_i m _ hm _
    -- The empty tree holds no map but itself.
    have hempty : m.isEmpty = true := by
      cases hp : p.dropLast with
      | nil =>
          rw [hp, at?_nil, Option.some.injEq, Value.map.injEq] at hm
          rw [← hm]
          rfl
      | cons k ks =>
          rw [hp] at hm
          cases hm
    rw [hempty, Bool.true_or, if_pos rfl]
  · rfl

/-- What lands below a key that holds a map lands in the map. -/
theorem landing?_under {found child : Tree} {k : Key} (h : found.get? k = some (.map child))
    (v : Value) {ks : List Key} (hks : ks ≠ []) :
    found.landing? v (k :: ks) = (child.landing? v ks).map (k :: ·) := by
  have hlast : (k :: ks).getLast? = ks.getLast? := by
    rw [List.getLast?_cons, List.getLast?_eq_some_getLast hks]
    rfl
  have hat : found.at? (k :: ks.dropLast) = child.at? ks.dropLast := at?_of_get? h _
  unfold landing?
  rw [List.dropLast_cons_of_ne_nil hks, hlast, hat]
  split
  · split
    · rfl
    · rw [Option.map_map]
      rfl
  · rfl

/-- Below a key that holds no map there is nothing in the way. -/
theorem landing?_of_no_map {found : Tree} {k : Key} (h : ∀ child, found.get? k ≠ some (.map child))
    (v : Value) {ks : List Key} (hks : ks ≠ []) :
    found.landing? v (k :: ks) = some (k :: ks) := by
  unfold landing?
  split
  · rename_i m _ hm _
    rw [List.dropLast_cons_of_ne_nil hks] at hm
    obtain ⟨w, hw, hbelow⟩ := exists_get?_of_at? hm
    cases hks' : ks.dropLast with
    | nil =>
        rw [hks', Value.at?_nil, Option.some.injEq] at hbelow
        exact absurd (hbelow ▸ hw) (h m)
    | cons k' ks' =>
        rw [hks'] at hbelow
        obtain ⟨child, rfl⟩ := Value.exists_map_of_at?_cons hbelow
        exact absurd hw (h child)
  · rfl

/-- Merging a map under one key. -/
theorem absorb_map (t incoming : Tree) (k : Key) :
    t.absorb {} (.cons k (.map incoming) .nil) =
      t.insert k (.map ((t.childAt k).merge {} incoming)) := by
  have hkept : appends {} k (.map incoming) = false := by simp [appends, Value.isMap]
  rw [absorb, hkept, if_neg Bool.false_ne_true]
  split
  · rename_i existing hexisting
    rw [childAt_of_get? hexisting]
    rfl
  · rename_i hmap
    rw [childAt_of_no_map hmap]
    rfl

/-- Merging a value that is no map under one key. -/
theorem absorb_leaf (t : Tree) (k : Key) {v : Value} (hv : v.isMap = false) :
    t.absorb {} (.cons k v .nil) = if k.isIndex then t.push v else t.insert k v := by
  cases v with
  | map child => cases hv
  | _ => cases k <;> rfl

theorem merge_of_isEmpty_eq_false {t : Tree} (h : t.isEmpty = false) (more : Tree) :
    t.merge {} more = t.absorb {} more := by
  simp [merge, h]

/-- Merging a value under the last key, into a map with entries. -/
theorem absorb_store_last {found : Tree} (hempty : found.isEmpty = false) (v : Value) (k : Key)
    (hfree : v.isMap = true → ∀ m, found.at? [k] ≠ some (.map m)) :
    found.absorb {} (Tree.nil.store v [k]) =
      (found.landing? v [k]).elim found fun r => found.store v r := by
  rcases v.exists_map_or_isMap_eq_false with ⟨child, rfl⟩ | hmap
  · have hnone : found.childAt k = .nil := by
      refine childAt_of_no_map fun m hm => hfree rfl m ?_
      rw [at?_of_get? hm, Value.at?_nil]
    have hlands : found.landing? (.map child) [k] = some [k] := by
      cases k with
      | index i => exact if_pos (Bool.or_true _)
      | name s => rfl
    rw [hlands]
    exact (absorb_map found child k).trans (by rw [hnone]; rfl)
  · refine (absorb_leaf found k hmap).trans ?_
    cases k with
    | index i =>
        have hlands : found.landing? v [.index i] = found.nextIndex?.map fun i => [.index i] := by
          refine if_neg ?_
          rw [hempty, hmap]
          exact Bool.false_ne_true
        have hindex : (Key.index i).isIndex = true := rfl
        rw [hlands, if_pos hindex, push]
        cases found.nextIndex? with
        | none => rfl
        | some next => rfl
    | name s => rfl

/-- Merging a value with the maps around it stores the value where it lands. -/
theorem merge_store {p : List Key} (hp : p ≠ []) (found : Tree) (v : Value)
    (hfree : v.isMap = true → ∀ m, found.at? p ≠ some (.map m)) :
    found.merge {} (Tree.nil.store v p) =
      (found.landing? v p).elim found fun r => found.store v r := by
  induction p generalizing found with
  | nil => exact absurd rfl hp
  | cons k ks ih =>
      cases hempty : found.isEmpty with
      | true =>
          rw [(isEmpty_iff found).mp hempty, landing?_nil]
          rfl
      | false =>
          rw [merge_of_isEmpty_eq_false hempty]
          cases ks with
          | nil => exact absorb_store_last hempty v k hfree
          | cons k' ks =>
              have hks : k' :: ks ≠ [] := List.cons_ne_nil _ _
              refine (absorb_map found (Tree.nil.store v (k' :: ks)) k).trans ?_
              obtain ⟨child, hchild⟩ | hnone := Value.exists_map_or_no_map (found.get? k)
              · have hbelow : v.isMap = true → ∀ m, child.at? (k' :: ks) ≠ some (.map m) := by
                  intro hv m hm
                  exact hfree hv m ((at?_of_get? hchild _).trans hm)
                rw [childAt_of_get? hchild, ih hks child hbelow, landing?_under hchild v hks]
                cases hlands : child.landing? v (k' :: ks) with
                | none => exact insert_get? hchild
                | some r =>
                    have hr : r ≠ [] := landing?_ne_nil hks hlands
                    exact (store_under v hchild hr).symm
              · rw [landing?_of_no_map hnone v hks, Option.elim_some, store_cons v k hks,
                  childAt_of_no_map hnone]
                rfl

end Tree

/-! ### Reading a group of literal sub-paths -/

/-- The group of literal paths. -/
def Members.ofPaths : List (List String) → Members
  | [] => .nil
  | texts :: rest => .path (.ofKeys texts) (ofPaths rest)

/-- The path of one group of literal paths. -/
def Path.groupOf (subs : List (List String)) : Path :=
  .group (.ofPaths subs) .nil

/-- Inside a group a literal path gives its value with the maps around it. -/
theorem Path.get_ofKeys_nested (default : Value) {texts : List String} (hne : texts ≠ [])
    (hliteral : wildcard ∉ texts) {t : Tree} {v : Value}
    (hv : t.at? (texts.map Key.ofText) = some v) :
    (ofKeys texts).get default true t = .map (Tree.nil.store v (texts.map Key.ofText)) := by
  induction texts generalizing t with
  | nil => exact absurd rfl hne
  | cons text texts ih =>
      rw [List.mem_cons, not_or] at hliteral
      obtain ⟨w, hw, hbelow⟩ := Tree.exists_get?_of_at? hv
      rw [ofKeys, get, if_neg (Ne.symm hliteral.1), if_pos rfl, Tree.descendAt_of_get? hw]
      cases texts with
      | nil =>
          rw [List.map_nil, Value.at?_nil, Option.some.injEq] at hbelow
          rw [hbelow]
          rfl
      | cons next texts =>
          obtain ⟨child, rfl⟩ := Value.exists_map_of_at?_cons hbelow
          have hchild := ih (List.cons_ne_nil _ _) hliteral.2 hbelow
          have hdescends : (Value.map child).descend default (ofKeys (next :: texts)).isNil
              ((ofKeys (next :: texts)).get default true) =
                (ofKeys (next :: texts)).get default true child := rfl
          rw [hdescends, hchild]
          rfl

/-- The last member of a group is merged into what the members before it gave. -/
theorem Members.get_ofPaths_concat (default : Value) {isLast : Bool} {inner : Tree → Value}
    {before : List (List String)} {texts : List String} {t more : Tree}
    (h : (Path.ofKeys texts).get default true t = .map more) (found : Tree) :
    (ofPaths (before ++ [texts])).get default isLast inner t found =
      ((ofPaths before).get default isLast inner t found).merge {} more := by
  induction before generalizing found with
  | nil => simp only [List.nil_append, ofPaths, get, h]
  | cons first before ih =>
      rw [List.cons_append, ofPaths, get, ofPaths, get]
      exact ih _

theorem Path.get_groupOf_concat (default : Value) {before : List (List String)}
    {texts : List String} {t found more : Tree}
    (hbefore : (groupOf before).get default false t = .map found)
    (h : (ofKeys texts).get default true t = .map more) :
    (groupOf (before ++ [texts])).get default false t = .map (found.merge {} more) := by
  rw [groupOf, get, Value.map.injEq] at hbefore ⊢
  rw [Members.get_ofPaths_concat default h, hbefore]

/-! ### Values that hold nothing -/

/-- A value that holds no other: a leaf or an empty map. -/
def Value.HoldsNone (v : Value) : Prop :=
  v.isMap = false ∨ v = .map .nil

/-- Every tree leads to a value that holds no other. -/
theorem Tree.exists_holdsNone (t : Tree) : ∃ ks w, t.at? ks = some w ∧ w.HoldsNone := by
  induction t using deepInduction with
  | nil => exact ⟨[], _, at?_nil _, .inr rfl⟩
  | cons k v rest ih _ =>
      have hv : (Tree.cons k v rest).get? k = some v := if_pos rfl
      rcases v.exists_map_or_isMap_eq_false with ⟨child, rfl⟩ | hmap
      · obtain ⟨ks, w, hw, hnone⟩ := ih child rfl
        exact ⟨k :: ks, w, (at?_of_get? hv ks).trans hw, hnone⟩
      · exact ⟨[k], v, (at?_of_get? hv []).trans (Value.at?_nil v), .inl hmap⟩

/-! ### What the places tell -/

/-- The sub-path to `p` puts its value at a place, or nowhere, when it is merged into what the
sub-paths before it gave. -/
def Lands (default : Value) (t : Tree) (subs : List (List String)) (p : List Key)
    (place : Option (List Key)) : Prop :=
  ∃ before texts after found v, subs = before ++ texts :: after ∧ p = texts.map Key.ofText ∧
    (Path.groupOf before).get default false t = .map found ∧ t.at? p = some v ∧
    place = found.landing? v p

/-- What is read along a group of sub-paths, told by the places where their values land. -/
structure Gathers (default : Value) (t : Tree) (subs : List (List String)) (result : Tree) :
    Prop where
  /-- Every sub-path has its place, or none. -/
  lands : ∀ texts ∈ subs, ∃ place, Lands default t subs (texts.map Key.ofText) place
  /-- A sub-path leaves something in the result. -/
  entries : subs ≠ [] → result ≠ .nil
  /-- What landed in its own place is there.  What landed elsewhere is there if no sub-path goes to
  this place or through it. -/
  holds : ∀ p r, Lands default t subs p (some r) →
    r = p ∨ (∀ texts ∈ subs, ¬r <+: texts.map Key.ofText) → result.at? r = t.at? p
  /-- Leaves and empty maps are found at places or below them, where the tree has them too. -/
  origin : ∀ q w, q ≠ [] → result.at? q = some w → w.HoldsNone →
    ∃ p r tail, Lands default t subs p (some r) ∧ q = r ++ tail ∧ t.at? (p ++ tail) = some w

namespace Lands

variable {default : Value} {t : Tree} {before subs : List (List String)} {texts : List String}
  {p r : List Key} {place : Option (List Key)}

theorem exists_mem (h : Lands default t subs p place) :
    ∃ texts ∈ subs, p = texts.map Key.ofText := by
  obtain ⟨before, texts, after, _, _, rfl, rfl, _⟩ := h
  exact ⟨texts, by simp, rfl⟩

theorem append (h : Lands default t before p place) (more : List (List String)) :
    Lands default t (before ++ more) p place := by
  obtain ⟨first, texts, after, found, v, rfl, hrest⟩ := h
  exact ⟨first, texts, after ++ more, found, v, by simp, hrest⟩

theorem exists_at? (h : Lands default t subs p place) : ∃ v, t.at? p = some v := by
  obtain ⟨_, _, _, _, v, _, _, _, hv, _⟩ := h
  exact ⟨v, hv⟩

/-- The places of a longer group are those of the group without the last sub-path, and one more. -/
theorem concat_cases {found : Tree} {v : Value}
    (hfound : (Path.groupOf before).get default false t = .map found)
    (hv : t.at? (texts.map Key.ofText) = some v) (h : Lands default t (before ++ [texts]) p place) :
    Lands default t before p place ∨
      p = texts.map Key.ofText ∧ place = found.landing? v (texts.map Key.ofText) := by
  obtain ⟨first, texts', after, found', v', hsplit, rfl, hfound', hv', hplace⟩ := h
  rcases List.eq_nil_or_concat' after with rfl | ⟨after, last, rfl⟩
  · obtain ⟨rfl, hlast⟩ := List.append_inj' hsplit rfl
    obtain rfl := (List.cons.inj hlast).1
    rw [hfound, Value.map.injEq] at hfound'
    rw [hv, Option.some.injEq] at hv'
    exact .inr ⟨rfl, by rw [hplace, hfound', hv']⟩
  · rw [← List.cons_append, ← List.append_assoc] at hsplit
    obtain ⟨rfl, _⟩ := List.append_inj' hsplit rfl
    exact .inl ⟨first, texts', after, found', v', rfl, rfl, hfound', hv', hplace⟩

/-- A value lands in its place, or it is no map and lands beside its place. -/
theorem cases (h : Lands default t subs p (some r)) :
    r = p ∨ ∃ v, t.at? p = some v ∧ v.isMap = false ∧ ∀ q, q <+: r → q = r ∨ q <+: p := by
  obtain ⟨_, _, _, found, v, _, _, _, hv, hplace⟩ := h
  obtain hr | ⟨hmap, _, hbeside⟩ := Tree.landing?_cases hplace.symm
  · exact .inl hr
  · exact .inr ⟨v, hv, hmap, fun q => Tree.eq_or_prefix_of_beside hbeside⟩

/-- A place where something is and a place where the next value lands are apart, if the sub-paths
are and if the next one does not go to the former place or through it. -/
theorem apart {found : Tree} {v : Value} {next r' : List Key}
    (h : Lands default t before p (some r)) (hthere : found.at? r ≠ none)
    (hspared : r = p ∨ ¬r <+: next) (hfree : ¬p <+: next ∧ ¬next <+: p)
    (hnext : found.landing? v next = some r') :
    ¬r' <+: r ∧ ¬r <+: r' := by
  have hpast : ¬r <+: next := hspared.elim (fun hr => hr ▸ hfree.1) id
  have hshort : ¬next <+: r := by
    intro hbegin
    obtain rfl | ⟨_, _, _, hbeside⟩ := h.cases
    · exact hfree.2 hbegin
    · obtain rfl | hbegins := hbeside next hbegin
      · exact hpast List.prefix_rfl
      · exact hfree.2 hbegins
  obtain rfl | ⟨_, hfresh, hbeside⟩ := Tree.landing?_cases hnext
  · exact ⟨hshort, hpast⟩
  · refine ⟨fun hbegin => hthere (Tree.at?_eq_none_of_prefix hbegin hfresh), fun hbegin => ?_⟩
    obtain rfl | hbegins := Tree.eq_or_prefix_of_beside hbeside hbegin
    · exact hthere hfresh
    · exact hpast hbegins

end Lands

namespace Gathers

variable {default : Value} {t found : Tree} {before : List (List String)} {texts : List String}
  {v : Value}

/-- Where a further sub-path ends the result holds no map yet, if the sub-paths are apart. -/
theorem not_map (h : Gathers default t before found) (hne : texts ≠ [])
    (hfree : ∀ other ∈ before, ¬other.map Key.ofText <+: texts.map Key.ofText ∧
      ¬texts.map Key.ofText <+: other.map Key.ofText) (m : Tree) :
    found.at? (texts.map Key.ofText) ≠ some (.map m) := by
  intro hm
  -- The map leads to something, which has come from one of the sub-paths.
  obtain ⟨ks, w, hw, hnone⟩ := m.exists_holdsNone
  have hks : found.at? (texts.map Key.ofText ++ ks) = some w := by
    rw [Tree.at?_append, hm]
    exact hw
  obtain ⟨p, r, tail, hlands, hsplit, hfrom⟩ := h.origin _ w (by simp [hne]) hks hnone
  obtain ⟨other, hother, rfl⟩ := hlands.exists_mem
  obtain ⟨hbefore, hafter⟩ := hfree other hother
  have hbegins : texts.map Key.ofText <+: r ++ tail := hsplit ▸ List.prefix_append _ _
  obtain rfl | ⟨v, hv, hmap, hbeside⟩ := hlands.cases
  · rcases List.prefix_or_prefix_of_prefix hbegins (List.prefix_append _ tail) with hpre | hpre
    · exact hafter hpre
    · exact hbefore hpre
  · -- It has landed beside its place, so it is a leaf and nothing is below it.
    rw [Tree.at?_append, hv, Option.bind_some] at hfrom
    cases tail with
    | cons k tail =>
        rw [Value.at?_cons_of_not_map hmap] at hfrom
        cases hfrom
    | nil =>
        rw [List.append_nil] at hsplit hbegins
        obtain heq | hpre := hbeside _ hbegins
        · have hself : texts.map Key.ofText ++ ks = texts.map Key.ofText ++ [] := by
            rw [hsplit, List.append_nil, heq]
          rw [List.append_cancel_left hself] at hw
          rw [Value.at?_nil, Option.some.injEq] at hfrom
          rw [Tree.at?_nil, Option.some.injEq, ← hfrom] at hw
          rw [← hw] at hmap
          cases hmap
        · exact hafter hpre

section Concat

variable (h : Gathers default t before found)
  (hfound : (Path.groupOf before).get default false t = .map found)
  (hv : t.at? (texts.map Key.ofText) = some v)

include h hfound hv

theorem lands_concat : ∀ other ∈ before ++ [texts],
    ∃ place, Lands default t (before ++ [texts]) (other.map Key.ofText) place := by
  intro other hother
  rcases List.mem_append.mp hother with hother | hother
  · obtain ⟨place, hplace⟩ := h.lands other hother
    exact ⟨place, hplace.append [texts]⟩
  · rw [List.mem_singleton.mp hother]
    exact ⟨_, before, texts, [], found, v, rfl, rfl, hfound, hv, rfl⟩

omit hfound hv in
/-- Where other values have landed the result without the last sub-path holds them. -/
theorem holds_before {p r : List Key} (hr : Lands default t before p (some r))
    (hspared : r = p ∨ ∀ other ∈ before ++ [texts], ¬r <+: other.map Key.ofText) :
    found.at? r = t.at? p := by
  refine h.holds p r hr (hspared.imp_right fun hall other hother => ?_)
  exact hall other (List.mem_append_left _ hother)

/-- One sub-path more, with a value that lands nowhere. -/
theorem concat_of_nowhere (hplace : found.landing? v (texts.map Key.ofText) = none) :
    Gathers default t (before ++ [texts]) found where
  lands := h.lands_concat hfound hv
  entries _ := by
    rintro rfl
    rw [Tree.landing?_nil] at hplace
    cases hplace
  holds p r hr hspared := by
    rcases hr.concat_cases hfound hv with hr | ⟨_, hr'⟩
    · exact h.holds_before hr hspared
    · rw [hplace] at hr'
      cases hr'
  origin q w hne hq hnone := by
    obtain ⟨p, r, tail, hr, hrest⟩ := h.origin q w hne hq hnone
    exact ⟨p, r, tail, hr.append [texts], hrest⟩

/-- Leaves and empty maps of the longer group are at or below the new place, or they were there. -/
theorem origin_concat {place : List Key}
    (hplace : found.landing? v (texts.map Key.ofText) = some place) (hplacene : place ≠ [])
    {q : List Key} {w : Value} (hroot : q ≠ []) (hq : (found.store v place).at? q = some w)
    (hnone : w.HoldsNone) : ∃ p r tail, Lands default t (before ++ [texts]) p (some r) ∧
      q = r ++ tail ∧ t.at? (p ++ tail) = some w := by
  by_cases hbelow : place <+: q
  · obtain ⟨tail, rfl⟩ := hbelow
    have hlast : Lands default t (before ++ [texts]) (texts.map Key.ofText) (some place) :=
      ⟨before, texts, [], found, v, rfl, rfl, hfound, hv, hplace.symm⟩
    rw [Tree.at?_append, Tree.at?_store_self v hplacene, ← hv, ← Tree.at?_append] at hq
    exact ⟨_, place, tail, hlast, rfl, hq⟩
  · by_cases habove : q <+: place
    · -- Maps with entries lead to the place.
      have hne : q ≠ place := fun heq => hbelow (heq ▸ List.prefix_rfl)
      obtain ⟨m, hm, hat⟩ := Tree.at?_store_of_prefix v habove hne found
      rw [hat, Option.some.injEq] at hq
      subst hq
      rcases hnone with hmap | hempty
      · cases hmap
      · exact absurd (Value.map.inj hempty) hm
    · have hsame : (found.store v place).at? q = found.at? q := by
        refine (Tree.frame_store v place found).same q ?_
        rintro ⟨_, rfl, hcomparable⟩
        exact hcomparable.elim hbelow habove
      obtain ⟨p, r, tail, hr, hrest⟩ := h.origin q w hroot (hsame ▸ hq) hnone
      exact ⟨p, r, tail, hr.append [texts], hrest⟩

/-- One sub-path more, with its value stored where it lands. -/
theorem concat_of_place (hne : texts ≠ [])
    (hfree : ∀ other ∈ before, ¬other.map Key.ofText <+: texts.map Key.ofText ∧
      ¬texts.map Key.ofText <+: other.map Key.ofText)
    {place : List Key} (hplace : found.landing? v (texts.map Key.ofText) = some place) :
    Gathers default t (before ++ [texts]) (found.store v place) := by
  have hplacene : place ≠ [] := Tree.landing?_ne_nil (by simpa using hne) hplace
  refine ⟨h.lands_concat hfound hv, fun _ => Tree.store_ne_nil v hplacene found,
    fun p r hr hspared => ?_, fun q w => h.origin_concat hfound hv hplace hplacene⟩
  rcases hr.concat_cases hfound hv with hr | ⟨rfl, hr'⟩
  · -- The new place is apart from the places before it.
    have hthere := h.holds_before hr hspared
    obtain ⟨other, hother, rfl⟩ := hr.exists_mem
    obtain ⟨w, hw⟩ := hr.exists_at?
    have hapart := hr.apart (by rw [hthere, hw]; exact Option.some_ne_none w)
      (hspared.imp_right fun hall => hall texts (by simp)) (hfree other hother) hplace
    rw [← hthere]
    refine (Tree.frame_store v place found).same r ?_
    rintro ⟨_, rfl, hcomparable⟩
    exact hcomparable.elim hapart.1 hapart.2
  · rw [hplace, Option.some.injEq] at hr'
    rw [hr', hv, Tree.at?_store_self v hplacene]

end Concat

end Gathers

/-- Literal sub-paths, none of which begins another, gather what is at their places. -/
theorem Path.gathers_groupOf (default : Value) {t : Tree} (subs : List (List String))
    (hne : ∀ texts ∈ subs, texts ≠ []) (hliteral : ∀ texts ∈ subs, wildcard ∉ texts)
    (hthere : ∀ texts ∈ subs, (t.at? (texts.map Key.ofText)).isSome)
    (hfree : subs.Pairwise fun p q => ¬p.map Key.ofText <+: q.map Key.ofText ∧
      ¬q.map Key.ofText <+: p.map Key.ofText) :
    ∃ result, (groupOf subs).get default false t = .map result ∧ Gathers default t subs result := by
  induction subs using List.reverseRecOn with
  | nil =>
      refine ⟨.nil, rfl, by simp, fun h => absurd rfl h, fun p r hr _ => ?_, fun q w hq hw _ => ?_⟩
      · obtain ⟨_, hmem, _⟩ := hr.exists_mem
        cases hmem
      · cases q with
        | nil => exact absurd rfl hq
        | cons k q => cases hw
  | append_singleton before texts ih =>
      simp only [List.forall_mem_append, List.forall_mem_singleton] at hne hliteral hthere
      obtain ⟨hbefore, _, hlast⟩ := List.pairwise_append.mp hfree
      have happart : ∀ other ∈ before, ¬other.map Key.ofText <+: texts.map Key.ofText ∧
          ¬texts.map Key.ofText <+: other.map Key.ofText := fun other hother =>
        hlast other hother texts List.mem_cons_self
      obtain ⟨found, hfound, hgathers⟩ := ih hne.1 hliteral.1 hthere.1 hbefore
      obtain ⟨v, hv⟩ := Option.isSome_iff_exists.mp hthere.2
      have hmore := Path.get_ofKeys_nested default hne.2 hliteral.2 hv
      have hkeys : texts.map Key.ofText ≠ [] := by simpa using hne.2
      have hmerge := Tree.merge_store hkeys found v fun _ => hgathers.not_map hne.2 happart
      refine ⟨_, Path.get_groupOf_concat default hfound hmore, ?_⟩
      rw [hmerge]
      cases hplace : found.landing? v (texts.map Key.ofText) with
      | none => exact hgathers.concat_of_nowhere hfound hv hplace
      | some place => exact hgathers.concat_of_place hfound hv hne.2 happart hplace

/-- Of two or more sub-paths none of which begins another none is empty. -/
theorem ne_nil_of_pairwise_not_prefix {subs : List (List String)} (htwo : 2 ≤ subs.length)
    (hfree : subs.Pairwise fun p q => ¬p <+: q ∧ ¬q <+: p) : ∀ texts ∈ subs, texts ≠ [] := by
  match subs, htwo, hfree with
  | first :: second :: rest, _, hfree =>
      obtain ⟨hfirst, hothers⟩ := List.pairwise_cons.mp hfree
      rintro texts hmem rfl
      rcases List.mem_cons.mp hmem with rfl | hmem
      · exact (hfirst second List.mem_cons_self).1 List.nil_prefix
      · exact (hfirst [] hmem).2 List.nil_prefix

/-- Two or more literal sub-paths that a tree holds, none of which begins another, are gathered into
a map.  It tells the places where their values land; if each lands in its own place the map holds
what the tree holds at their ends, and nothing else. -/
theorem Path.get_groupOf_gathers (default : Value) (t : Tree) (subs : List (List String))
    (htwo : 2 ≤ subs.length) (hliteral : ∀ texts ∈ subs, wildcard ∉ texts)
    (hthere : ∀ texts ∈ subs, (t.at? (texts.map Key.ofText)).isSome)
    (hfree : subs.Pairwise fun p q => ¬p <+: q ∧ ¬q <+: p) :
    ∃ result, (groupOf subs).get default false t = .map result ∧
      Gathers default t subs result ∧
      ((∀ p place, Lands default t subs p place → place = some p) →
        (∀ texts ∈ subs, result.at? (texts.map Key.ofText) = t.at? (texts.map Key.ofText)) ∧
        ∀ q w, result.at? q = some w → w.HoldsNone →
          ∃ texts ∈ subs, texts.map Key.ofText <+: q) := by
  have hne := ne_nil_of_pairwise_not_prefix htwo hfree
  have hkeys : ∀ {p q : List String}, p.map Key.ofText <+: q.map Key.ofText → p <+: q :=
    (List.prefix_map_iff_of_injective fun _ _ h => Key.ofText_injective h).mp
  have hapart : subs.Pairwise fun p q => ¬p.map Key.ofText <+: q.map Key.ofText ∧
      ¬q.map Key.ofText <+: p.map Key.ofText :=
    hfree.imp fun h => ⟨fun hpre => h.1 (hkeys hpre), fun hpre => h.2 (hkeys hpre)⟩
  obtain ⟨result, hresult, hgathers⟩ := Path.gathers_groupOf default subs hne hliteral hthere hapart
  refine ⟨result, hresult, hgathers, fun hown => ⟨fun texts hmem => ?_, fun q w hq hnone => ?_⟩⟩
  · obtain ⟨place, hplace⟩ := hgathers.lands texts hmem
    rw [hown _ _ hplace] at hplace
    exact hgathers.holds _ _ hplace (.inl rfl)
  · have hroot : q ≠ [] := by
      rintro rfl
      rw [Tree.at?_nil, Option.some.injEq] at hq
      subst hq
      have hsome : subs ≠ [] := List.ne_nil_of_length_pos (by omega)
      exact hnone.elim (fun h => by cases h) fun h => hgathers.entries hsome (Value.map.inj h)
    obtain ⟨p, r, tail, hr, rfl, _⟩ := hgathers.origin q w hroot hq hnone
    obtain ⟨texts, hmem, rfl⟩ := hr.exists_mem
    obtain rfl := Option.some.inj (hown _ _ hr)
    exact ⟨texts, hmem, List.prefix_append _ _⟩

/-- A map that holds two numbers in a row. -/
def rowOfTens : Tree :=
  .cons (.name "a") (.map (Tree.sequence [.int 10, .int 20])) .nil

theorem get_groupOf_gathers_rowOfTens :
    2 ≤ [["a", "0"], ["a", "1"]].length ∧
    (∀ texts ∈ [["a", "0"], ["a", "1"]], Path.wildcard ∉ texts) ∧
    (∀ texts ∈ [["a", "0"], ["a", "1"]], (rowOfTens.at? (texts.map Key.ofText)).isSome) ∧
    [["a", "0"], ["a", "1"]].Pairwise (fun p q => ¬p <+: q ∧ ¬q <+: p) ∧
    ∃ result, (Path.groupOf [["a", "0"], ["a", "1"]]).get .null false rowOfTens = .map result ∧
      Gathers .null rowOfTens [["a", "0"], ["a", "1"]] result ∧
      ∀ texts ∈ [["a", "0"], ["a", "1"]],
        result.at? (texts.map Key.ofText) = rowOfTens.at? (texts.map Key.ofText) := by
  have hliteral : ∀ texts ∈ [["a", "0"], ["a", "1"]], Path.wildcard ∉ texts := by decide
  have hthere : ∀ texts ∈ [["a", "0"], ["a", "1"]],
      (rowOfTens.at? (texts.map Key.ofText)).isSome := by decide
  have hfree : [["a", "0"], ["a", "1"]].Pairwise (fun p q => ¬p <+: q ∧ ¬q <+: p) := by decide
  obtain ⟨result, hresult, hgathers, hown⟩ := Path.get_groupOf_gathers .null rowOfTens
    [["a", "0"], ["a", "1"]] (by decide) hliteral hthere hfree
  refine ⟨by decide, hliteral, hthere, hfree, result, hresult, hgathers, (hown ?_).1⟩
  -- The first number goes into no map with entries, the second under the next free index.
  intro p place hlands
  have hnone : (Path.groupOf []).get .null false rowOfTens = .map .nil := rfl
  have hfirst : (Path.groupOf [["a", "0"]]).get .null false rowOfTens =
      .map (.cons (.name "a") (.map (.cons (.index 0) (.int 10) .nil)) .nil) := by decide
  have hten : rowOfTens.at? (["a", "0"].map Key.ofText) = some (.int 10) := by decide
  have htwenty : rowOfTens.at? (["a", "1"].map Key.ofText) = some (.int 20) := by decide
  have hboth : Lands .null rowOfTens ([["a", "0"]] ++ [["a", "1"]]) p place := hlands
  rcases hboth.concat_cases hfirst htwenty with hone | ⟨rfl, rfl⟩
  · have hone : Lands .null rowOfTens ([] ++ [["a", "0"]]) p place := hone
    rcases hone.concat_cases hnone hten with hzero | ⟨rfl, rfl⟩
    · obtain ⟨_, hmem, _⟩ := hzero.exists_mem
      cases hmem
    · decide
  · decide

/-- With the second number first the other one is appended behind it, and missing in its place. -/
theorem get_groupOf_misses_place :
    2 ≤ [["a", "1"], ["a", "0"]].length ∧
    (∀ texts ∈ [["a", "1"], ["a", "0"]], Path.wildcard ∉ texts) ∧
    (∀ texts ∈ [["a", "1"], ["a", "0"]], (rowOfTens.at? (texts.map Key.ofText)).isSome) ∧
    [["a", "1"], ["a", "0"]].Pairwise (fun p q => ¬p <+: q ∧ ¬q <+: p) ∧
    (Path.groupOf [["a", "1"], ["a", "0"]]).get .null false rowOfTens =
      .map (.cons (.name "a")
        (.map (.cons (.index 1) (.int 20) (.cons (.index 2) (.int 10) .nil))) .nil) ∧
    ¬∃ result, (Path.groupOf [["a", "1"], ["a", "0"]]).get .null false rowOfTens = .map result ∧
      ∀ texts ∈ [["a", "1"], ["a", "0"]],
        result.at? (texts.map Key.ofText) = rowOfTens.at? (texts.map Key.ofText) := by
  have hget : (Path.groupOf [["a", "1"], ["a", "0"]]).get .null false rowOfTens =
      .map (.cons (.name "a")
        (.map (.cons (.index 1) (.int 20) (.cons (.index 2) (.int 10) .nil))) .nil) := by decide
  refine ⟨by decide, by decide, by decide, by decide, hget, ?_⟩
  rintro ⟨result, hresult, hsame⟩
  rw [hget, Value.map.injEq] at hresult
  have hten := hsame ["a", "0"] (by decide)
  rw [← hresult] at hten
  revert hten
  decide

end Quill
