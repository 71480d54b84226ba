import Quill.Proofs.Walk.Removal
import Quill.Proofs.Walk.Step

/-!
# What is gone after a removal

After a removal nothing is left that its path selects, so asking for the path is answered with no,
and removing once more changes nothing.  The first is read off the fates: a selected list is
dropped, and a cut leaves nothing at a dropped list.  The last is that fates joined with themselves
are themselves.
-/

namespace Quill

/-! ### Dropped lists -/

/-- Nothing is left at a dropped list of keys. -/
theorem Tree.at?_cut_of_dropped {t : Tree} (ht : t.Distinct) (keepEmpty : Bool) {c : Removal}
    {k : Key} {q : List Key} (hq : c.fate (k :: q) = .dropped) :
    (t.cut keepEmpty c).at? (k :: q) = none := by
  -- On the list: the fates below its first key are those of a removal again.
  induction q generalizing t c k with
  | nil =>
      have hgone : ∀ v : Value, v.cut keepEmpty (c.under k) = none := Value.cut_of_dropped hq
      rw [at?_cons, get?_cut ht.nodup_keys]
      cases t.get? k with
      | none => rfl
      | some v => rw [Option.bind_some, hgone, Option.bind_none]
  | cons k' q ih =>
      rw [at?_cons, get?_cut ht.nodup_keys]
      cases hget : t.get? k with
      | none => rfl
      | some v =>
          rw [Option.bind_some]
          cases hcut : v.cut keepEmpty (c.under k) with
          | none => rfl
          | some w =>
              show w.at? (k' :: q) = none
              rcases Value.cut_cases hcut with ⟨hnothing, _⟩ | ⟨hmap, rfl⟩ | ⟨child, rfl, _, rfl⟩
              · have hspared : (c.under k).fate (k' :: q) = .spared := by
                  rw [hnothing]
                  rfl
                have hdropped : (c.under k).fate (k' :: q) = .dropped := hq
                rw [hspared] at hdropped
                cases hdropped
              · exact Value.at?_cons_of_not_map hmap k' q
              · exact ih (ht.of_get? hget) hq

/-- Behind a step stands a path that drops, or nothing, and then the step itself does. -/
theorem Path.fate_behind_eq_dropped {p : Path} {q : List Key}
    (h : p ≠ .nil → p.removal.fate q = .dropped) :
    (Removal.behind p.isNil p.removal).fate q = .dropped := by
  cases p with
  | nil => rfl
  | key text rest => exact h (by simp)
  | group ms rest => exact h (by simp)

mutual

/-- A path drops what it selects.  An empty path selects the empty list and drops nothing. -/
theorem Path.fate_removal_of_selects : ∀ p : Path, p ≠ .nil → p.NoEmptySub → ∀ {q : List Key},
    p.Selects q → p.removal.fate q = .dropped
  | .nil, hne, _, _, _ => absurd rfl hne
  | .key text rest, _, hsub, q, hq => by
      cases q with
      | nil => exact absurd hq (Path.not_selects_key_nil text rest)
      | cons k q =>
          obtain ⟨hk, htail⟩ := (Path.selects_key_cons text rest k q).mp hq
          rw [Path.removal]
          show (if Path.segmentSelects text k then
            (Removal.behind rest.isNil rest.removal).fate q else .spared) = .dropped
          rw [if_pos hk]
          apply Path.fate_behind_eq_dropped
          intro hne
          exact Path.fate_removal_of_selects rest hne hsub htail
  | .group ms rest, _, hsub, q, hq => by
      obtain ⟨hms, hrest⟩ := hsub
      rw [Path.removal]
      apply Members.fate_removal_of_selects ms hms _ hq
      intro q hq
      apply Path.fate_behind_eq_dropped
      intro hne
      exact Path.fate_removal_of_selects rest hne hrest hq

theorem Members.fate_removal_of_selects {behind : List Key → Prop} {c : Removal} :
    ∀ ms : Members, ms.NoEmptySub → (∀ {q}, behind q → c.fate q = .dropped) →
      ∀ {q : List Key}, ms.Selects behind q → (ms.removal c).fate q = .dropped
  | .nil, _, _, _, hq => hq.elim
  | .key text rest, hsub, hbehind, q, hq => by
      rw [Members.removal]
      apply (Fate.join_eq_dropped_iff _ _).mpr
      rcases hq with ⟨tail, rfl, htail⟩ | hq
      · left
        show (if Key.ofText text = Key.ofText text then c.fate tail else .spared) = .dropped
        rw [if_pos rfl, hbehind htail]
      · right
        exact Members.fate_removal_of_selects rest hsub hbehind hq
  | .path sub rest, hsub, hbehind, q, hq => by
      obtain ⟨hne, hsub, hrest⟩ := hsub
      rw [Members.removal]
      apply (Fate.join_eq_dropped_iff _ _).mpr
      rcases hq with hq | hq
      · left
        exact Path.fate_removal_of_selects sub hne hsub hq
      · right
        exact Members.fate_removal_of_selects rest hrest hbehind hq

end

/-! ### Asking for a path -/

/-- A key that is there holds something at a list of keys that is selected below it. -/
theorem Tree.exists_at?_of_hasAt {isLast : Bool} {inner : Tree → Bool} {behind : List Key → Prop}
    (hlast : isLast = true → behind [])
    (hinner : ∀ u : Tree, inner u = true → ∃ q, behind q ∧ (u.at? q).isSome = true)
    {t : Tree} {k : Key} (h : t.hasAt isLast inner k = true) :
    ∃ q, UnderKey k behind q ∧ (t.at? q).isSome = true := by
  obtain ⟨v, hv, hl | ⟨child, rfl, hchild⟩⟩ := (t.hasAt_iff isLast inner k).mp h
  · refine ⟨[k], ⟨[], rfl, hlast hl⟩, ?_⟩
    rw [at?_cons, hv, Option.bind_some, Value.at?_nil, Option.isSome_some]
  · obtain ⟨q, hq, hfound⟩ := hinner child hchild
    refine ⟨k :: q, ⟨q, rfl, hq⟩, ?_⟩
    rw [at?_cons, hv, Option.bind_some]
    exact hfound

theorem Path.selectedKeys_ne_nil (text : String) {t : Tree} (ht : t.isEmpty = false) :
    selectedKeys text t ≠ [] := by
  unfold selectedKeys
  by_cases hw : text = wildcard
  · rw [if_pos hw, Ne, Tree.keys_eq_nil_iff]
    rintro rfl
    cases ht
  · rw [if_neg hw]
    exact List.cons_ne_nil _ _

mutual

/-- Where a path is found, something that it selects is found. -/
theorem Path.exists_at?_of_has : ∀ (p : Path) {t : Tree}, p.has t = true →
    ∃ q, p.Selects q ∧ (t.at? q).isSome = true
  | .nil, t, h => by
      rw [Path.has] at h
      cases h
  | .key text rest, t, h => by
      rw [Path.has, Bool.and_eq_true, Bool.not_eq_true'] at h
      obtain ⟨hempty, hall⟩ := h
      -- One key is enough, and a tree that is not empty has one for the wildcard.
      obtain ⟨k, hk⟩ := List.exists_mem_of_ne_nil _ (Path.selectedKeys_ne_nil text hempty)
      have hat := List.all_eq_true.mp hall k hk
      obtain ⟨q, hq, hfound⟩ := Tree.exists_at?_of_hasAt Path.selects_nil_of_isNil
        (fun u hu => Path.exists_at?_of_has rest hu) hat
      exact ⟨q, Path.selects_of_underKey hk hq, hfound⟩
  | .group ms rest, t, h => by
      rw [Path.has, Bool.and_eq_true, Bool.and_eq_true, Bool.not_eq_true', Bool.not_eq_true'] at h
      obtain ⟨⟨_, hne⟩, hms⟩ := h
      exact Members.exists_at?_of_has Path.selects_nil_of_isNil
        (fun u hu => Path.exists_at?_of_has rest hu) ms hne hms

theorem Members.exists_at?_of_has {isLast : Bool} {inner : Tree → Bool}
    {behind : List Key → Prop} (hlast : isLast = true → behind [])
    (hinner : ∀ u : Tree, inner u = true → ∃ q, behind q ∧ (u.at? q).isSome = true) :
    ∀ (ms : Members) {t : Tree}, ms.isNil = false → ms.has isLast inner t = true →
      ∃ q, ms.Selects behind q ∧ (t.at? q).isSome = true
  | .nil, t, hne, _ => by cases hne
  | .key text rest, t, _, h => by
      rw [Members.has, Bool.and_eq_true] at h
      obtain ⟨q, hq, hfound⟩ := Tree.exists_at?_of_hasAt hlast hinner h.1
      exact ⟨q, .inl hq, hfound⟩
  | .path sub rest, t, _, h => by
      rw [Members.has, Bool.and_eq_true] at h
      obtain ⟨q, hq, hfound⟩ := Path.exists_at?_of_has sub h.1
      exact ⟨q, .inl hq, hfound⟩

end

/-! ### Removing twice -/

theorem Path.remove_remove (keepEmpty : Bool) (p : Path) {t : Tree} (ht : t.Distinct) :
    p.remove keepEmpty (p.remove keepEmpty t) = p.remove keepEmpty t := by
  have hcut := p.remove_eq_cut keepEmpty ht
  calc p.remove keepEmpty (p.remove keepEmpty t)
      = (t.cut keepEmpty p.removal).cut keepEmpty p.removal := by
        rw [p.remove_eq_cut keepEmpty (ht.of_eq_cut hcut), hcut]
    _ = t.cut keepEmpty p.removal := by rw [Tree.cut_cut, Removal.join_self]
    _ = p.remove keepEmpty t := hcut.symm

theorem Path.not_selects_nil {p : Path} (hne : p ≠ .nil) (hsub : p.NoEmptySub) :
    ¬p.Selects [] := by
  intro hselects
  have hdropped := p.fate_removal_of_selects hne hsub hselects
  rw [p.fate_removal_nil] at hdropped
  split at hdropped
  · cases hdropped
  · cases hdropped

/-- Removing along a path exhausts what it selects.  Nothing selected is left, so the path is not
found any more, and removing again changes nothing. -/
theorem Path.remove_exhausts {t : Tree} (ht : t.Distinct) {p : Path} (hne : p ≠ .nil)
    (hsub : p.NoEmptySub) (keepEmpty : Bool) :
    (∀ q, p.Selects q → (p.remove keepEmpty t).at? q = none) ∧
      p.has (p.remove keepEmpty t) = false ∧
      p.remove keepEmpty (p.remove keepEmpty t) = p.remove keepEmpty t := by
  have hgone : ∀ q, p.Selects q → (p.remove keepEmpty t).at? q = none := by
    intro q hq
    have hdropped := p.fate_removal_of_selects hne hsub hq
    cases q with
    | nil => exact absurd hq (Path.not_selects_nil hne hsub)
    | cons k q =>
        rw [p.remove_eq_cut keepEmpty ht]
        exact Tree.at?_cut_of_dropped ht keepEmpty hdropped
  refine ⟨hgone, ?_, p.remove_remove keepEmpty ht⟩
  rw [← Bool.not_eq_true]
  intro hhas
  obtain ⟨q, hq, hfound⟩ := p.exists_at?_of_has hhas
  rw [hgone q hq] at hfound
  cases hfound

theorem Path.remove_exhausts_everyMark :
    markedRows.Distinct ∧ everyMark ≠ .nil ∧ everyMark.NoEmptySub ∧
      (∀ q, everyMark.Selects q → (everyMark.remove false markedRows).at? q = none) ∧
      everyMark.has (everyMark.remove false markedRows) = false ∧
      everyMark.remove false (everyMark.remove false markedRows) =
        everyMark.remove false markedRows := by
  have ht : markedRows.Distinct := markedRows_distinct
  have hne : everyMark ≠ .nil := by
    simp [everyMark]
  have hsub : everyMark.NoEmptySub := by
    simp [everyMark, Path.NoEmptySub, Members.NoEmptySub]
  exact ⟨ht, hne, hsub, Path.remove_exhausts ht hne hsub false⟩

end Quill
