import Quill.Proofs.Walk.Removal

/-!
# Removing what is not there

A path that selects nothing in a tree should leave the tree as it is, and a map should go only when
the removal has emptied it.  With empty maps kept both are so.  Without, a step prunes the map it
has been in whenever that map is empty afterwards, and it does not ask whether the map was empty
before: an empty map that the walk enters goes although nothing was removed from it.

The maps that a walk enters are told by the path alone, `Path.Enters`.  Main statement: a path that
selects nothing changes nothing exactly when empty maps are kept or no map that it enters is empty,
and under the same condition only what was selected goes, and what the selected values leave empty.
-/

namespace Quill

/-! ### The maps on the way -/

mutual

/-- The lists of keys at which a walk along a path enters a map. -/
def Path.Enters : Path → List Key → Prop
  | .nil, _ => False
  | .key _ _, [] => True
  | .key text rest, k :: ks => Path.segmentSelects text k ∧ rest.Enters ks
  | .group members rest, ks => members.Enters rest.Enters ks

/-- The lists of keys at which a walk along the members of a group enters a map; `behind` tells
where the path behind the group does. -/
def Members.Enters : Members → (List Key → Prop) → List Key → Prop
  | .nil, _, ks => ks = []
  | .key text rest, behind, ks =>
      (∃ tail, ks = .ofText text :: tail ∧ behind tail) ∨ rest.Enters behind ks
  | .path sub rest, behind, ks => sub.Enters ks ∨ rest.Enters behind ks

end

/-- No map that a walk along the path enters below the root is empty. -/
def Path.EntersNoEmpty (p : Path) (t : Tree) : Prop :=
  ∀ r, r ≠ [] → p.Enters r → t.at? r ≠ some (.map .nil)

/-! ### Fates and selected lists -/

theorem Fate.join_eq_entered {f g : Fate} (h : f.join g = .entered) :
    f = .entered ∨ g = .entered := by
  cases f <;> cases g <;> simp [Fate.join] at h ⊢

/-- Behind the last step nothing is entered. -/
theorem Removal.fate_behind_eq_entered {isLast : Bool} {c : Removal} {q : List Key}
    (h : (Removal.behind isLast c).fate q = .entered) : c.fate q = .entered := by
  cases isLast with
  | true => cases h
  | false => exact h

mutual

/-- Where a path gives the fate of being entered, a walk along it enters. -/
theorem Path.enters_of_fate : ∀ (p : Path) {r : List Key}, p.removal.fate r = .entered → p.Enters r
  | .nil, _, h => by
      rw [Path.removal] at h
      cases h
  | .key _ _, [], _ => trivial
  | .key text rest, k :: r, h => by
      rw [Path.removal] at h
      have hcase : (if Path.segmentSelects text k then
          (Removal.behind rest.isNil rest.removal).fate r else .spared) = .entered := h
      by_cases hk : Path.segmentSelects text k
      · rw [if_pos hk] at hcase
        exact ⟨hk, Path.enters_of_fate rest (Removal.fate_behind_eq_entered hcase)⟩
      · rw [if_neg hk] at hcase
        cases hcase
  | .group ms rest, r, h => by
      rw [Path.removal] at h
      refine Members.enters_of_fate (fun hr => ?_) ms h
      exact Path.enters_of_fate rest (Removal.fate_behind_eq_entered hr)

theorem Members.enters_of_fate {behind : List Key → Prop} {c : Removal}
    (hbehind : ∀ {r}, c.fate r = .entered → behind r) :
    ∀ (ms : Members) {r : List Key}, (ms.removal c).fate r = .entered → ms.Enters behind r
  | .nil, [], _ => rfl
  | .nil, k :: r, h => by
      rw [Members.removal] at h
      cases h
  | .key text rest, r, h => by
      rw [Members.removal] at h
      rcases Fate.join_eq_entered h with h | h
      · cases r with
        | nil => exact .inr (Members.enters_of_fate hbehind rest (rest.fate_removal_nil c))
        | cons k r =>
            have hcase : (if k = .ofText text then c.fate r else .spared) = .entered := h
            by_cases hk : k = .ofText text
            · rw [if_pos hk] at hcase
              exact .inl ⟨r, by rw [hk], hbehind hcase⟩
            · rw [if_neg hk] at hcase
              cases hcase
      · exact .inr (Members.enters_of_fate hbehind rest h)
  | .path sub rest, r, h => by
      rw [Members.removal] at h
      rcases Fate.join_eq_entered h with h | h
      · exact .inl (Path.enters_of_fate sub h)
      · exact .inr (Members.enters_of_fate hbehind rest h)

end

mutual

/-- What a walk enters is not spared.  It may be dropped: another member of a group may select
it. -/
theorem Path.fate_ne_spared_of_enters : ∀ (p : Path) {r : List Key}, p.Enters r →
    p.removal.fate r ≠ .spared
  | .nil, _, h => h.elim
  | .key text rest, [], _ => by
      rw [Path.removal]
      exact fun h => nomatch h
  | .key text rest, k :: r, ⟨hk, hr⟩ => by
      rw [Path.removal]
      show (if Path.segmentSelects text k then
        (Removal.behind rest.isNil rest.removal).fate r else .spared) ≠ .spared
      rw [if_pos hk]
      cases rest with
      | nil => exact hr.elim
      | key text' rest => exact Path.fate_ne_spared_of_enters _ hr
      | group ms rest => exact Path.fate_ne_spared_of_enters _ hr
  | .group ms rest, r, h => by
      rw [Path.removal]
      refine Members.fate_ne_spared_of_enters (fun hr => ?_) ms h
      cases rest with
      | nil => exact hr.elim
      | key text' rest => exact Path.fate_ne_spared_of_enters _ hr
      | group ms rest => exact Path.fate_ne_spared_of_enters _ hr

theorem Members.fate_ne_spared_of_enters {behind : List Key → Prop} {c : Removal}
    (hbehind : ∀ {r}, behind r → c.fate r ≠ .spared) :
    ∀ (ms : Members) {r : List Key}, ms.Enters behind r → (ms.removal c).fate r ≠ .spared
  | .nil, r, h => by
      have hr : r = [] := h
      rw [Members.removal, hr]
      exact fun h => nomatch h
  | .key text rest, r, h => by
      rw [Members.removal]
      intro hspared
      obtain ⟨hfirst, hothers⟩ := (Fate.join_eq_spared_iff _ _).mp hspared
      rcases h with ⟨tail, rfl, htail⟩ | h
      · have hcase : (if Key.ofText text = Key.ofText text then c.fate tail else .spared) =
            .spared := hfirst
        rw [if_pos rfl] at hcase
        exact hbehind htail hcase
      · exact Members.fate_ne_spared_of_enters hbehind rest h hothers
  | .path sub rest, r, h => by
      rw [Members.removal]
      intro hspared
      obtain ⟨hsub, hothers⟩ := (Fate.join_eq_spared_iff _ _).mp hspared
      rcases h with h | h
      · exact Path.fate_ne_spared_of_enters sub h hsub
      · exact Members.fate_ne_spared_of_enters hbehind rest h hothers

end

/-- Behind the last step the empty list is selected, and it begins every list. -/
theorem Path.covers_of_fate_behind {p : Path} {q : List Key}
    (h : p.removal.fate q = .dropped → Covers p.Selects q)
    (hq : (Removal.behind p.isNil p.removal).fate q = .dropped) : Covers p.Selects q := by
  cases p with
  | nil => exact ⟨[], rfl, List.nil_prefix⟩
  | key text rest => exact h hq
  | group ms rest => exact h hq

mutual

/-- A path drops only what a selected list begins. -/
theorem Path.covers_of_fate : ∀ (p : Path) {q : List Key}, p.removal.fate q = .dropped →
    Covers p.Selects q
  | .nil, _, h => by
      rw [Path.removal] at h
      cases h
  | .key _ _, [], h => by
      rw [Path.removal] at h
      cases h
  | .key text rest, k :: q, h => by
      rw [Path.removal] at h
      have hcase : (if Path.segmentSelects text k then
          (Removal.behind rest.isNil rest.removal).fate q else .spared) = .dropped := h
      by_cases hk : Path.segmentSelects text k
      · rw [if_pos hk] at hcase
        obtain ⟨s, hs, hbegins⟩ := Path.covers_of_fate_behind (Path.covers_of_fate rest) hcase
        exact ⟨k :: s, (Path.selects_key_cons text rest k s).mpr ⟨hk, hs⟩,
          List.cons_prefix_cons.mpr ⟨rfl, hbegins⟩⟩
      · rw [if_neg hk] at hcase
        cases hcase
  | .group ms rest, q, h => by
      rw [Path.removal] at h
      exact Members.covers_of_fate (Path.covers_of_fate_behind (Path.covers_of_fate rest)) ms h

theorem Members.covers_of_fate {behind : List Key → Prop} {c : Removal}
    (hbehind : ∀ {q}, c.fate q = .dropped → Covers behind q) :
    ∀ (ms : Members) {q : List Key}, (ms.removal c).fate q = .dropped →
      Covers (ms.Selects behind) q
  | .nil, [], h => by
      rw [Members.removal] at h
      cases h
  | .nil, _ :: _, h => by
      rw [Members.removal] at h
      cases h
  | .key text rest, q, h => by
      rw [Members.removal] at h
      rcases (Fate.join_eq_dropped_iff _ _).mp h with h | h
      · cases q with
        | nil => cases h
        | cons k q =>
            have hcase : (if k = .ofText text then c.fate q else .spared) = .dropped := h
            by_cases hk : k = .ofText text
            · rw [if_pos hk] at hcase
              have hcovers : Covers (UnderKey k behind) (k :: q) := covers_underKey (hbehind hcase)
              exact hcovers.mono fun s hs => .inl (hk ▸ hs)
            · rw [if_neg hk] at hcase
              cases hcase
      · exact (Members.covers_of_fate hbehind rest h).mono fun _ => .inr
  | .path sub rest, q, h => by
      rw [Members.removal] at h
      rcases (Fate.join_eq_dropped_iff _ _).mp h with h | h
      · exact (Path.covers_of_fate sub h).mono fun _ => .inl
      · exact (Members.covers_of_fate hbehind rest h).mono fun _ => .inr

end

/-! ### Cuts that change nothing -/

/-- A scalar that is not dropped itself stays. -/
theorem Value.cut_eq_self_of_not_map {keepEmpty : Bool} {c : Removal} {v : Value}
    (hv : v.isMap = false) (hnone : ∀ q, c.fate q = .dropped → v.at? q = none) :
    v.cut keepEmpty c = some v := by
  apply cut_of_not_map hv
  intro hdropped
  have habsent := hnone [] hdropped
  rw [at?_nil] at habsent
  cases habsent

mutual

/-- A cut that finds nothing to drop leaves a value as it is, if empty maps are kept or none is
entered. -/
theorem Value.cut_eq_self {keepEmpty : Bool} {c : Removal} : ∀ {v : Value}, v.Distinct →
    (∀ q, c.fate q = .dropped → v.at? q = none) →
    (keepEmpty = true ∨ ∀ r, c.fate r = .entered → v.at? r ≠ some (.map .nil)) →
    v.cut keepEmpty c = some v
  | .map t, ht, hnone, hempty => by
      cases hc : c.fate [] with
      | spared => exact Value.cut_of_spared hc _
      | dropped => cases hnone [] hc
      | entered =>
          have hsame : t.cut keepEmpty c = t :=
            Tree.cut_eq_self ht (fun k q => hnone (k :: q))
              (hempty.imp_right fun h k r => h (k :: r))
          rw [Value.cut_map_of_entered keepEmpty hc, hsame, if_neg]
          rw [Bool.and_eq_true, Tree.isEmpty_iff, Bool.not_eq_true']
          rintro ⟨rfl, hkeep⟩
          rcases hempty with h | h
          · rw [h] at hkeep
            cases hkeep
          · exact h [] hc rfl
  | .null, _, hnone, _ => Value.cut_eq_self_of_not_map rfl hnone
  | .bool _, _, hnone, _ => Value.cut_eq_self_of_not_map rfl hnone
  | .int _, _, hnone, _ => Value.cut_eq_self_of_not_map rfl hnone
  | .float _, _, hnone, _ => Value.cut_eq_self_of_not_map rfl hnone
  | .string _, _, hnone, _ => Value.cut_eq_self_of_not_map rfl hnone
  | .unset, _, hnone, _ => Value.cut_eq_self_of_not_map rfl hnone

/-- So it does with a tree; the root stays even if it is empty. -/
theorem Tree.cut_eq_self {keepEmpty : Bool} {c : Removal} : ∀ {t : Tree}, t.Distinct →
    (∀ k q, c.fate (k :: q) = .dropped → t.at? (k :: q) = none) →
    (keepEmpty = true ∨ ∀ k r, c.fate (k :: r) = .entered → t.at? (k :: r) ≠ some (.map .nil)) →
    t.cut keepEmpty c = t
  | .nil, _, _, _ => Tree.cut_nil _ _
  | .cons k v rest, ht, hnone, hempty => by
      obtain ⟨hk, hv, hrest⟩ := ht
      have hhead : v.cut keepEmpty (c.under k) = some v := by
        refine Value.cut_eq_self hv (fun q hq => ?_) (hempty.imp_right fun h r hr => ?_)
        · rw [← Tree.at?_cons_head k v rest]
          exact hnone k q hq
        · rw [← Tree.at?_cons_head k v rest]
          exact h k r hr
      have htail : rest.cut keepEmpty c = rest := by
        refine Tree.cut_eq_self hrest (fun k' q hq => ?_) (hempty.imp_right fun h k' r hr => ?_)
        · cases hfound : rest.at? (k' :: q) with
          | none => rfl
          | some w =>
              have habsent := hnone k' q hq
              rw [Tree.at?_cons_of_tail hk v hfound] at habsent
              cases habsent
        · intro hfound
          exact h k' r hr (Tree.at?_cons_of_tail hk v hfound)
      rw [Tree.cut_cons_of_some hhead, htail]

end

/-- A tree that a pruning cut leaves as it is has no empty map where the cut enters. -/
theorem Tree.at?_ne_empty_of_cut_eq_self {c : Removal} {t : Tree} (ht : t.Distinct)
    (h : t.cut false c = t) {k : Key} {r : List Key} (hr : c.fate (k :: r) = .entered) :
    t.at? (k :: r) ≠ some (.map .nil) := by
  -- On the list: in a tree that stays as it is every value stays as it is.
  induction r generalizing t c k with
  | nil =>
      intro hfound
      obtain ⟨v, hv, hempty⟩ := exists_get?_of_at? hfound
      rw [Value.at?_nil, Option.some.injEq] at hempty
      subst hempty
      have hcut := get?_cut ht.nodup_keys false c k
      have hfate : (c.under k).fate [] = .entered := hr
      rw [h, hv, Option.bind_some, Value.cut_map_of_entered false hfate] at hcut
      simp [isEmpty] at hcut
  | cons k' r ih =>
      intro hfound
      obtain ⟨v, hv, hbelow⟩ := exists_get?_of_at? hfound
      have hcut := get?_cut ht.nodup_keys false c k
      rw [h, hv, Option.bind_some] at hcut
      rcases Value.cut_cases hcut.symm with ⟨hnothing, _⟩ | ⟨hmap, _⟩ | ⟨child, rfl, _, hsame⟩
      · have hspared : (c.under k).fate (k' :: r) = .spared := by
          rw [hnothing]
          rfl
        have hentered : (c.under k).fate (k' :: r) = .entered := hr
        rw [hspared] at hentered
        cases hentered
      · rw [Value.at?_cons_of_not_map hmap] at hbelow
        cases hbelow
      · exact ih (ht.of_get? hv) (Value.map.inj hsame).symm hr hbelow

/-! ### What is gone after a cut -/

/-- A cut that keeps empty maps takes a value away only by dropping it. -/
theorem Value.cut_true_ne_none {c : Removal} (hc : c.fate [] ≠ .dropped) (v : Value) :
    v.cut true c ≠ none := by
  rcases v.exists_map_or_isMap_eq_false with ⟨t, rfl⟩ | hmap
  · cases hfate : c.fate [] with
    | spared => simp [cut_of_spared hfate]
    | entered => simp [cut_map_of_entered true hfate]
    | dropped => exact absurd hfate hc
  · rw [cut_of_not_map hmap hc]
    exact Option.some_ne_none v

/-- Nothing is left of a value only if it is dropped itself, or if it holds something dropped and
empty maps are not kept. -/
theorem Value.exists_dropped_of_cut_eq_none {keepEmpty : Bool} {c : Removal} {v : Value}
    (hv : v.Distinct)
    (hempty : keepEmpty = true ∨ ∀ r, c.fate r = .entered → v.at? r ≠ some (.map .nil))
    (h : v.cut keepEmpty c = none) :
    ∃ s, c.fate s = .dropped ∧ (v.at? s).isSome = true ∧ (s = [] ∨ keepEmpty = false) := by
  by_cases hdropped : c.fate [] = .dropped
  · refine ⟨[], hdropped, ?_, .inl rfl⟩
    rw [at?_nil, Option.isSome_some]
  · have hprunes : keepEmpty = false := by
      cases keepEmpty with
      | false => rfl
      | true => exact absurd h (cut_true_ne_none hdropped v)
    by_cases hsome : ∃ s, c.fate s = .dropped ∧ (v.at? s).isSome = true
    · obtain ⟨s, hs, hfound⟩ := hsome
      exact ⟨s, hs, hfound, .inr hprunes⟩
    · have hsame : v.cut keepEmpty c = some v := by
        refine cut_eq_self hv (fun s hs => ?_) hempty
        rw [← Option.not_isSome_iff_eq_none]
        exact fun hfound => hsome ⟨s, hs, hfound⟩
      rw [hsame] at h
      cases h

/-- What a cut takes away from a tree was dropped, itself or a map that holds it, or it is a map
that held something dropped. -/
theorem Tree.exists_dropped_of_at?_cut {keepEmpty : Bool} {c : Removal} {t : Tree} (ht : t.Distinct)
    (hempty : keepEmpty = true ∨
      ∀ k r, c.fate (k :: r) = .entered → t.at? (k :: r) ≠ some (.map .nil))
    {k : Key} {r : List Key} {w : Value} (hfound : t.at? (k :: r) = some w)
    (hgone : (t.cut keepEmpty c).at? (k :: r) = none) :
    ∃ s, c.fate (k :: s) = .dropped ∧ (t.at? (k :: s)).isSome = true ∧
      (s <+: r ∨ keepEmpty = false ∧ r <+: s) := by
  -- On the list: the fates below its first key are those of a removal again.
  induction r generalizing t c k with
  | nil =>
      obtain ⟨v, hv, _⟩ := exists_get?_of_at? hfound
      have hcut : v.cut keepEmpty (c.under k) = none := by
        rw [at?_cons, get?_cut ht.nodup_keys, hv, Option.bind_some] at hgone
        cases hleft : v.cut keepEmpty (c.under k) with
        | none => rfl
        | some u => simp [hleft, Value.at?_nil] at hgone
      have hbelow : keepEmpty = true ∨ ∀ r, (c.under k).fate r = .entered →
          v.at? r ≠ some (.map .nil) := by
        refine hempty.imp_right fun h r hr => ?_
        rw [← at?_of_get? hv]
        exact h k r hr
      obtain ⟨s, hs, hvalue, horder⟩ :=
        Value.exists_dropped_of_cut_eq_none (ht.of_get? hv) hbelow hcut
      refine ⟨s, hs, ?_, ?_⟩
      · rw [at?_of_get? hv]
        exact hvalue
      · rcases horder with rfl | hprunes
        · exact .inl List.nil_prefix
        · exact .inr ⟨hprunes, List.nil_prefix⟩
  | cons k' r ih =>
      obtain ⟨v, hv, hrest⟩ := exists_get?_of_at? hfound
      obtain ⟨child, rfl⟩ := Value.exists_map_of_at?_cons hrest
      by_cases hdropped : c.fate [k] = .dropped
      · refine ⟨[], hdropped, ?_, .inl List.nil_prefix⟩
        rw [at?_of_get? hv, Value.at?_nil, Option.isSome_some]
      · have hbelow : keepEmpty = true ∨ ∀ j q, (c.under k).fate (j :: q) = .entered →
            child.at? (j :: q) ≠ some (.map .nil) := by
          refine hempty.imp_right fun h j q hq => ?_
          have hne := h k (j :: q) hq
          rwa [at?_of_get? hv] at hne
        have hchild : (child.cut keepEmpty (c.under k)).at? (k' :: r) = none := by
          rw [at?_cons, get?_cut ht.nodup_keys, hv, Option.bind_some] at hgone
          cases hfate : (c.under k).fate [] with
          | dropped => exact absurd hfate hdropped
          | spared =>
              rw [Value.cut_of_spared hfate, Option.bind_some, hrest] at hgone
              cases hgone
          | entered =>
              rw [Value.cut_map_of_entered _ hfate] at hgone
              -- Either the child is emptied, and nothing is found in it, or it stays, cut.
              cases hgoes : (child.cut keepEmpty (c.under k)).isEmpty && !keepEmpty with
              | true =>
                  rw [Bool.and_eq_true, isEmpty_iff] at hgoes
                  rw [hgoes.1]
                  rfl
              | false =>
                  rw [hgoes] at hgone
                  exact hgone
        obtain ⟨s, hs, hvalue, horder⟩ := ih (ht.of_get? hv) hbelow hrest hchild
        refine ⟨k' :: s, hs, ?_, ?_⟩
        · rw [at?_of_get? hv]
          exact hvalue
        · simpa only [List.cons_prefix_cons, true_and] using horder

/-! ### Paths -/

/-- What a path selects is found wherever a longer list that it begins is found. -/
theorem Tree.isSome_at?_of_prefix {t : Tree} {s q : List Key} (h : s <+: q)
    (hq : (t.at? q).isSome = true) : (t.at? s).isSome = true := by
  obtain ⟨rest, rfl⟩ := h
  rw [at?, Value.at?_append] at hq
  exact Option.isSome_of_isSome_bind hq

/-- A path enters no empty map in a tree that holds none. -/
theorem Path.entersNoEmpty_of_everyValue {t : Tree} (h : t.EveryValue (· ≠ .map .nil)) (p : Path) :
    p.EntersNoEmpty t := by
  intro r hne _ hfound
  cases r with
  | nil => exact hne rfl
  | cons k r => exact h.at? hfound rfl

/-- The cut of a path enters no empty map if the path does not. -/
theorem Path.not_empty_of_fate {p : Path} {t : Tree} {keepEmpty : Bool}
    (h : keepEmpty = true ∨ p.EntersNoEmpty t) : keepEmpty = true ∨
      ∀ k r, p.removal.fate (k :: r) = .entered → t.at? (k :: r) ≠ some (.map .nil) := by
  refine h.imp_right fun hno k r hr => ?_
  exact hno (k :: r) (List.cons_ne_nil k r) (p.enters_of_fate hr)

/-- A path that selects nothing in a tree leaves it as it is exactly if empty maps are kept or it
enters none. -/
theorem Path.remove_eq_self_iff {t : Tree} (ht : t.Distinct) {p : Path}
    (hnone : ∀ q, p.Selects q → t.at? q = none) (keepEmpty : Bool) :
    p.remove keepEmpty t = t ↔ keepEmpty = true ∨ p.EntersNoEmpty t := by
  have hmissing : ∀ q, p.removal.fate q = .dropped → t.at? q = none := by
    intro q hq
    obtain ⟨s, hs, hbegins⟩ := p.covers_of_fate hq
    rw [← Option.not_isSome_iff_eq_none]
    intro hfound
    have hselected := Tree.isSome_at?_of_prefix hbegins hfound
    rw [hnone s hs] at hselected
    cases hselected
  rw [p.remove_eq_cut keepEmpty ht]
  constructor
  · intro hsame
    cases keepEmpty with
    | true => exact .inl rfl
    | false =>
        refine .inr fun r hne hr hfound => ?_
        cases r with
        | nil => exact hne rfl
        | cons k r =>
            cases hfate : p.removal.fate (k :: r) with
            | spared => exact p.fate_ne_spared_of_enters hr hfate
            | entered => exact Tree.at?_ne_empty_of_cut_eq_self ht hsame hfate hfound
            | dropped =>
                rw [hmissing _ hfate] at hfound
                cases hfound
  · exact fun h => Tree.cut_eq_self ht (fun k q => hmissing (k :: q)) (not_empty_of_fate h)

/-- What is gone was selected, is inside of what was selected, or was a map around it. -/
theorem Path.exists_selected_of_gone {t : Tree} (ht : t.Distinct) {p : Path} {keepEmpty : Bool}
    (h : keepEmpty = true ∨ p.EntersNoEmpty t) {r : List Key} {v : Value}
    (hfound : t.at? r = some v) (hgone : (p.remove keepEmpty t).at? r = none) :
    ∃ s, p.Selects s ∧ (t.at? s).isSome = true ∧ (s <+: r ∨ keepEmpty = false ∧ r <+: s) := by
  rw [p.remove_eq_cut keepEmpty ht] at hgone
  cases r with
  | nil => cases hgone
  | cons k r =>
      obtain ⟨q, hq, hvalue, horder⟩ :=
        Tree.exists_dropped_of_at?_cut ht (not_empty_of_fate h) hfound hgone
      obtain ⟨s, hs, hbegins⟩ := p.covers_of_fate hq
      refine ⟨s, hs, Tree.isSome_at?_of_prefix hbegins hvalue, ?_⟩
      rcases horder with horder | ⟨hprunes, horder⟩
      · exact .inl (hbegins.trans (List.cons_prefix_cons.mpr ⟨rfl, horder⟩))
      · -- Both lists begin the dropped one, so one of them begins the other.
        have hlonger : k :: r <+: k :: q := List.cons_prefix_cons.mpr ⟨rfl, horder⟩
        exact (List.prefix_or_prefix_of_prefix hbegins hlonger).imp_right fun h => ⟨hprunes, h⟩

/-- Removing takes away nothing that is not selected, and prunes nothing that it has not emptied,
provided that empty maps are kept or that the path enters no empty one.  A path that selects nothing
in the tree changes it exactly if the proviso fails, and what is gone from a tree was selected, is
inside of what was selected, or was a map around something selected. -/
theorem Path.remove_prunes_only_emptied {t : Tree} (ht : t.Distinct) (p : Path)
    (keepEmpty : Bool) :
    ((∀ q, p.Selects q → t.at? q = none) →
      (p.remove keepEmpty t = t ↔ keepEmpty = true ∨ p.EntersNoEmpty t)) ∧
    (keepEmpty = true ∨ p.EntersNoEmpty t →
      ∀ r v, t.at? r = some v → (p.remove keepEmpty t).at? r = none →
        ∃ s, p.Selects s ∧ (t.at? s).isSome = true ∧ (s <+: r ∨ keepEmpty = false ∧ r <+: s)) := by
  constructor
  · intro hnone
    exact remove_eq_self_iff ht hnone keepEmpty
  · intro h r v hfound hgone
    exact exists_selected_of_gone ht h hfound hgone

/-- A note deep below every row. -/
def everyNote : Path :=
  .key "*" (.key "note" (.key "deep" .nil))

/-- No row has a note. -/
theorem at?_of_selects_everyNote {q : List Key} (hq : everyNote.Selects q) :
    markedRows.at? q = none := by
  cases q with
  | nil => exact absurd hq (Path.not_selects_key_nil _ _)
  | cons k q =>
      obtain ⟨_, hbehind⟩ := (Path.selects_key_cons _ _ _ _).mp hq
      cases q with
      | nil => exact absurd hbehind (Path.not_selects_key_nil _ _)
      | cons k' q =>
          obtain ⟨hk', _⟩ := (Path.selects_key_cons _ _ _ _).mp hbehind
          have hnote : k' = .name "note" := hk'.resolve_left (by decide)
          subst hnote
          rw [Tree.at?_cons]
          by_cases ha : k = .name "a"
          · subst ha
            rfl
          · by_cases hb : k = .name "b"
            · subst hb
              rfl
            · simp [markedRows, Tree.get?, Ne.symm ha, Ne.symm hb]

theorem Path.remove_prunes_only_emptied_markedRows :
    markedRows.Distinct ∧
      (∀ q, everyNote.Selects q → markedRows.at? q = none) ∧
      everyNote.EntersNoEmpty markedRows ∧ everyNote.remove false markedRows = markedRows ∧
      everyMark.EntersNoEmpty markedRows ∧
      (everyMark.remove false markedRows).at? [.name "b"] = none ∧
      ∃ s, everyMark.Selects s ∧ (markedRows.at? s).isSome = true ∧
        (s <+: [.name "b"] ∨ false = false ∧ [.name "b"] <+: s) := by
  have ht : markedRows.Distinct := markedRows_distinct
  have hfilled : markedRows.EveryValue (· ≠ .map .nil) := by
    simp [markedRows, Tree.EveryValue, Value.Everywhere]
  have hnone : ∀ q, everyNote.Selects q → markedRows.at? q = none := fun _ =>
    at?_of_selects_everyNote
  have hnote : everyNote.EntersNoEmpty markedRows := Path.entersNoEmpty_of_everyValue hfilled _
  have hmark : everyMark.EntersNoEmpty markedRows := Path.entersNoEmpty_of_everyValue hfilled _
  have hgone : (everyMark.remove false markedRows).at? [.name "b"] = none := by
    decide
  have hsame := ((Path.remove_prunes_only_emptied ht everyNote false).1 hnone).mpr (.inr hnote)
  have hemptied := (Path.remove_prunes_only_emptied ht everyMark false).2 (.inr hmark)
    [.name "b"] _ rfl hgone
  exact ⟨ht, hnone, hnote, hsame, hmark, hgone, hemptied⟩

/-- A map that was empty before is pruned: a path that selects nothing in the tree empties it. -/
theorem Path.remove_missing_prunes_empty :
    let t := Tree.cons (.name "a") (.map .nil) .nil
    let p := Path.ofKeys ["a", "b"]
    t.Distinct ∧ (∀ q, p.Selects q → t.at? q = none) ∧ p.remove false t = .nil ∧ t ≠ .nil := by
  intro t p
  refine ⟨by simp [t, Tree.Distinct, Value.Distinct, Tree.keys], ?_, by decide, by simp [t]⟩
  intro q hq
  obtain rfl := (Path.selects_ofKeys ["a", "b"] (by decide) q).mp hq
  decide

end Quill
