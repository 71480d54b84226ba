import Quill.Proofs.Tree.Merging

/-!
# Merging as a union

A merge that neither removes nor appends is the union of the two trees, and where they disagree the
incoming one wins: with its leaves, which take the place of whatever is there, and with its maps,
which take the place of leaves and are united with maps.  Look-ups along lists of keys say this
without any recursion, and with the order of the keys in each map they say all there is to say about
the result.  That a merge done twice is a merge done once follows from there.
-/

namespace Quill.Tree

/-- A leaf stands on the way along a list of keys, before its end. -/
def LeafBefore (t : Tree) (q : List Key) : Prop :=
  ∃ p v, p <+: q ∧ p ≠ q ∧ t.at? p = some v ∧ v.isMap = false

/-- What the union `c` of `a` and `b` holds at the end of a list of keys. -/
structure IsUnionAt (a b c : Tree) (q : List Key) : Prop where
  /-- A leaf of `b` is there. -/
  leaf : ∀ v, b.at? q = some v → v.isMap = false → c.at? q = some v
  /-- Nothing is there behind a leaf of `b`. -/
  behind : b.LeafBefore q → c.at? q = none
  /-- Of two maps there are the keys of both, those of `a` first and the new ones after them. -/
  maps : ∀ x y, a.at? q = some (.map x) → b.at? q = some (.map y) →
    ∃ z, c.at? q = some (.map z) ∧ z.keys = x.keys ++ y.keys.filter (· ∉ x.keys)
  /-- A map of `b` is there as it is if `a` has none. -/
  map : ∀ y, b.at? q = some (.map y) → (∀ x, a.at? q ≠ some (.map x)) → c.at? q = some (.map y)
  /-- Elsewhere there is what `a` holds. -/
  rest : b.at? q = none → ¬b.LeafBefore q → c.at? q = a.at? q

/-- `c` is the union of `a` and `b` in which `b` wins. -/
def IsUnion (a b c : Tree) : Prop :=
  ∀ q, IsUnionAt a b c q

variable {a b c d x y z : Tree} {k : Key} {q : List Key} {v : Value}

/-! ### Leaves on the way -/

theorem not_leafBefore_nil (t : Tree) : ¬t.LeafBefore [] := by
  rintro ⟨p, v, hp, hne, _⟩
  exact hne (List.prefix_nil.mp hp)

/-- The first leaf on the way is the value under the first key, or it is below that. -/
theorem leafBefore_cons_iff {t : Tree} :
    t.LeafBefore (k :: q) ↔ ∃ w, t.get? k = some w ∧
      (w.isMap = false ∧ q ≠ [] ∨ ∃ child, w = .map child ∧ child.LeafBefore q) := by
  constructor
  · rintro ⟨p, v, hp, hne, hv, hleaf⟩
    cases p with
    | nil =>
        rw [at?_nil, Option.some.injEq] at hv
        rw [← hv] at hleaf
        cases hleaf
    | cons k' p =>
        obtain ⟨rfl, hprefix⟩ := List.cons_prefix_cons.mp hp
        have hshort : p ≠ q := fun heq => hne (congrArg _ heq)
        obtain ⟨w, hw, hbelow⟩ := exists_get?_of_at? hv
        refine ⟨w, hw, ?_⟩
        rcases w.exists_map_or_isMap_eq_false with ⟨child, rfl⟩ | hmap
        · exact .inr ⟨child, rfl, p, v, hprefix, hshort, hbelow, hleaf⟩
        · refine .inl ⟨hmap, ?_⟩
          rintro rfl
          exact hshort (List.prefix_nil.mp hprefix)
  · rintro ⟨w, hw, ⟨hmap, hq⟩ | ⟨child, rfl, p, v, hp, hne, hv, hleaf⟩⟩
    · exact ⟨[k], w, by simp, by simpa using hq.symm, by rw [at?_singleton, hw], hmap⟩
    · refine ⟨k :: p, v, List.cons_prefix_cons.mpr ⟨rfl, hp⟩, ?_, ?_, hleaf⟩
      · exact fun heq => hne (List.cons.inj heq).2
      · rw [at?_of_get? hw]
        exact hv

/-- Nothing is behind a leaf. -/
theorem at?_eq_none_of_leafBefore {t : Tree} (h : t.LeafBefore q) : t.at? q = none := by
  obtain ⟨p, v, ⟨tail, rfl⟩, hne, hv, hleaf⟩ := h
  have htail : tail ≠ [] := fun hnil => hne (by simp [hnil])
  obtain ⟨k, ks, rfl⟩ := List.exists_cons_of_ne_nil htail
  rw [at?_append, hv, Option.bind_some, Value.at?_cons_of_not_map hleaf]

/-! ### One key further -/

namespace IsUnionAt

theorem cons_of_none (hb : b.get? k = none) (hc : c.get? k = a.get? k) (q : List Key) :
    IsUnionAt a b c (k :: q) := by
  have hnone : b.at? (k :: q) = none := by rw [at?_cons, hb, Option.bind_none]
  have hbefore : ¬b.LeafBefore (k :: q) := by
    rw [leafBefore_cons_iff]
    rintro ⟨w, hw, _⟩
    rw [hb] at hw
    cases hw
  constructor
  · intro v hv
    rw [hnone] at hv
    cases hv
  · exact fun h => absurd h hbefore
  · intro x y _ hy
    rw [hnone] at hy
    cases hy
  · intro y hy
    rw [hnone] at hy
    cases hy
  · intro _ _
    rw [at?_cons, at?_cons, hc]

theorem cons_of_leaf (hb : b.get? k = some v) (hc : c.get? k = some v) (hmap : v.isMap = false)
    (q : List Key) : IsUnionAt a b c (k :: q) := by
  have hsame : c.at? (k :: q) = b.at? (k :: q) := by rw [at?_of_get? hb, at?_of_get? hc]
  have hleaf : ∀ y, b.at? (k :: q) ≠ some (.map y) := by
    intro y hy
    rw [at?_of_get? hb] at hy
    cases q with
    | nil =>
        rw [Value.at?_nil, Option.some.injEq] at hy
        rw [hy] at hmap
        cases hmap
    | cons k' q =>
        rw [Value.at?_cons_of_not_map hmap] at hy
        cases hy
  constructor
  · intro w hw _
    rw [hsame, hw]
  · intro h
    rw [hsame, at?_eq_none_of_leafBefore h]
  · exact fun x y _ hy => absurd hy (hleaf y)
  · exact fun y hy _ => absurd hy (hleaf y)
  · intro hnone hbefore
    -- Only behind the leaf there is nothing, and there the leaf stands before the end.
    refine absurd (leafBefore_cons_iff.mpr ⟨v, hb, .inl ⟨hmap, ?_⟩⟩) hbefore
    rintro rfl
    rw [at?_singleton, hb] at hnone
    cases hnone

theorem cons_of_maps (ha : a.get? k = some (.map x)) (hb : b.get? k = some (.map y))
    (hc : c.get? k = some (.map z)) (h : IsUnionAt x y z q) : IsUnionAt a b c (k :: q) := by
  have hbefore : b.LeafBefore (k :: q) ↔ y.LeafBefore q := by
    rw [leafBefore_cons_iff, hb]
    simp [Value.isMap]
  have hat : a.at? (k :: q) = x.at? q := at?_of_get? ha q
  have hbt : b.at? (k :: q) = y.at? q := at?_of_get? hb q
  have hct : c.at? (k :: q) = z.at? q := at?_of_get? hc q
  constructor
  · rw [hbt, hct]
    exact h.leaf
  · rw [hbefore, hct]
    exact h.behind
  · rw [hat, hbt, hct]
    exact h.maps
  · rw [hat, hbt, hct]
    exact h.map
  · rw [hat, hbt, hct, hbefore]
    exact h.rest

theorem cons_of_newMap (ha : ∀ x, a.get? k ≠ some (.map x)) (hb : b.get? k = some (.map y))
    (hc : c.get? k = some (.map y)) (q : List Key) : IsUnionAt a b c (k :: q) := by
  have hsame : c.at? (k :: q) = b.at? (k :: q) := by rw [at?_of_get? hb, at?_of_get? hc]
  constructor
  · intro v hv _
    rw [hsame, hv]
  · intro h
    rw [hsame, at?_eq_none_of_leafBefore h]
  · intro x y' hx _
    cases (eq_nil_of_at?_cons ha hx).2
  · intro y' hy' _
    rw [hsame, hy']
  · intro hnone _
    rw [hsame, hnone]
    cases hfound : a.at? (k :: q) with
    | none => rfl
    | some v =>
        obtain ⟨rfl, _⟩ := eq_nil_of_at?_cons ha hfound
        rw [at?_singleton, hb] at hnone
        cases hnone

end IsUnionAt

/-! ### The clauses determine the union -/

theorem IsUnion.unique (hc : c.Distinct) (h : IsUnion a b c) (h' : IsUnion a b d) : c = d := by
  refine eq_of_at?_eq hc fun q => ?_
  cases hb : b.at? q with
  | none =>
      by_cases hbefore : b.LeafBefore q
      · exact .inl (by rw [(h q).behind hbefore, (h' q).behind hbefore])
      · exact .inl (by rw [(h q).rest hb hbefore, (h' q).rest hb hbefore])
  | some v =>
      rcases v.exists_map_or_isMap_eq_false with ⟨y, rfl⟩ | hmap
      · obtain ⟨x, hx⟩ | hnone := Value.exists_map_or_no_map (a.at? q)
        · obtain ⟨z, hz, hkeys⟩ := (h q).maps x y hx hb
          obtain ⟨z', hz', hkeys'⟩ := (h' q).maps x y hx hb
          exact .inr ⟨z, z', hz, hz', hkeys.trans hkeys'.symm⟩
        · exact .inl (by rw [(h q).map y hb hnone, (h' q).map y hb hnone])
      · exact .inl (by rw [(h q).leaf v hb hmap, (h' q).leaf v hb hmap])

/-- A tree is its union with itself. -/
theorem isUnion_self (a : Tree) : IsUnion a a a := by
  intro q
  constructor
  · exact fun v hv _ => hv
  · exact at?_eq_none_of_leafBefore
  · intro x y hx hy
    rw [hx, Option.some.injEq, Value.map.injEq] at hy
    refine ⟨x, hx, ?_⟩
    simp [← hy]
  · exact fun y hy _ => hy
  · exact fun _ _ => rfl

/-- The union with the same tree again adds nothing. -/
theorem IsUnion.again (h : IsUnion a b c) : IsUnion c b c := by
  intro q
  constructor
  · exact (h q).leaf
  · exact (h q).behind
  · intro x' y hx' hy
    refine ⟨x', hx', ?_⟩
    -- The keys of the map in `b` are all there already.
    have hthere : ∀ k ∈ y.keys, k ∈ x'.keys := by
      intro k hk
      obtain ⟨x, hx⟩ | hnone := Value.exists_map_or_no_map (a.at? q)
      · obtain ⟨z, hz, hkeys⟩ := (h q).maps x y hx hy
        rw [hx', Option.some.injEq, Value.map.injEq] at hz
        rw [hz, hkeys, List.mem_append, List.mem_filter]
        by_cases hold : k ∈ x.keys
        · exact .inl hold
        · exact .inr ⟨hk, by simpa using hold⟩
      · have hz := (h q).map y hy hnone
        rw [hx', Option.some.injEq, Value.map.injEq] at hz
        rwa [hz]
    have hnew : y.keys.filter (· ∉ x'.keys) = [] := by
      simpa [List.filter_eq_nil_iff] using hthere
    rw [hnew, List.append_nil]
  · intro y hy hno
    obtain ⟨x, hx⟩ | hnone := Value.exists_map_or_no_map (a.at? q)
    · obtain ⟨z, hz, _⟩ := (h q).maps x y hx hy
      exact absurd hz (hno z)
    · exact (h q).map y hy hnone
  · exact fun _ _ => rfl

/-! ### A merge is the union -/

section Merge

variable {o : MergeOptions}

/-- Nothing is removed, and nothing is appended where index keys are merged like names or where
there are none. -/
theorem keeps_of_mem (ho : o.allowRemoval = false)
    (hmode : o.indices = .strict ∨ b.EveryKey (·.isIndex = false)) (hb : b.keys.Nodup) :
    ∀ e ∈ b.toList, Keeps o e.1 e.2 := by
  rintro ⟨k, v⟩ he
  have hstays : ¬Removes o v := by
    rintro ⟨hremoval, _⟩
    rw [ho] at hremoval
    cases hremoval
  refine ⟨hstays, ?_⟩
  unfold appends
  obtain hstrict | hnames := hmode
  · rw [hstrict, Bool.and_false]
  · rw [(hnames.of_get? (get?_of_mem_toList hb he)).1, Bool.false_and]

/-- What a merge puts at the end of any list of keys. -/
theorem isUnionAt_merge (ho : o.allowRemoval = false)
    (hmode : o.indices = .strict ∨ b.EveryKey (·.isIndex = false)) (hb : b.Distinct) (a : Tree)
    (q : List Key) : IsUnionAt a b (merge o a b) q := by
  induction q generalizing a b with
  | nil =>
      have hkeeps := keeps_of_mem ho hmode hb.nodup_keys
      constructor
      · intro v hv hleaf
        rw [at?_nil, Option.some.injEq] at hv
        rw [← hv] at hleaf
        cases hleaf
      · exact fun h => absurd h (not_leafBefore_nil b)
      · intro x y hx hy
        simp only [at?_nil, Option.some.injEq, Value.map.injEq] at hx hy
        subst hx hy
        exact ⟨_, at?_nil _, by rw [merge_eq_absorb hkeeps hb.nodup_keys,
          keys_absorb hkeeps hb.nodup_keys]⟩
      · exact fun y _ hno => absurd (at?_nil a) (hno a)
      · intro hnone
        rw [at?_nil] at hnone
        cases hnone
  | cons k q ih =>
      have hkeeps := keeps_of_mem ho hmode hb.nodup_keys
      rw [merge_eq_absorb hkeeps hb.nodup_keys]
      cases hw : b.get? k with
      | none =>
          have hnot : k ∉ b.keys := (get?_eq_none_iff b k).mp hw
          exact .cons_of_none hw (get?_absorb_of_not_mem hkeeps hnot) q
      | some w =>
          have hput := get?_absorb_of_keeps (a := a) hb.nodup_keys hw
            (hkeeps _ (mem_toList_of_get? hw))
          rcases w.exists_map_or_isMap_eq_false with ⟨y, rfl⟩ | hmap
          · obtain ⟨x, hx⟩ | hno := Value.exists_map_or_no_map (a.get? k)
            · rw [hx, mergedWith_maps] at hput
              have hbelow := hmode.imp_right fun hnames => (hnames.of_get? hw).2
              exact .cons_of_maps hx hw hput (ih hbelow (hb.of_get? hw) x)
            · rw [mergedWith_of_no_map o hno] at hput
              exact .cons_of_newMap hno hw hput q
          · rw [mergedWith_of_isMap_eq_false o _ hmap] at hput
            exact .cons_of_leaf hw hput hmap q

/-- A merge without removal is the recursive union in which the incoming tree wins, when index keys
are merged like names or when the incoming tree has none at any depth.  So a tree merged into itself
stays as it is, and merging the same tree a second time changes nothing, the order of keys
included. -/
theorem merge_isUnion (ho : o.allowRemoval = false) (ha : a.Distinct) (hb : b.Distinct)
    (hmode : o.indices = .strict ∨ b.EveryKey (·.isIndex = false)) :
    IsUnion a b (merge o a b) ∧ merge o b b = b ∧ merge o (merge o a b) b = merge o a b := by
  have hunion : ∀ t, IsUnion t b (merge o t b) := fun t => isUnionAt_merge ho hmode hb t
  refine ⟨hunion a, ?_, ?_⟩
  · exact (hunion b).unique (hb.merge hb) (isUnion_self b)
  · exact (hunion (merge o a b)).unique ((ha.merge hb).merge hb) (hunion a).again

/-- Under index keys a map meets a leaf, an empty map and a map, and a leaf meets a map. -/
theorem merge_isUnion_overlaidRows :
    let a := Tree.sequence [.int 1, .map .nil, .map (.cons (.name "x") (.int 2) .nil)]
    let b := Tree.sequence [.map (.cons (.index 7) .null .nil), .map (.cons (.index 5) .unset .nil),
      .map (.cons (.name "y") (.map .nil) (.cons (.name "x") (.map .nil) .nil))]
    let c := Tree.sequence [.map (.cons (.index 7) .null .nil), .map (.cons (.index 5) .unset .nil),
      .map (.cons (.name "x") (.map .nil) (.cons (.name "y") (.map .nil) .nil))]
    a.Distinct ∧ b.Distinct ∧ merge ⟨.strict, false⟩ a b = c ∧ IsUnion a b c ∧
      merge ⟨.strict, false⟩ b b = b ∧ merge ⟨.strict, false⟩ c b = c := by
  intro a b c
  have ha : a.Distinct := by simp [a, sequence, sequenceFrom, Distinct, Value.Distinct, keys]
  have hb : b.Distinct := by simp [b, sequence, sequenceFrom, Distinct, Value.Distinct, keys]
  have hc : merge ⟨.strict, false⟩ a b = c := by decide
  have h := merge_isUnion (o := ⟨.strict, false⟩) rfl ha hb (.inl rfl)
  rw [hc] at h
  exact ⟨ha, hb, hc, h⟩

end Merge

end Quill.Tree
