import Quill.Tree.Lemmas

/-!
# Trees at every depth

What holds at every depth of a tree: predicates on all its keys and on all its values, the
distinctness of the keys of every map in it, and the value at the end of a list of keys.
-/

namespace Quill

mutual

/-- Every key below a value has a property. -/
def Value.EveryKey (P : Key → Prop) : Value → Prop
  | .map t => t.EveryKey P
  | _ => True

/-- Every key of a tree, at any depth, has a property. -/
def Tree.EveryKey (P : Key → Prop) : Tree → Prop
  | .nil => True
  | .cons k v rest => P k ∧ v.EveryKey P ∧ rest.EveryKey P

end

mutual

/-- A value and every value below it have a property. -/
def Value.Everywhere (P : Value → Prop) : Value → Prop
  | .map t => P (.map t) ∧ t.EveryValue P
  | v => P v

/-- Every value in a tree, at any depth, has a property. -/
def Tree.EveryValue (P : Value → Prop) : Tree → Prop
  | .nil => True
  | .cons _ v rest => v.Everywhere P ∧ rest.EveryValue P

end

mutual

/-- No map in a value has a key twice. -/
def Value.Distinct : Value → Prop
  | .map t => t.Distinct
  | _ => True

/-- No map in a tree, the tree itself included, has a key twice. -/
def Tree.Distinct : Tree → Prop
  | .nil => True
  | .cons k v rest => k ∉ rest.keys ∧ v.Distinct ∧ rest.Distinct

end

mutual

/-- The greatest number of maps inside one another, in a value. -/
def Value.depth : Value → Nat
  | .map t => t.depth
  | _ => 0

/-- The greatest number of maps inside one another, the tree itself included. -/
def Tree.depth : Tree → Nat
  | .nil => 1
  | .cons _ v rest => max (v.depth + 1) rest.depth

end

/-- The value at the end of a list of keys. -/
def Value.at? : Value → List Key → Option Value
  | v, [] => some v
  | .map t, k :: ks =>
      match t.get? k with
      | some v => v.at? ks
      | none => none
  | _, _ :: _ => none

/-- The value at the end of a list of keys; the tree itself is at the end of none. -/
def Tree.at? (t : Tree) (ks : List Key) : Option Value :=
  (Value.map t).at? ks

namespace Value

theorem exists_map_or_isMap_eq_false (v : Value) : (∃ child, v = .map child) ∨ v.isMap = false := by
  cases v with
  | map child => exact .inl ⟨child, rfl⟩
  | _ => exact .inr rfl

theorem exists_map_or_no_map (found : Option Value) :
    (∃ x, found = some (.map x)) ∨ ∀ x, found ≠ some (.map x) := by
  by_cases h : ∃ x, found = some (.map x)
  · exact .inl h
  · exact .inr (not_exists.mp h)

theorem at?_nil (v : Value) : v.at? [] = some v := by
  cases v <;> rfl

theorem at?_map_cons (t : Tree) (k : Key) (ks : List Key) :
    (Value.map t).at? (k :: ks) = (t.get? k).bind (·.at? ks) := by
  cases h : t.get? k <;> simp [at?, h]

theorem at?_cons_of_not_map {v : Value} (h : v.isMap = false) (k : Key) (ks : List Key) :
    v.at? (k :: ks) = none := by
  cases v with
  | map t => simp [isMap] at h
  | _ => rfl

/-- Only maps have something behind a further key. -/
theorem exists_map_of_at?_cons {v : Value} {k : Key} {ks : List Key} {w : Value}
    (h : v.at? (k :: ks) = some w) : ∃ child, v = .map child := by
  refine v.exists_map_or_isMap_eq_false.resolve_right fun hmap => ?_
  rw [at?_cons_of_not_map hmap] at h
  cases h

theorem Everywhere.here {P : Value → Prop} {v : Value} (h : v.Everywhere P) : P v := by
  cases v with
  | map t => exact h.1
  | _ => exact h

theorem Everywhere.of_leaf {P : Value → Prop} {v : Value} (h : v.isMap = false) (hv : P v) :
    v.Everywhere P := by
  cases v with
  | map t => cases h
  | _ => exact hv

/-- Walking two lists of keys, one after the other. -/
theorem at?_append (v : Value) (ks ls : List Key) :
    v.at? (ks ++ ls) = (v.at? ks).bind (·.at? ls) := by
  induction ks generalizing v with
  | nil => simp [at?_nil]
  | cons k ks ih =>
      by_cases hm : v.isMap
      · cases v with
        | map t =>
            rw [List.cons_append, at?_map_cons, at?_map_cons]
            cases t.get? k with
            | none => rfl
            | some w => exact ih w
        | _ => simp [isMap] at hm
      · have hm : v.isMap = false := by simpa using hm
        rw [List.cons_append, at?_cons_of_not_map hm, at?_cons_of_not_map hm]
        rfl

end Value

namespace Tree

/-- Induction over the entries of a tree and over the maps that they hold. -/
@[elab_as_elim]
theorem deepInduction {motive : Tree → Prop} (nil : motive .nil)
    (cons : ∀ k v rest, (∀ child, v = .map child → motive child) → motive rest →
      motive (.cons k v rest)) : ∀ t, motive t
  | .nil => nil
  | .cons k v rest =>
      cons k v rest (fun child _ => deepInduction nil cons child) (deepInduction nil cons rest)
termination_by t => sizeOf t
decreasing_by
  · subst_vars
    simp only [Tree.cons.sizeOf_spec, Value.map.sizeOf_spec]
    omega
  · simp only [Tree.cons.sizeOf_spec]
    omega

/-- Induction over the maps that a tree holds. -/
@[elab_as_elim]
theorem childInduction {motive : Tree → Prop}
    (step : ∀ t, (∀ k child, t.get? k = some (.map child) → motive child) → motive t) (t : Tree) :
    motive t := by
  -- The entries are gone through one by one, so the claim on the tree comes with that on its maps.
  suffices h : motive t ∧ ∀ k child, t.get? k = some (.map child) → motive child from h.1
  induction t using deepInduction with
  | nil =>
      have hnone : ∀ k child, Tree.nil.get? k = some (.map child) → motive child := by
        intro k child h
        cases h
      exact ⟨step _ hnone, hnone⟩
  | cons k v rest ihv ihrest =>
      have hbelow : ∀ key child, (Tree.cons k v rest).get? key = some (.map child) →
          motive child := by
        intro key child h
        by_cases hk : k = key
        · rw [get?, if_pos hk, Option.some.injEq] at h
          exact (ihv child h).1
        · rw [get?, if_neg hk] at h
          exact ihrest.2 key child h
      exact ⟨step _ hbelow, hbelow⟩

theorem at?_nil (t : Tree) : t.at? [] = some (.map t) := rfl

theorem at?_cons (t : Tree) (k : Key) (ks : List Key) :
    t.at? (k :: ks) = (t.get? k).bind (·.at? ks) :=
  Value.at?_map_cons t k ks

theorem at?_singleton (t : Tree) (k : Key) : t.at? [k] = t.get? k := by
  rw [at?_cons]
  cases t.get? k with
  | none => rfl
  | some v => exact Value.at?_nil v

/-- Walking two lists of keys, one after the other. -/
theorem at?_append (t : Tree) (ks ls : List Key) :
    t.at? (ks ++ ls) = (t.at? ks).bind (·.at? ls) :=
  Value.at?_append _ _ _

theorem at?_of_get? {t : Tree} {k : Key} {v : Value} (h : t.get? k = some v) (ks : List Key) :
    t.at? (k :: ks) = v.at? ks := by
  rw [at?_cons, h, Option.bind_some]

theorem at?_cons_head (k : Key) (v : Value) (rest : Tree) (ks : List Key) :
    (Tree.cons k v rest).at? (k :: ks) = v.at? ks := by
  rw [at?_cons, get?, if_pos rfl, Option.bind_some]

theorem at?_cons_of_ne {k k' : Key} (h : k ≠ k') (v : Value) (rest : Tree) (ks : List Key) :
    (Tree.cons k v rest).at? (k' :: ks) = rest.at? (k' :: ks) := by
  rw [at?_cons, at?_cons, get?, if_neg h]

/-- What is found behind the first key of a list is found in the value under that key. -/
theorem exists_get?_of_at? {t : Tree} {k : Key} {ks : List Key} {w : Value}
    (h : t.at? (k :: ks) = some w) : ∃ v, t.get? k = some v ∧ v.at? ks = some w := by
  rw [at?_cons] at h
  exact Option.bind_eq_some_iff.mp h

/-- What is found behind the first entry of a tree is found in the tree. -/
theorem at?_cons_of_tail {k : Key} {rest : Tree} (hk : k ∉ rest.keys) (v : Value) {k' : Key}
    {ks : List Key} {w : Value} (h : rest.at? (k' :: ks) = some w) :
    (Tree.cons k v rest).at? (k' :: ks) = some w := by
  obtain ⟨u, hu, _⟩ := exists_get?_of_at? h
  have hne : k ≠ k' := fun heq => hk (heq ▸ mem_keys_of_get? hu)
  rw [at?_cons_of_ne hne, h]

/-- Behind a key that holds no map there is nothing but its value. -/
theorem eq_nil_of_at?_cons {t : Tree} {k : Key} (h : ∀ child, t.get? k ≠ some (.map child))
    {ks : List Key} {v : Value} (hv : t.at? (k :: ks) = some v) : ks = [] ∧ v.isMap = false := by
  obtain ⟨w, hw, hbelow⟩ := exists_get?_of_at? hv
  rcases w.exists_map_or_isMap_eq_false with ⟨child, rfl⟩ | hmap
  · exact absurd hw (h child)
  · cases ks with
    | nil =>
        rw [Value.at?_nil, Option.some.injEq] at hbelow
        exact ⟨rfl, hbelow ▸ hmap⟩
    | cons k' ks =>
        rw [Value.at?_cons_of_not_map hmap] at hbelow
        cases hbelow

/-- A map behind a key is the map under that key, or it is in it. -/
theorem exists_map_of_at?_map {t child : Tree} {k : Key} {ks : List Key}
    (h : t.at? (k :: ks) = some (.map child)) :
    ∃ x, t.get? k = some (.map x) ∧ x.at? ks = some (.map child) := by
  obtain ⟨x, hx⟩ | hno := Value.exists_map_or_no_map (t.get? k)
  · exact ⟨x, hx, (at?_of_get? hx ks).symm.trans h⟩
  · cases (eq_nil_of_at?_cons hno h).2

/-! ### Distinct keys at every depth -/

theorem Distinct.nodup_keys {t : Tree} (h : t.Distinct) : t.keys.Nodup := by
  induction t with
  | nil => simp [keys]
  | cons k v rest ih => exact List.nodup_cons.mpr ⟨h.1, ih h.2.2⟩

theorem Distinct.of_get? {t : Tree} (h : t.Distinct) {k : Key} {v : Value}
    (hv : t.get? k = some v) : v.Distinct := by
  induction t with
  | nil => simp [get?] at hv
  | cons k' v' rest ih =>
      by_cases hk : k' = k
      · simp only [get?, hk, if_true, Option.some.injEq] at hv
        exact hv ▸ h.2.1
      · simp only [get?, hk, if_false] at hv
        exact ih h.2.2 hv

theorem Distinct.insert {t : Tree} (h : t.Distinct) (k : Key) {v : Value} (hv : v.Distinct) :
    (t.insert k v).Distinct := by
  induction t with
  | nil => exact ⟨by simp [keys], hv, trivial⟩
  | cons k' v' rest ih =>
      by_cases hk : k' = k
      · simp only [Tree.insert, hk, if_true]
        exact ⟨hk ▸ h.1, hv, h.2.2⟩
      · simp only [Tree.insert, hk, if_false]
        refine ⟨?_, h.2.1, ih h.2.2⟩
        rw [mem_keys_insert]
        exact fun hm => hm.elim hk h.1

theorem Distinct.erase {t : Tree} (h : t.Distinct) (k : Key) : (t.erase k).Distinct := by
  induction t with
  | nil => exact h
  | cons k' v' rest ih =>
      by_cases hk : k' = k
      · simp only [Tree.erase, hk, if_true]
        exact h.2.2
      · simp only [Tree.erase, hk, if_false]
        refine ⟨?_, h.2.1, ih h.2.2⟩
        rw [keys_erase]
        exact fun hm => h.1 (List.mem_of_mem_erase hm)

/-- Trees with distinct keys are equal if every list of keys leads to the same value in both, or to
maps with the same keys in the same order. -/
theorem eq_of_at?_eq {t u : Tree} (ht : t.Distinct)
    (h : ∀ q, t.at? q = u.at? q ∨
      ∃ x y, t.at? q = some (.map x) ∧ u.at? q = some (.map y) ∧ x.keys = y.keys) : t = u := by
  induction t using childInduction generalizing u with
  | step t ih =>
      obtain hwhole | ⟨_, _, hx, hy, hkeys⟩ := h []
      · simpa only [at?_nil, Option.some.injEq, Value.map.injEq] using hwhole
      simp only [at?_nil, Option.some.injEq, Value.map.injEq] at hx hy
      subst hx hy
      refine eq_of_get?_eq ht.nodup_keys hkeys fun k _ => ?_
      obtain hsame | ⟨x, y, hx, hy, _⟩ := h [k]
      · rw [← at?_singleton, ← at?_singleton, hsame]
      · rw [at?_singleton] at hx hy
        have hxy : x = y := ih k x hx (ht.of_get? hx) fun q => by
          have hbelow := h (k :: q)
          rwa [at?_of_get? hx, at?_of_get? hy] at hbelow
        rw [hx, hy, hxy]

/-! ### What holds at every depth -/

theorem EveryValue.insert {P : Value → Prop} {t : Tree} (h : t.EveryValue P) (k : Key) {v : Value}
    (hv : v.Everywhere P) : (t.insert k v).EveryValue P := by
  induction t with
  | nil => exact ⟨hv, trivial⟩
  | cons k' v' rest ih =>
      by_cases hk : k' = k
      · rw [Tree.insert, if_pos hk]
        exact ⟨hv, h.2⟩
      · rw [Tree.insert, if_neg hk]
        exact ⟨h.1, ih h.2⟩

theorem EveryValue.erase {P : Value → Prop} {t : Tree} (h : t.EveryValue P) (k : Key) :
    (t.erase k).EveryValue P := by
  induction t with
  | nil => exact h
  | cons k' v' rest ih =>
      by_cases hk : k' = k
      · rw [Tree.erase, if_pos hk]
        exact h.2
      · rw [Tree.erase, if_neg hk]
        exact ⟨h.1, ih h.2⟩

/-! ### What holds at every depth holds where keys lead -/

theorem EveryKey.imp {P Q : Key → Prop} (hPQ : ∀ k, P k → Q k) {t : Tree} (h : t.EveryKey P) :
    t.EveryKey Q := by
  induction t using deepInduction with
  | nil => trivial
  | cons k v rest ihv ihrest =>
      refine ⟨hPQ k h.1, ?_, ihrest h.2.2⟩
      cases v with
      | map child => exact ihv child rfl h.2.1
      | _ => trivial

theorem EveryKey.of_get? {P : Key → Prop} {t : Tree} (h : t.EveryKey P) {k : Key} {v : Value}
    (hv : t.get? k = some v) : P k ∧ v.EveryKey P := by
  induction t with
  | nil => cases hv
  | cons k' v' rest ih =>
      by_cases hk : k' = k
      · rw [get?, if_pos hk, Option.some.injEq] at hv
        exact ⟨hk ▸ h.1, hv ▸ h.2.1⟩
      · rw [get?, if_neg hk] at hv
        exact ih h.2.2 hv

/-- What holds of every key in a tree holds of the keys that lead to something in it. -/
theorem EveryKey.of_at? {P : Key → Prop} {t : Tree} (h : t.EveryKey P) {ks : List Key} {v : Value}
    (hfound : t.at? ks = some v) : ∀ k ∈ ks, P k := by
  induction ks generalizing t with
  | nil => simp
  | cons k ks ih =>
      obtain ⟨w, hw, hrest⟩ := exists_get?_of_at? hfound
      obtain ⟨hk, hbelow⟩ := h.of_get? hw
      rw [List.forall_mem_cons]
      refine ⟨hk, ?_⟩
      cases ks with
      | nil => simp
      | cons k' ks =>
          obtain ⟨child, rfl⟩ := Value.exists_map_of_at?_cons hrest
          exact ih hbelow hrest

theorem EveryValue.of_get? {P : Value → Prop} {t : Tree} (h : t.EveryValue P) {k : Key}
    {v : Value} (hv : t.get? k = some v) : v.Everywhere P := by
  induction t with
  | nil => cases hv
  | cons k' v' rest ih =>
      by_cases hk : k' = k
      · rw [get?, if_pos hk, Option.some.injEq] at hv
        exact hv ▸ h.1
      · rw [get?, if_neg hk] at hv
        exact ih h.2 hv

/-- What holds of everything that lists of keys lead to holds of every value in the tree. -/
theorem everyValue_of_at? {P : Value → Prop} {t : Tree} (ht : t.Distinct)
    (h : ∀ k ks v, t.at? (k :: ks) = some v → P v) : t.EveryValue P := by
  induction t using deepInduction with
  | nil => trivial
  | cons k v rest ihv ihrest =>
      obtain ⟨hnot, hv, hrest⟩ := ht
      constructor
      · have hhere : P v := h k [] v ((at?_cons_head k v rest []).trans (Value.at?_nil v))
        cases v with
        | map child =>
            refine ⟨hhere, ihv child rfl hv fun k' ks w hw => h k (k' :: ks) w ?_⟩
            rw [at?_cons_head]
            exact hw
        | _ => exact hhere
      · exact ihrest hrest fun k' ks w hw => h k' ks w (at?_cons_of_tail hnot v hw)

/-- What holds of every value in a tree holds of what a list of keys leads to. -/
theorem EveryValue.at? {P : Value → Prop} {t : Tree} (h : t.EveryValue P) {k : Key}
    {ks : List Key} {v : Value} (hfound : t.at? (k :: ks) = some v) : P v := by
  induction ks generalizing t k with
  | nil =>
      obtain ⟨w, hw, hv⟩ := exists_get?_of_at? hfound
      rw [Value.at?_nil, Option.some.injEq] at hv
      exact hv ▸ (h.of_get? hw).here
  | cons k' ks ih =>
      obtain ⟨w, hw, hrest⟩ := exists_get?_of_at? hfound
      obtain ⟨child, rfl⟩ := Value.exists_map_of_at?_cons hrest
      exact ih (h.of_get? hw).2 hrest

end Tree

end Quill
