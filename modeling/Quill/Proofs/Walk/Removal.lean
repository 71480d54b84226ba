import Quill.Proofs.Walk.Unreached

/-!
# Removing as one cut

Removing along a path takes the keys of a step one after the other, each on the tree that the ones
before it left, and a map that is emptied on the way goes as well.  What comes out does not depend
on that order.  A path gives every list of keys a fate, whatever tree it is walked in: the value
there is dropped, or it is entered on the way to something else, or it is spared.  A single pass
over the entries of a tree, the cut, carries the fates out.

Main statement: removing along a path is the cut by its fates.  Two cuts one after the other are
the cut by the joined fates, and joining is commutative and idempotent, so whatever is said about
several removals is said about fates.
-/

namespace Quill

/-! ### Fates -/

/-- What becomes of the value at the end of a list of keys. -/
inductive Fate where
  /-- The value stays as it is. -/
  | spared
  /-- A map is cut in turn, and goes if it comes out empty and empty maps are not kept.  Other
  values stay. -/
  | entered
  | dropped
deriving DecidableEq

/-- The fate of a value that meets two. -/
def Fate.join : Fate → Fate → Fate
  | .spared, f => f
  | .entered, .dropped => .dropped
  | .entered, _ => .entered
  | .dropped, _ => .dropped

namespace Fate

@[simp] theorem spared_join (f : Fate) : spared.join f = f := rfl

@[simp] theorem dropped_join (f : Fate) : dropped.join f = dropped := rfl

@[simp] theorem join_self (f : Fate) : f.join f = f := by
  cases f <;> rfl

@[simp] theorem join_spared (f : Fate) : f.join spared = f := by
  cases f <;> rfl

@[simp] theorem join_dropped (f : Fate) : f.join dropped = dropped := by
  cases f <;> rfl

theorem join_comm (f g : Fate) : f.join g = g.join f := by
  cases f <;> cases g <;> rfl

theorem join_assoc (f g h : Fate) : (f.join g).join h = f.join (g.join h) := by
  cases f <;> cases g <;> cases h <;> rfl

theorem join_eq_spared_iff (f g : Fate) : f.join g = spared ↔ f = spared ∧ g = spared := by
  cases f <;> cases g <;> simp [join]

theorem join_eq_dropped_iff (f g : Fate) : f.join g = dropped ↔ f = dropped ∨ g = dropped := by
  cases f <;> cases g <;> simp [join]

end Fate

/-- A fate for every list of keys that leads down from a value, the empty list included. -/
@[ext]
structure Removal where
  fate : List Key → Fate
  /-- Below a spared value everything is spared. -/
  spared_below : ∀ r q, fate r = .spared → fate (r ++ q) = .spared

namespace Removal

/-- Nothing is removed, and nothing entered. -/
def nothing : Removal :=
  ⟨fun _ => .spared, fun _ _ _ => rfl⟩

/-- The value itself is dropped. -/
def whole : Removal :=
  ⟨fun _ => .dropped, fun _ _ h => h⟩

/-- The fates below a key. -/
def under (c : Removal) (k : Key) : Removal :=
  ⟨fun q => c.fate (k :: q), fun r q h => c.spared_below (k :: r) q h⟩

/-- Two removals at once. -/
def join (c d : Removal) : Removal where
  fate q := (c.fate q).join (d.fate q)
  spared_below r q h := by
    obtain ⟨hc, hd⟩ := (Fate.join_eq_spared_iff _ _).mp h
    rw [c.spared_below r q hc, d.spared_below r q hd, Fate.join_self]

/-- The map is entered, and below the keys with a property the fates are those of `c`. -/
def atKeys (P : Key → Prop) [DecidablePred P] (c : Removal) : Removal where
  fate
    | [] => .entered
    | k :: q => if P k then c.fate q else .spared
  spared_below r q h := by
    cases r with
    | nil => cases h
    | cons k r =>
        show (if P k then c.fate (r ++ q) else .spared) = .spared
        by_cases hk : P k
        · rw [if_pos hk]
          apply c.spared_below
          simpa only [hk, if_true] using h
        · rw [if_neg hk]

/-- What a step does below a key that it selects: the last step drops the value. -/
def behind (isLast : Bool) (c : Removal) : Removal :=
  if isLast then whole else c

/-- The map is entered and nothing is done in it. -/
def entering : Removal :=
  atKeys (fun _ => False) nothing

theorem join_comm (c d : Removal) : c.join d = d.join c := by
  ext q
  exact Fate.join_comm _ _

theorem join_assoc (c d e : Removal) : (c.join d).join e = c.join (d.join e) := by
  ext q
  exact Fate.join_assoc _ _ _

@[simp] theorem join_self (c : Removal) : c.join c = c := by
  ext q
  exact Fate.join_self _

@[simp] theorem join_nothing (c : Removal) : c.join nothing = c := by
  ext q
  exact Fate.join_spared _

theorem under_join (c d : Removal) (k : Key) :
    (c.join d).under k = (c.under k).join (d.under k) := rfl

/-- A removal that spares the value itself does nothing at all. -/
theorem eq_nothing_of_spared {c : Removal} (h : c.fate [] = .spared) : c = nothing := by
  ext q
  exact c.spared_below [] q h

theorem under_atKeys (P : Key → Prop) [DecidablePred P] (c : Removal) (k : Key) :
    (atKeys P c).under k = if P k then c else nothing := by
  ext q
  show (if P k then c.fate q else .spared) = (if P k then c else nothing).fate q
  by_cases hk : P k
  · rw [if_pos hk, if_pos hk]
  · rw [if_neg hk, if_neg hk]
    rfl

/-- Two sets of keys with the same fates below them are one set. -/
theorem join_atKeys (P Q : Key → Prop) [DecidablePred P] [DecidablePred Q] (c : Removal) :
    (atKeys P c).join (atKeys Q c) = atKeys (fun k => P k ∨ Q k) c := by
  ext q
  cases q with
  | nil => rfl
  | cons k q =>
      show (if P k then c.fate q else .spared).join (if Q k then c.fate q else .spared) =
        if P k ∨ Q k then c.fate q else .spared
      by_cases hP : P k
      · by_cases hQ : Q k
        · simp [hP, hQ]
        · simp [hP, hQ]
      · by_cases hQ : Q k
        · simp [hP, hQ]
        · simp [hP, hQ]

end Removal

/-! ### Cutting -/

mutual

/-- What is left of a value. -/
def Value.cut (keepEmpty : Bool) (c : Removal) : Value → Option Value
  | .map t =>
      match c.fate [] with
      | .spared => some (.map t)
      | .entered =>
          if (t.cut keepEmpty c).isEmpty && !keepEmpty then none
          else some (.map (t.cut keepEmpty c))
      | .dropped => none
  | v => if c.fate [] = .dropped then none else some v

/-- The entries of a tree of whose values something is left, in their order. -/
def Tree.cut (keepEmpty : Bool) (c : Removal) : Tree → Tree
  | .nil => .nil
  | .cons k v rest =>
      match v.cut keepEmpty (c.under k) with
      | some v => .cons k v (rest.cut keepEmpty c)
      | none => rest.cut keepEmpty c

end

namespace Value

variable {keepEmpty : Bool} {c d : Removal}

theorem cut_of_dropped (h : c.fate [] = .dropped) (v : Value) : v.cut keepEmpty c = none := by
  cases v with
  | map t => simp only [cut, h]
  | _ => simp only [cut, h, if_true]

theorem cut_of_spared (h : c.fate [] = .spared) (v : Value) : v.cut keepEmpty c = some v := by
  cases v with
  | map t => simp only [cut, h]
  | _ => simp only [cut, h, reduceCtorEq, if_false]

@[simp] theorem cut_nothing (keepEmpty : Bool) (v : Value) :
    v.cut keepEmpty .nothing = some v :=
  cut_of_spared rfl v

@[simp] theorem cut_whole (keepEmpty : Bool) (v : Value) : v.cut keepEmpty .whole = none :=
  cut_of_dropped rfl v

theorem cut_map_of_entered (keepEmpty : Bool) (h : c.fate [] = .entered) (t : Tree) :
    (Value.map t).cut keepEmpty c =
      if (t.cut keepEmpty c).isEmpty && !keepEmpty then none
      else some (.map (t.cut keepEmpty c)) := by
  simp only [cut, h]

/-- Only a map is changed by being entered. -/
theorem cut_of_not_map {v : Value} (hv : v.isMap = false) (h : c.fate [] ≠ .dropped) :
    v.cut keepEmpty c = some v := by
  cases v with
  | map t => cases hv
  | _ => simp only [cut, h, if_false]

theorem eq_of_cut_of_not_map {v w : Value} (hv : v.isMap = false)
    (h : v.cut keepEmpty c = some w) : v = w := by
  by_cases hc : c.fate [] = .dropped
  · rw [cut_of_dropped hc] at h
    cases h
  · rw [cut_of_not_map hv hc, Option.some.injEq] at h
    exact h

/-- What is left of a value: all of it, because it is spared or because it is no map, or a map with
what is left of its entries. -/
theorem cut_cases {v w : Value} (h : v.cut keepEmpty c = some w) :
    (c = .nothing ∧ w = v) ∨ (v.isMap = false ∧ w = v) ∨
      ∃ t, v = .map t ∧ c.fate [] = .entered ∧ w = .map (t.cut keepEmpty c) := by
  cases hc : c.fate [] with
  | spared =>
      rw [cut_of_spared hc, Option.some.injEq] at h
      exact .inl ⟨Removal.eq_nothing_of_spared hc, h.symm⟩
  | dropped =>
      rw [cut_of_dropped hc] at h
      cases h
  | entered =>
      right
      cases hv : v.isMap with
      | false =>
          rw [cut_of_not_map hv (by simp [hc]), Option.some.injEq] at h
          exact .inl ⟨rfl, h.symm⟩
      | true =>
          cases v with
          | map t =>
              rw [cut_map_of_entered _ hc, Option.ite_none_left_eq_some, Option.some.injEq] at h
              exact .inr ⟨t, rfl, rfl, h.2.symm⟩
          | _ => cases hv

end Value

namespace Tree

variable {keepEmpty : Bool} {c d : Removal}

theorem cut_cons_of_some {k : Key} {v w : Value} (h : v.cut keepEmpty (c.under k) = some w)
    (rest : Tree) :
    (Tree.cons k v rest).cut keepEmpty c = .cons k w (rest.cut keepEmpty c) := by
  simp only [cut, h]

theorem cut_cons_of_none {k : Key} {v : Value} (h : v.cut keepEmpty (c.under k) = none)
    (rest : Tree) : (Tree.cons k v rest).cut keepEmpty c = rest.cut keepEmpty c := by
  simp only [cut, h]

@[simp] theorem cut_nil (keepEmpty : Bool) (c : Removal) :
    Tree.nil.cut keepEmpty c = .nil := by
  simp only [cut]

/-- Only the fates below the keys that are there matter. -/
theorem cut_congr {t : Tree} (h : ∀ k ∈ t.keys, c.under k = d.under k) :
    t.cut keepEmpty c = t.cut keepEmpty d := by
  induction t with
  | nil => rfl
  | cons k v rest ih =>
      have hrest := ih fun k' hk' => h k' (List.mem_cons_of_mem _ hk')
      have hhead : c.under k = d.under k := h k List.mem_cons_self
      simp only [cut, hhead, hrest]

/-- A cut that spares every key that is there changes nothing. -/
theorem cut_of_under_eq_nothing {t : Tree} (h : ∀ k ∈ t.keys, c.under k = .nothing) :
    t.cut keepEmpty c = t := by
  induction t with
  | nil => exact cut_nil _ _
  | cons k v rest ih =>
      have hrest := ih fun k' hk' => h k' (List.mem_cons_of_mem _ hk')
      have hhead : v.cut keepEmpty (c.under k) = some v := by
        rw [h k List.mem_cons_self]
        exact v.cut_nothing keepEmpty
      rw [cut_cons_of_some hhead, hrest]

theorem keys_cut_sublist (keepEmpty : Bool) (c : Removal) (t : Tree) :
    (t.cut keepEmpty c).keys.Sublist t.keys := by
  induction t with
  | nil => simp
  | cons k v rest ih =>
      cases hv : v.cut keepEmpty (c.under k) with
      | some w =>
          rw [cut_cons_of_some hv]
          exact ih.cons_cons k
      | none =>
          rw [cut_cons_of_none hv]
          exact ih.cons k

/-- With distinct keys a look-up in a cut tree finds what is left of the value. -/
theorem get?_cut {t : Tree} (ht : t.keys.Nodup) (keepEmpty : Bool) (c : Removal) (k : Key) :
    (t.cut keepEmpty c).get? k = (t.get? k).bind (·.cut keepEmpty (c.under k)) := by
  induction t with
  | nil => simp [get?]
  | cons k' v rest ih =>
      obtain ⟨hnot, hrest⟩ := List.nodup_cons.mp ht
      have ih := ih hrest
      by_cases hk : k' = k
      · subst hk
        have hgone : (rest.cut keepEmpty c).get? k' = none := by
          rw [get?_eq_none_iff]
          intro hmem
          exact hnot ((keys_cut_sublist keepEmpty c rest).subset hmem)
        cases hv : v.cut keepEmpty (c.under k') with
        | some w => simp [cut_cons_of_some hv, get?, hv]
        | none => simp [cut_cons_of_none hv, get?, hv, hgone]
      · cases hv : v.cut keepEmpty (c.under k') with
        | some w => simp [cut_cons_of_some hv, get?, hk, ih]
        | none => simp [cut_cons_of_none hv, get?, hk, ih]

end Tree

/-! ### Cutting twice -/

/-- A cut after a cut, at a map whose entries are known to behave. -/
theorem Value.cut_cut_map {keepEmpty : Bool} {c d : Removal} {t : Tree}
    (ht : (t.cut keepEmpty c).cut keepEmpty d = t.cut keepEmpty (c.join d)) :
    ((Value.map t).cut keepEmpty c).bind (·.cut keepEmpty d) =
      (Value.map t).cut keepEmpty (c.join d) := by
  have hjoin : (c.join d).fate [] = (c.fate []).join (d.fate []) := rfl
  cases hc : c.fate [] with
  | spared =>
      rw [Removal.eq_nothing_of_spared hc, cut_nothing]
      rfl
  | dropped =>
      rw [hc, Fate.dropped_join] at hjoin
      rw [cut_of_dropped hc, cut_of_dropped hjoin]
      rfl
  | entered =>
      cases hd : d.fate [] with
      | spared =>
          rw [Removal.eq_nothing_of_spared hd, Removal.join_nothing]
          simp
      | dropped =>
          rw [hd, Fate.join_dropped] at hjoin
          rw [cut_of_dropped hjoin]
          simp [cut_of_dropped hd]
      | entered =>
          rw [hc, hd, Fate.join_self] at hjoin
          rw [cut_map_of_entered _ hc, cut_map_of_entered _ hjoin, ← ht]
          -- A map that the first cut empties is empty after the second as well.
          cases hgone : (t.cut keepEmpty c).isEmpty && !keepEmpty with
          | true =>
              obtain ⟨hempty, hkeep⟩ := (Bool.and_eq_true _ _).mp hgone
              rw [Tree.isEmpty_iff] at hempty
              simp [hempty, hkeep, Tree.isEmpty]
          | false =>
              simp only [Bool.false_eq_true, if_false, Option.bind_some]
              exact cut_map_of_entered keepEmpty hd _

theorem Value.cut_cut_of_not_map {keepEmpty : Bool} {c d : Removal} {v : Value}
    (hv : v.isMap = false) :
    (v.cut keepEmpty c).bind (·.cut keepEmpty d) = v.cut keepEmpty (c.join d) := by
  have hjoin : (c.join d).fate [] = (c.fate []).join (d.fate []) := rfl
  by_cases hc : c.fate [] = .dropped
  · rw [hc, Fate.dropped_join] at hjoin
    rw [cut_of_dropped hc, cut_of_dropped hjoin]
    rfl
  · rw [cut_of_not_map hv hc, Option.bind_some]
    by_cases hd : d.fate [] = .dropped
    · rw [hd, Fate.join_dropped] at hjoin
      rw [cut_of_dropped hd, cut_of_dropped hjoin]
    · have hkept : (c.join d).fate [] ≠ .dropped := by
        rw [hjoin, Ne, Fate.join_eq_dropped_iff, not_or]
        exact ⟨hc, hd⟩
      rw [cut_of_not_map hv hd, cut_of_not_map hv hkept]

mutual

/-- Two cuts of a value are the cut by the joined fates. -/
theorem Value.cut_cut (keepEmpty : Bool) (c d : Removal) : ∀ v : Value,
    (v.cut keepEmpty c).bind (·.cut keepEmpty d) = v.cut keepEmpty (c.join d)
  | .map t => Value.cut_cut_map (Tree.cut_cut keepEmpty c d t)
  | .null => Value.cut_cut_of_not_map rfl
  | .bool _ => Value.cut_cut_of_not_map rfl
  | .int _ => Value.cut_cut_of_not_map rfl
  | .float _ => Value.cut_cut_of_not_map rfl
  | .string _ => Value.cut_cut_of_not_map rfl
  | .unset => Value.cut_cut_of_not_map rfl

/-- Two cuts of a tree are the cut by the joined fates. -/
theorem Tree.cut_cut (keepEmpty : Bool) (c d : Removal) : ∀ t : Tree,
    (t.cut keepEmpty c).cut keepEmpty d = t.cut keepEmpty (c.join d)
  | .nil => rfl
  | .cons k v rest => by
      have hv := Value.cut_cut keepEmpty (c.under k) (d.under k) v
      have ih := Tree.cut_cut keepEmpty c d rest
      rw [← Removal.under_join] at hv
      cases hleft : v.cut keepEmpty (c.under k) with
      | none =>
          rw [hleft] at hv
          rw [Tree.cut_cons_of_none hleft, Tree.cut_cons_of_none hv.symm, ih]
      | some w =>
          rw [hleft, Option.bind_some] at hv
          rw [Tree.cut_cons_of_some hleft]
          cases hleft' : w.cut keepEmpty (d.under k) with
          | none =>
              rw [hleft'] at hv
              rw [Tree.cut_cons_of_none hleft', Tree.cut_cons_of_none hv.symm, ih]
          | some u =>
              rw [hleft'] at hv
              rw [Tree.cut_cons_of_some hleft', Tree.cut_cons_of_some hv.symm, ih]

end

/-! ### Distinct keys -/

mutual

/-- A cut keeps the keys distinct at every depth. -/
theorem Value.Distinct.of_cut {keepEmpty : Bool} {c : Removal} : ∀ {v w : Value}, v.Distinct →
    v.cut keepEmpty c = some w → w.Distinct
  | .map t, w, hv, h => by
      have ht : t.Distinct := hv
      rcases Value.cut_cases h with ⟨_, rfl⟩ | ⟨hmap, _⟩ | ⟨t', ht', _, rfl⟩
      · exact hv
      · cases hmap
      · obtain rfl : t = t' := Value.map.inj ht'
        exact Tree.Distinct.cut keepEmpty c ht
  | .null, _, hv, h => Value.eq_of_cut_of_not_map rfl h ▸ hv
  | .bool _, _, hv, h => Value.eq_of_cut_of_not_map rfl h ▸ hv
  | .int _, _, hv, h => Value.eq_of_cut_of_not_map rfl h ▸ hv
  | .float _, _, hv, h => Value.eq_of_cut_of_not_map rfl h ▸ hv
  | .string _, _, hv, h => Value.eq_of_cut_of_not_map rfl h ▸ hv
  | .unset, _, hv, h => Value.eq_of_cut_of_not_map rfl h ▸ hv

theorem Tree.Distinct.cut (keepEmpty : Bool) (c : Removal) : ∀ {t : Tree}, t.Distinct →
    (t.cut keepEmpty c).Distinct
  | .nil, ht => ht
  | .cons k v rest, ht => by
      obtain ⟨hnot, hv, hrest⟩ := ht
      have ih := Tree.Distinct.cut keepEmpty c hrest
      cases hleft : v.cut keepEmpty (c.under k) with
      | none =>
          rw [Tree.cut_cons_of_none hleft]
          exact ih
      | some w =>
          rw [Tree.cut_cons_of_some hleft]
          have hgone : k ∉ (rest.cut keepEmpty c).keys := by
            intro hmem
            exact hnot ((Tree.keys_cut_sublist keepEmpty c rest).subset hmem)
          exact ⟨hgone, Value.Distinct.of_cut hv hleft, ih⟩

end

theorem Tree.Distinct.of_eq_cut {keepEmpty : Bool} {c : Removal} {t u : Tree} (ht : t.Distinct)
    (h : u = t.cut keepEmpty c) : u.Distinct := by
  rw [h]
  exact ht.cut keepEmpty c

/-! ### Removing is cutting -/

namespace Tree

/-- A cut below one key alone drops the key or sets what is left of its value. -/
theorem cut_of_one_key {keepEmpty : Bool} {c : Removal} {t : Tree} (ht : t.keys.Nodup) {k : Key}
    (hother : ∀ k', k' ≠ k → c.under k' = .nothing) :
    t.cut keepEmpty c =
      match t.get? k with
      | none => t
      | some v =>
          match v.cut keepEmpty (c.under k) with
          | none => t.erase k
          | some w => t.insert k w := by
  induction t with
  | nil => rfl
  | cons k' v rest ih =>
      obtain ⟨hnot, hrest⟩ := List.nodup_cons.mp ht
      by_cases hk : k' = k
      · subst hk
        have hsame : rest.cut keepEmpty c = rest := by
          apply cut_of_under_eq_nothing
          intro k hk
          apply hother
          rintro rfl
          exact hnot hk
        cases hv : v.cut keepEmpty (c.under k') with
        | none => simp [cut_cons_of_none hv, hsame, get?, hv, erase]
        | some w => simp [cut_cons_of_some hv, hsame, get?, hv, insert]
      · have hv : v.cut keepEmpty (c.under k') = some v := by
          rw [hother k' hk]
          exact v.cut_nothing keepEmpty
        rw [cut_cons_of_some hv, ih hrest]
        simp only [get?, hk, if_false]
        cases hget : rest.get? k with
        | none => rfl
        | some u =>
            cases hu : u.cut keepEmpty (c.under k) with
            | none => simp [hu, erase, hk]
            | some w => simp [hu, insert, hk]

/-- Removing under one key is a cut below it. -/
theorem removeAt_eq_cut {keepEmpty isLast : Bool} {inner : Tree → Tree} {t : Tree}
    (ht : t.Distinct) {c : Removal} (hc : isLast = false → c.fate [] = .entered)
    (hinner : ∀ u : Tree, u.Distinct → inner u = u.cut keepEmpty c) (k : Key) :
    t.removeAt keepEmpty isLast inner k =
      t.cut keepEmpty (.atKeys (· = k) (.behind isLast c)) := by
  have hother : ∀ k', k' ≠ k →
      (Removal.atKeys (· = k) (.behind isLast c)).under k' = .nothing := by
    intro k' hk'
    rw [Removal.under_atKeys, if_neg hk']
  rw [cut_of_one_key ht.nodup_keys hother, Removal.under_atKeys, if_pos rfl]
  rcases t.removeAt_cases keepEmpty isLast inner k with
    ⟨hlast, h⟩ | ⟨hlast, child, hv, hempty, hkeep, h⟩ | ⟨hlast, child, hv, hkept, h⟩ |
      ⟨hlast, hv, h⟩
  · rw [h, Removal.behind, if_pos hlast]
    cases hget : t.get? k with
    | none => exact erase_of_not_mem ((get?_eq_none_iff t k).mp hget)
    | some v => simp only [Value.cut_whole]
  · have hcut := Value.cut_map_of_entered keepEmpty (hc hlast) child
    rw [← hinner child (ht.of_get? hv), hempty, hkeep] at hcut
    rw [h, hv, hlast]
    simp only [Removal.behind, Bool.false_eq_true, if_false, hkeep, hcut, isEmpty, Bool.not_false,
      Bool.and_self, if_true]
  · have hcut := Value.cut_map_of_entered keepEmpty (hc hlast) child
    have hstays : ¬((inner child).isEmpty && !keepEmpty) = true := by
      rw [Bool.and_eq_true, isEmpty_iff, Bool.not_eq_true']
      rintro ⟨hempty, hkeep⟩
      rw [hkept hempty] at hkeep
      cases hkeep
    rw [← hinner child (ht.of_get? hv), if_neg hstays] at hcut
    rw [h, hv, hlast]
    simp only [Removal.behind, Bool.false_eq_true, if_false, hcut]
  · have hentered : (Removal.behind isLast c).fate [] ≠ .dropped := by
      rw [Removal.behind, hlast, if_neg Bool.false_ne_true, hc hlast]
      simp
    rw [h]
    cases hget : t.get? k with
    | none => rfl
    | some v =>
        have hmap : v.isMap = false := by
          cases v with
          | map child => exact absurd hget (hv child)
          | _ => rfl
        simp only [Value.cut_of_not_map hmap hentered, insert_get? hget]

/-- Removing under several keys, one after the other, is one cut below all of them. -/
theorem foldl_removeAt_eq_cut {keepEmpty isLast : Bool} {inner : Tree → Tree} {c : Removal}
    (hc : isLast = false → c.fate [] = .entered)
    (hinner : ∀ u : Tree, u.Distinct → inner u = u.cut keepEmpty c) {t : Tree} (ht : t.Distinct)
    (ks : List Key) :
    ks.foldl (Tree.removeAt keepEmpty isLast inner) t =
      t.cut keepEmpty (.atKeys (· ∈ ks) (.behind isLast c)) := by
  induction ks generalizing t with
  | nil =>
      symm
      apply cut_of_under_eq_nothing
      intro k _
      rw [Removal.under_atKeys, if_neg List.not_mem_nil]
  | cons k ks ih =>
      have hfirst := removeAt_eq_cut ht hc hinner k
      rw [List.foldl_cons, ih (ht.of_eq_cut hfirst), hfirst, cut_cut, Removal.join_atKeys]
      simp only [List.mem_cons]

end Tree

mutual

/-- The fates that a path gives to lists of keys. -/
def Path.removal : Path → Removal
  | .nil => .nothing
  | .key text rest => .atKeys (Path.segmentSelects text) (.behind rest.isNil rest.removal)
  | .group ms rest => ms.removal (.behind rest.isNil rest.removal)

/-- The fates that the members of a group give to lists of keys; `c` is what the path behind the
group does below a member that is a key. -/
def Members.removal : Members → Removal → Removal
  | .nil, _ => .entering
  | .key text rest, c => (Removal.atKeys (· = .ofText text) c).join (rest.removal c)
  | .path sub rest, c => sub.removal.join (rest.removal c)

end

mutual

/-- Every path but the empty one enters the tree. -/
theorem Path.fate_removal_nil : ∀ p : Path,
    p.removal.fate [] = if p.isNil then .spared else .entered
  | .nil => rfl
  | .key text rest => by
      rw [Path.removal]
      rfl
  | .group ms rest => by
      rw [Path.removal]
      exact Members.fate_removal_nil _ ms

theorem Members.fate_removal_nil (c : Removal) : ∀ ms : Members,
    (ms.removal c).fate [] = .entered
  | .nil => by
      rw [Members.removal]
      rfl
  | .key text rest => by
      rw [Members.removal]
      show Fate.entered.join ((rest.removal c).fate []) = .entered
      rw [Members.fate_removal_nil c rest, Fate.join_self]
  | .path sub rest => by
      rw [Members.removal]
      show (sub.removal.fate []).join ((rest.removal c).fate []) = .entered
      rw [Path.fate_removal_nil sub, Members.fate_removal_nil c rest]
      cases sub.isNil <;> rfl

end

theorem Path.fate_removal_nil_of_isNil_eq_false {p : Path} (h : p.isNil = false) :
    p.removal.fate [] = .entered := by
  rw [p.fate_removal_nil, h]
  rfl

mutual

/-- Removing along a path is the cut by the fates that the path gives. -/
theorem Path.remove_eq_cut (keepEmpty : Bool) : ∀ (p : Path) {t : Tree}, t.Distinct →
    p.remove keepEmpty t = t.cut keepEmpty p.removal
  | .nil, t, _ => by
      have hsame : t.cut keepEmpty .nothing = t :=
        Tree.cut_of_under_eq_nothing fun _ _ => rfl
      rw [Path.remove, Path.removal, hsame]
  | .key text rest, t, ht => by
      have hinner : ∀ u : Tree, u.Distinct →
          rest.remove keepEmpty u = u.cut keepEmpty rest.removal :=
        fun u hu => Path.remove_eq_cut keepEmpty rest hu
      rw [Path.remove, Path.removal,
        Tree.foldl_removeAt_eq_cut rest.fate_removal_nil_of_isNil_eq_false hinner ht]
      -- The wildcard takes the keys that are there, so on this tree it is a set of keys as well.
      apply Tree.cut_congr
      intro k hk
      rw [Removal.under_atKeys, Removal.under_atKeys]
      have hselected : k ∈ Path.selectedKeys text t ↔ Path.segmentSelects text k := by
        unfold Path.selectedKeys Path.segmentSelects
        by_cases hw : text = Path.wildcard
        · simp [hw, hk]
        · simp [hw]
      simp only [hselected]
  | .group ms rest, t, ht => by
      have hinner : ∀ u : Tree, u.Distinct →
          rest.remove keepEmpty u = u.cut keepEmpty rest.removal :=
        fun u hu => Path.remove_eq_cut keepEmpty rest hu
      rw [Path.remove, Path.removal]
      exact Members.remove_eq_cut keepEmpty rest.fate_removal_nil_of_isNil_eq_false hinner ms ht

theorem Members.remove_eq_cut (keepEmpty : Bool) {isLast : Bool} {inner : Tree → Tree}
    {c : Removal} (hc : isLast = false → c.fate [] = .entered)
    (hinner : ∀ u : Tree, u.Distinct → inner u = u.cut keepEmpty c) :
    ∀ (ms : Members) {t : Tree}, t.Distinct →
      ms.remove keepEmpty isLast inner t = t.cut keepEmpty (ms.removal (.behind isLast c))
  | .nil, t, _ => by
      have hsame : t.cut keepEmpty .entering = t := by
        apply Tree.cut_of_under_eq_nothing
        intro k _
        rw [Removal.entering, Removal.under_atKeys, if_neg not_false]
      rw [Members.remove, Members.removal, hsame]
  | .key text rest, t, ht => by
      have hfirst := Tree.removeAt_eq_cut ht hc hinner (.ofText text)
      have hrest := Members.remove_eq_cut keepEmpty hc hinner rest (ht.of_eq_cut hfirst)
      rw [Members.remove, Members.removal, hrest, hfirst, Tree.cut_cut]
  | .path sub rest, t, ht => by
      have hfirst := Path.remove_eq_cut keepEmpty sub ht
      have hrest := Members.remove_eq_cut keepEmpty hc hinner rest (ht.of_eq_cut hfirst)
      rw [Members.remove, Members.removal, hrest, hfirst, Tree.cut_cut]

end

end Quill
