import Mathlib.Algebra.Group.Nat.Defs
import Quill.Tree.Depth

/-!
# Appending

What appending a value does to the entries of a tree.  The next free index is greater than every
index key, so the value comes behind all entries and takes the place of none.  Where no index is
free any more the tree stays as it is.  Appended to nothing, values make a sequence.
-/

namespace Quill

/-! ### The next free index -/

theorem max_eq_ite (a b : Int64) : max a b = if a ≤ b then b else a := rfl

instance lawfulOrderMax : Std.LawfulOrderMax Int64 where
  max_eq_or a b := by
    rw [max_eq_ite]
    split
    · exact .inr rfl
    · exact .inl rfl
  max_le_iff a b c := by
    rw [max_eq_ite]
    simp only [Int64.le_iff_toInt_le]
    split <;> omega

/-- One past a number that is not the greatest does not wrap around. -/
theorem toInt_max_add_one {i : Int64} (h : i ≠ Int64.maxValue) :
    (max i (-1) + 1).toInt = max i.toInt (-1) + 1 := by
  have hbound : i.toInt < 2 ^ 63 - 1 := by
    have hword := i.toInt_lt
    have hmax : i.toInt ≠ 2 ^ 63 - 1 := fun h' => h (Int64.toInt_inj.mp h')
    omega
  have hlow := i.le_toInt
  have hminus : (-1 : Int64).toInt = -1 := rfl
  have hone : (1 : Int64).toInt = 1 := rfl
  have hmax : (max i (-1)).toInt = max i.toInt (-1) := by
    rw [max_eq_ite]
    split <;> rename_i h <;> rw [Int64.le_iff_toInt_le, hminus] at h <;> omega
  rw [Int64.toInt_add, hone, hmax]
  exact Int.bmod_eq_of_le (by omega) (by omega)

/-- The number above an index from `-1` on; nothing else has one. -/
def Key.above : Key → Nat
  | .index i => (i.toInt + 1).toNat
  | .name _ => 0

namespace Tree

/-- One past the greatest index from zero on, and `0` if there is none. -/
def ceiling : Tree → Nat
  | .nil => 0
  | .cons k _ rest => max k.above rest.ceiling

theorem above_le_ceiling {t : Tree} {k : Key} (h : k ∈ t.keys) : k.above ≤ t.ceiling := by
  induction t with
  | nil => cases h
  | cons j v rest ih =>
      rw [ceiling]
      rcases List.mem_cons.mp h with rfl | hrest
      · omega
      · have hle := ih hrest
        omega

theorem toInt_lt_ceiling {t : Tree} {i : Int64} (h : .index i ∈ t.keys) : i.toInt < t.ceiling := by
  have hle := above_le_ceiling h
  rw [Key.above] at hle
  omega

/-- A ceiling that is not zero is held up by an index right below it. -/
theorem exists_below_ceiling (t : Tree) :
    t.ceiling = 0 ∨ ∃ i : Int64, .index i ∈ t.keys ∧ i.toInt + 1 = (t.ceiling : Int) := by
  induction t with
  | nil => exact .inl rfl
  | cons k v rest ih =>
      rw [ceiling]
      by_cases hk : rest.ceiling < k.above
      · cases k with
        | name s => cases hk
        | index j =>
            rw [Key.above] at hk ⊢
            exact .inr ⟨j, List.mem_cons_self, by omega⟩
      · rcases ih with hzero | ⟨i, hi, heq⟩
        · exact .inl (by omega)
        · exact .inr ⟨i, List.mem_cons_of_mem _ hi, by omega⟩

theorem ceiling_insert (t : Tree) (k : Key) (v : Value) :
    (t.insert k v).ceiling = max t.ceiling k.above := by
  induction t with
  | nil => exact Nat.max_comm k.above 0
  | cons j w rest ih =>
      by_cases hj : j = k
      · rw [insert, if_pos hj, ceiling, ceiling, hj]
        omega
      · rw [insert, if_neg hj, ceiling, ceiling, ih]
        omega

theorem ceiling_le (t : Tree) : t.ceiling ≤ 2 ^ 63 := by
  rcases t.exists_below_ceiling with hzero | ⟨i, _, heq⟩
  · omega
  · have hlt := i.toInt_lt
    omega

/-- The ceiling is out of reach if the greatest index is taken. -/
theorem ceiling_eq_iff (t : Tree) : t.ceiling = 2 ^ 63 ↔ .index Int64.maxValue ∈ t.keys := by
  have hgreatest : Int64.maxValue.toInt = 2 ^ 63 - 1 := Int64.toInt_maxValue
  constructor
  · intro h
    rcases t.exists_below_ceiling with hzero | ⟨i, hi, heq⟩
    · omega
    · have hmax : i = Int64.maxValue := by
        rw [← Int64.toInt_inj]
        omega
      rwa [← hmax]
  · intro h
    have hlt := toInt_lt_ceiling h
    have hle := t.ceiling_le
    omega

/-- The next free index is the ceiling. -/
theorem nextIndex?_eq (t : Tree) :
    t.nextIndex? = if t.ceiling = 2 ^ 63 then none else some (Int64.ofNat t.ceiling) := by
  have hle := t.ceiling_le
  have hbelow := t.exists_below_ceiling
  unfold nextIndex? maxIndex?
  cases hmax : (t.keys.filterMap Key.index?).max? with
  | none =>
      have hzero : t.ceiling = 0 := by
        rcases hbelow with hzero | ⟨i, hi, _⟩
        · exact hzero
        · have hindex : i ∈ t.keys.filterMap Key.index? := List.mem_filterMap.mpr ⟨_, hi, rfl⟩
          rw [List.max?_eq_none_iff.mp hmax] at hindex
          cases hindex
      rw [hzero]
      rfl
  | some greatest =>
      obtain ⟨hmem, hgreatest⟩ := List.max?_eq_some_iff.mp hmax
      obtain ⟨k, hk, hindex⟩ := List.mem_filterMap.mp hmem
      have hthere : .index greatest ∈ t.keys := by
        cases k with
        | name s => cases hindex
        | index i =>
            obtain rfl : i = greatest := Option.some.inj hindex
            exact hk
      have hlt := toInt_lt_ceiling hthere
      by_cases hlast : greatest = Int64.maxValue
      · rw [if_pos ((ceiling_eq_iff t).mpr (hlast ▸ hthere))]
        simp only [hlast, if_true]
      · have hfree : t.ceiling ≠ 2 ^ 63 := by
          intro hfull
          have hle := hgreatest _ (List.mem_filterMap.mpr ⟨_, (ceiling_eq_iff t).mp hfull, rfl⟩)
          rw [Int64.le_iff_toInt_le, Int64.toInt_maxValue] at hle
          have hword := greatest.toInt_lt
          apply hlast
          rw [← Int64.toInt_inj, Int64.toInt_maxValue]
          omega
        simp only [hlast, hfree, if_false, Option.some.injEq]
        rw [← Int64.toInt_inj, toInt_max_add_one hlast, Int64.toInt_ofNat_of_lt (by omega)]
        rcases hbelow with hzero | ⟨i, hi, heq⟩
        · omega
        · have hi := hgreatest i (List.mem_filterMap.mpr ⟨_, hi, rfl⟩)
          rw [Int64.le_iff_toInt_le] at hi
          omega

theorem nextIndex?_eq_none_iff (t : Tree) :
    t.nextIndex? = none ↔ .index Int64.maxValue ∈ t.keys := by
  rw [nextIndex?_eq, ← ceiling_eq_iff]
  simp

theorem toInt_of_nextIndex? {t : Tree} {i : Int64} (h : t.nextIndex? = some i) :
    i.toInt = t.ceiling := by
  have hle := t.ceiling_le
  rw [nextIndex?_eq, Option.ite_none_left_eq_some, Option.some.injEq] at h
  rw [← h.2, Int64.toInt_ofNat_of_lt (by omega)]

/-- The next free index is free. -/
theorem get?_nextIndex? {t : Tree} {i : Int64} (h : t.nextIndex? = some i) :
    t.get? (.index i) = none := by
  rw [get?_eq_none_iff]
  intro hmem
  have hlt := toInt_lt_ceiling hmem
  rw [toInt_of_nextIndex? h] at hlt
  omega

/-! ### Appending a value -/

/-- A value is dropped, or it is put under a free index. -/
theorem push_cases (t : Tree) (v : Value) :
    t.nextIndex? = none ∧ t.push v = t ∨
      ∃ i, t.nextIndex? = some i ∧ t.get? (.index i) = none ∧
        t.push v = t.insert (.index i) v := by
  unfold push
  cases h : t.nextIndex? with
  | none => exact .inl ⟨rfl, rfl⟩
  | some i => exact .inr ⟨i, rfl, get?_nextIndex? h, rfl⟩

/-- Under a key there is what was there before, or the key is an index that was free and holds the
appended value. -/
theorem get?_push (t : Tree) (v : Value) (k : Key) :
    (t.push v).get? k = t.get? k ∨
      k.isIndex = true ∧ t.get? k = none ∧ (t.push v).get? k = some v := by
  obtain ⟨_, hsame⟩ | ⟨i, _, hfree, hpush⟩ := t.push_cases v
  · exact .inl (by rw [hsame])
  · by_cases hk : Key.index i = k
    · subst hk
      exact .inr ⟨rfl, hfree, by rw [hpush, get?_insert_self]⟩
    · exact .inl (by rw [hpush, get?_insert_of_ne t v hk])

theorem exists_keys_push (t : Tree) (v : Value) :
    ∃ new, (t.push v).keys = t.keys ++ new ∧ new.length ≤ 1 := by
  obtain ⟨_, hsame⟩ | ⟨i, _, _, hpush⟩ := t.push_cases v
  · exact ⟨[], by rw [hsame, List.append_nil], by simp⟩
  · rw [hpush]
    exact exists_keys_insert t _ v

/-- An appended value comes last, unless no index is left for it. -/
theorem toList_push (t : Tree) (v : Value) :
    (t.push v).toList =
      t.toList ++ if t.ceiling = 2 ^ 63 then [] else [(.index (Int64.ofNat t.ceiling), v)] := by
  rcases t.push_cases v with ⟨hnone, hsame⟩ | ⟨i, hi, hfree, hpush⟩
  · rw [hsame, if_pos ((ceiling_eq_iff t).mpr (t.nextIndex?_eq_none_iff.mp hnone)),
      List.append_nil]
  · rw [nextIndex?_eq, Option.ite_none_left_eq_some, Option.some.injEq] at hi
    rw [hpush, toList_insert_of_not_mem t v ((get?_eq_none_iff t _).mp hfree), if_neg hi.1, hi.2]

theorem ceiling_push (t : Tree) (v : Value) :
    (t.push v).ceiling = min (t.ceiling + 1) (2 ^ 63) := by
  have hle := t.ceiling_le
  rcases t.push_cases v with ⟨hnone, hsame⟩ | ⟨i, hi, _, hpush⟩
  · have hfull := (ceiling_eq_iff t).mpr (t.nextIndex?_eq_none_iff.mp hnone)
    rw [hsame]
    omega
  · have hnext := toInt_of_nextIndex? hi
    have hlt := i.toInt_lt
    rw [hpush, ceiling_insert, Key.above, hnext]
    omega

theorem Distinct.push {t : Tree} (h : t.Distinct) {v : Value} (hv : v.Distinct) :
    (t.push v).Distinct := by
  obtain ⟨_, hsame⟩ | ⟨i, _, _, hpush⟩ := t.push_cases v
  · rwa [hsame]
  · rw [hpush]
    exact h.insert _ hv

theorem EveryValue.push {P : Value → Prop} {t : Tree} (h : t.EveryValue P) {v : Value}
    (hv : v.Everywhere P) : (t.push v).EveryValue P := by
  obtain ⟨_, hsame⟩ | ⟨i, _, _, hpush⟩ := t.push_cases v
  · rwa [hsame]
  · rw [hpush]
    exact h.insert _ hv

/-- A value behind everything in a tree: under an index that was free or, where the greatest index
is taken, nowhere. -/
def IsAppended (earlier now : Tree) (v : Value) : Prop :=
  (∃ i, earlier.get? (.index i) = none ∧ now = earlier.insert (.index i) v) ∨
    earlier.contains (.index Int64.maxValue) = true ∧ now = earlier

theorem isAppended_push (t : Tree) (v : Value) : t.IsAppended (t.push v) v := by
  obtain ⟨hnone, hsame⟩ | ⟨i, _, hfree, hpush⟩ := t.push_cases v
  · exact .inr ⟨(t.contains_iff _).mpr (t.nextIndex?_eq_none_iff.mp hnone), hsame⟩
  · exact .inl ⟨i, hfree, hpush⟩

/-! ### Appending to a sequence -/

theorem toList_sequenceFrom (i : Nat) (vs : List Value) :
    (sequenceFrom i vs).toList = (vs.zipIdx i).map fun e => (.index (Int64.ofNat e.2), e.1) := by
  induction vs generalizing i with
  | nil => rfl
  | cons v rest ih => rw [sequenceFrom, toList, ih, List.zipIdx_cons, List.map_cons]

theorem values_sequence (vs : List Value) : (sequence vs).values = vs := by
  rw [values_eq_map_toList, sequence, toList_sequenceFrom, List.map_map]
  exact List.zipIdx_map_fst 0 vs

theorem ceiling_sequenceFrom {i : Nat} {vs : List Value} (hne : vs ≠ [])
    (h : i + vs.length ≤ 2 ^ 63) : (sequenceFrom i vs).ceiling = i + vs.length := by
  induction vs generalizing i with
  | nil => exact absurd rfl hne
  | cons v rest ih =>
      rw [List.length_cons] at h
      have hfirst : (Int64.ofNat i).toInt = i := Int64.toInt_ofNat_of_lt (by omega)
      rw [sequenceFrom, ceiling, Key.above, hfirst, List.length_cons]
      by_cases hrest : rest = []
      · subst hrest
        rw [sequenceFrom, ceiling, List.length_nil]
        omega
      · rw [ih hrest (by omega)]
        omega

/-- The ceiling of a sequence is its length. -/
theorem ceiling_sequence {vs : List Value} (h : vs.length ≤ 2 ^ 63) :
    (sequence vs).ceiling = vs.length := by
  by_cases hne : vs = []
  · rw [hne]
    rfl
  · rw [sequence, ceiling_sequenceFrom hne (by omega), Nat.zero_add]

/-- A value appended to a sequence makes it one longer; behind `2 ^ 63` values no index is left. -/
theorem push_sequence {vs : List Value} (h : vs.length ≤ 2 ^ 63) (v : Value) :
    (sequence vs).push v = sequence (if vs.length = 2 ^ 63 then vs else vs ++ [v]) := by
  have hnext := nextIndex?_eq (sequence vs)
  rw [ceiling_sequence h] at hnext
  unfold push
  by_cases hfull : vs.length = 2 ^ 63
  · rw [if_pos hfull] at hnext ⊢
    rw [hnext]
  · rw [if_neg hfull] at hnext ⊢
    have hfree := (get?_eq_none_iff _ _).mp (get?_nextIndex? hnext)
    rw [hnext]
    apply toList_injective
    rw [toList_insert_of_not_mem _ v hfree, sequence, sequence, toList_sequenceFrom,
      toList_sequenceFrom, List.zipIdx_append, List.map_append, Nat.zero_add]
    rfl

/-- Values appended one after the other continue a sequence. -/
theorem foldl_push_sequence {us : List Value} (h : us.length ≤ 2 ^ 63) (vs : List Value) :
    vs.foldl push (sequence us) = sequence ((us ++ vs).take (2 ^ 63)) := by
  induction vs generalizing us with
  | nil => rw [List.foldl_nil, List.append_nil, List.take_of_length_le h]
  | cons v rest ih =>
      rw [List.foldl_cons, push_sequence h]
      by_cases hfull : us.length = 2 ^ 63
      · rw [if_pos hfull, ih h, List.take_append_of_le_length (Nat.le_of_eq hfull.symm),
          List.take_append_of_le_length (Nat.le_of_eq hfull.symm)]
      · have hlonger : (us ++ [v]).length ≤ 2 ^ 63 := by
          rw [List.length_append, List.length_singleton]
          omega
        rw [if_neg hfull, ih hlonger, List.append_assoc, List.singleton_append]

end Tree

end Quill
