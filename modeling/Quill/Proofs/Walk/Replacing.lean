import Quill.Proofs.Walk.Calls

/-!
# Replacing what is there

Replacing keeps to the values that are there, while setting makes what is missing and puts maps in
the way of other values.  Where everything that a path selects is there, the two come to the same.

The keys of a step are taken one after the other, each on the tree that the ones before it left.  So
that a path is there has to outlast setting along it.  It does on paths without sub-paths, whose
selected lists are all of one length: no value is set where another list goes on.  A sub-path may
end where another member goes on, and behind the value set there replacing finds nothing.
-/

namespace Quill

variable {σ : Type}

/-! ### What is there stays there -/

namespace Tree

section Steps

variable {value : Value} {isLast : Bool} {has : Tree → Bool} {inner : Tree → Tree}
  (hinner : ∀ child, has child = true → has (inner child) = true)

include hinner

/-- Setting under one key takes away nothing of what is there. -/
theorem hasAt_setAt {t : Tree} {k : Key} (hk : t.hasAt isLast has k = true) (k' : Key) :
    (t.setAt value isLast inner k').hasAt isLast has k = true := by
  obtain ⟨v, hv, hbelow⟩ := (hasAt_iff isLast has t k).mp hk
  rw [hasAt_iff]
  by_cases hsame : k' = k
  · subst hsame
    refine ⟨_, get?_setAt_self value isLast inner t k', ?_⟩
    cases isLast with
    | true => exact .inl rfl
    | false =>
        obtain hlast | ⟨child, rfl, hchild⟩ := hbelow
        · cases hlast
        · refine .inr ⟨_, rfl, ?_⟩
          rw [childAt_of_get? hv]
          exact hinner child hchild
  · exact ⟨v, by rw [get?_setAt_of_ne value isLast inner t hsame, hv], hbelow⟩

theorem hasAt_foldl_setAt_of_hasAt {t : Tree} {k : Key} (hk : t.hasAt isLast has k = true)
    (ks : List Key) : (ks.foldl (setAt value isLast inner) t).hasAt isLast has k = true := by
  induction ks generalizing t with
  | nil => exact hk
  | cons k' ks ih => exact ih (hasAt_setAt hinner hk k')

end Steps

theorem isEmpty_foldl_setAt {value : Value} {isLast : Bool} {inner : Tree → Tree} {t : Tree}
    (ht : t.isEmpty = false) (ks : List Key) :
    (ks.foldl (setAt value isLast inner) t).isEmpty = false := by
  induction ks generalizing t with
  | nil => exact ht
  | cons k ks ih =>
      refine ih ?_
      rw [← Bool.not_eq_true, isEmpty_iff]
      exact insert_ne_nil t k _

end Tree

/-- A path without sub-paths that is there is still there when a value has been set along it. -/
theorem Path.has_set_of_has (v : Value) : ∀ p : Path, p.NoSub → ∀ {t : Tree}, p.has t = true →
    p.has (p.set v t) = true
  | .nil, _, _, h => by cases h
  | .key text rest, hp, t, h => by
      have hinner : ∀ child, rest.has child = true → rest.has (rest.set v child) = true :=
        fun child => Path.has_set_of_has v rest hp
      rw [Path.has, Bool.and_eq_true, Bool.not_eq_true', List.all_eq_true] at h
      rw [Path.has, selectedKeys_set, Bool.and_eq_true, Bool.not_eq_true', List.all_eq_true,
        Path.set]
      exact ⟨Tree.isEmpty_foldl_setAt h.1 _,
        fun k hk => Tree.hasAt_foldl_setAt_of_hasAt hinner (h.2 k hk) _⟩
  | .group ms rest, hp, t, h => by
      have hinner : ∀ child, rest.has child = true → rest.has (rest.set v child) = true :=
        fun child => Path.has_set_of_has v rest hp.2
      rw [Path.has, Members.has_eq_all hp.1, Bool.and_eq_true, Bool.and_eq_true, Bool.not_eq_true',
        List.all_eq_true] at h
      rw [Path.has, Path.set, Members.set_eq_foldl v hp.1, Members.has_eq_all hp.1,
        Bool.and_eq_true, Bool.and_eq_true, Bool.not_eq_true', List.all_eq_true]
      exact ⟨⟨Tree.isEmpty_foldl_setAt h.1.1 _, h.1.2⟩,
        fun k hk => Tree.hasAt_foldl_setAt_of_hasAt hinner (h.2 k hk) _⟩

/-! ### Replacing against setting -/

namespace Tree

variable {f : Callback σ} {value : Value} (hf : ∀ v s, (f v s).1 = value) (root : Tree)
  {isLast : Bool} {has : Tree → Bool} {replace : List Key → Tree → σ → Tree × σ}
  {set : Tree → Tree}
  (hinner : ∀ child, has child = true → ∀ trail s, (replace trail child s).1 = set child)

include hf hinner

/-- Under a key that is there, replacing by one value is setting it. -/
theorem filterAt_eq_setAt {t : Tree} {k : Key} (hk : t.hasAt isLast has k = true)
    (trail : List Key) (s : σ) :
    (filterAt f root trail isLast replace (t, s) k).1 = t.setAt value isLast set k := by
  obtain ⟨v, hv, hbelow⟩ := (hasAt_iff isLast has t k).mp hk
  cases isLast with
  | true =>
      rw [filterAt_last _ _ _ _ _ hv, setAt, if_pos rfl, hf]
  | false =>
      obtain hlast | ⟨child, rfl, hchild⟩ := hbelow
      · cases hlast
      · rw [filterAt_map _ _ _ _ _ hv, setAt, if_neg Bool.false_ne_true, childAt_of_get? hv,
          hinner child hchild]

/-- Under keys that are all there, one after the other: each is still there when its turn comes. -/
theorem foldl_filterAt_eq_foldl_setAt (hset : ∀ child, has child = true → has (set child) = true)
    {ks : List Key} {t : Tree} (hks : ∀ k ∈ ks, t.hasAt isLast has k = true) (trail : List Key)
    (s : σ) : (ks.foldl (filterAt f root trail isLast replace) (t, s)).1 =
      ks.foldl (setAt value isLast set) t := by
  induction ks generalizing t s with
  | nil => rfl
  | cons k ks ih =>
      obtain ⟨hk, hothers⟩ := List.forall_mem_cons.mp hks
      have hstep := filterAt_eq_setAt hf root hinner hk trail s
      -- The other keys are still there after this one, some of them perhaps the same key again.
      have hleft : ∀ k' ∈ ks, (t.setAt value isLast set k).hasAt isLast has k' = true :=
        fun k' hk' => hasAt_setAt hset (hothers k' hk') k
      rw [← hstep] at hleft
      rw [List.foldl_cons, List.foldl_cons, ← hstep]
      exact ih hleft _

end Tree

/-- Along a path without sub-paths that is there, replacing every value by one and the same sets it,
wherever in the tree the walk starts. -/
theorem Path.filterFrom_eq_set {f : Callback σ} {value : Value} (hf : ∀ v s, (f v s).1 = value)
    (root : Tree) : ∀ p : Path, p.NoSub → ∀ {t : Tree}, p.has t = true →
    ∀ (trail : List Key) (s : σ), (p.filterFrom f root trail t s).1 = p.set value t
  | .nil, _, _, h, _, _ => by cases h
  | .key text rest, hp, t, h, trail, s => by
      rw [Path.has, Bool.and_eq_true, List.all_eq_true] at h
      rw [Path.filterFrom, Path.set]
      exact Tree.foldl_filterAt_eq_foldl_setAt hf root
        (fun child hchild => Path.filterFrom_eq_set hf root rest hp hchild)
        (fun child => Path.has_set_of_has value rest hp) h.2 trail s
  | .group ms rest, hp, t, h, trail, s => by
      rw [Path.has, Members.has_eq_all hp.1, Bool.and_eq_true, List.all_eq_true] at h
      rw [Path.filterFrom, Path.set, Members.filterFrom_eq_foldl f root hp.1,
        Members.set_eq_foldl value hp.1]
      exact Tree.foldl_filterAt_eq_foldl_setAt hf root
        (fun child hchild => Path.filterFrom_eq_set hf root rest hp.2 hchild)
        (fun child => Path.has_set_of_has value rest hp.2) h.2 trail s

/-- A path without sub-paths that is there: replacing all its values by one value is setting that
value along the path, the order of the keys included.  The callback may keep any state. -/
theorem Path.filter_eq_set_of_has {f : Callback σ} {value : Value}
    (hf : ∀ v s, (f v s).1 = value) {p : Path} (hp : p.NoSub) {t : Tree} (h : p.has t = true)
    (s : σ) : (p.filter f t s).1 = p.set value t :=
  Path.filterFrom_eq_set hf t p hp h [] s

/-- The marks of all rows, each named twice. -/
def twiceMarked : Path :=
  .key "*" (.group (.key "mark" (.key "mark" .nil)) .nil)

theorem Path.filter_eq_set_twiceMarked :
    let count : Callback Nat := fun _ n => (.int 7, n + 1)
    (∀ v n, (count v n).1 = .int 7) ∧ twiceMarked.NoSub ∧ twiceMarked.has markedRows = true ∧
      (twiceMarked.filter count markedRows 0).1 = twiceMarked.set (.int 7) markedRows ∧
      (twiceMarked.filter count markedRows 0).2 = 4 := by
  intro count
  have hcount : ∀ v n, (count v n).1 = .int 7 := fun _ _ => rfl
  have hp : twiceMarked.NoSub := by simp [twiceMarked, Path.NoSub, Members.KeysOnly]
  have h : twiceMarked.has markedRows = true := by decide
  exact ⟨hcount, hp, h, Path.filter_eq_set_of_has hcount hp h 0, by decide⟩

end Quill
