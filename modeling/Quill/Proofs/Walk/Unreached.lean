import Quill.Proofs.Walk.Frame
import Quill.Walk.Update

/-!
# What the walks that change a tree leave alone

Setting, removing and replacing along a path change nothing outside of what the path selects.  The
value at the end of a list of keys that the path does not reach stays, and so does its absence; the
maps on the way to it hold the keys they keep in the order they had.

Each walk gets one lemma for a step to one key, and from it one induction over the path.
-/

namespace Quill

/-! ### Setting -/

/-- Below a key stands what its map holds, whatever else the key may hold. -/
theorem Tree.bind_at?_cons (t : Tree) (k k' : Key) (q : List Key) :
    (t.get? k).bind (·.at? (k' :: q)) = (t.childAt k).at? (k' :: q) := by
  unfold childAt
  cases hv : t.get? k with
  | none => rfl
  | some v =>
      cases v with
      | map child => rfl
      | _ => rfl

theorem Tree.childAt_of_get? {t child : Tree} {k : Key} (h : t.get? k = some (.map child)) :
    t.childAt k = child := by
  rw [childAt, h]

/-- Setting under one key.  Nothing is claimed when the step is the last one; else the map under
the key, made where there is none, is left alone outside of what the rest selects. -/
theorem Tree.frame_setAt (value : Value) {isLast : Bool} {inner : Tree → Tree}
    {behind : List Key → Prop} (hne : ∃ s, behind s) (hlast : isLast = true → behind [])
    (hinner : ∀ t : Tree, Frame Extends behind t.at? (inner t).at?) (t : Tree) (k : Key) :
    Frame Extends (UnderKey k behind) t.at? (t.setAt value isLast inner k).at? := by
  refine Frame.underKey isKeeping_extends hne ?_ (fun k' hk => ?_) ?_
  · by_cases hk : k ∈ t.keys
    · rw [setAt, keys_insert_of_mem t _ hk]
      exact isKeeping_extends.refl _
    · rw [setAt, keys_insert_of_not_mem t _ hk]
      exact ⟨[k], rfl, fun k' hk' => by rwa [List.mem_singleton.mp hk']⟩
  · exact get?_insert_of_ne t _ (Ne.symm hk)
  · by_cases hl : isLast = true
    · exact .of_nil (hlast hl) _ _
    · rw [setAt, if_neg hl]
      simp only [get?_insert_self, Option.bind_some]
      -- Where no map was, an empty one is set into: below it nothing was found before either.
      refine (hinner (t.childAt k)).of_below hne (t.bind_at?_cons k) fun m hm => ?_
      rw [Option.bind_eq_some_iff] at hm
      obtain ⟨v, hv, hm⟩ := hm
      rw [Value.at?_nil, Option.some.injEq] at hm
      subst hm
      rw [at?_nil, childAt_of_get? hv]

mutual

/-- Setting along a path leaves alone what the path does not select. -/
theorem Path.frame_set (value : Value) : ∀ p : Path, p.NoneEmpty → ∀ t : Tree,
    Frame Extends p.Selects t.at? (p.set value t).at?
  | .nil, _, t => .of_nil (Path.selects_nil_of_isNil rfl) _ _
  | .key text rest, h, t => by
      have hrest := Path.frame_set value rest h
      rw [Path.set]
      refine List.foldlRecOn
        (motive := fun t' : Tree => Frame Extends (Path.key text rest).Selects t.at? t'.at?)
        _ _ (.refl isKeeping_extends _ _) fun t' hbefore k hk => ?_
      have hstep := t'.frame_setAt value (rest.exists_selects h) Path.selects_nil_of_isNil hrest k
      exact hbefore.trans isKeeping_extends (hstep.mono fun s => Path.selects_of_underKey hk)
  | .group ms rest, h, t => by
      obtain ⟨_, hms, hrest⟩ := h
      have hinner := Path.frame_set value rest hrest
      rw [Path.set]
      exact Members.frame_set value ms hms (rest.exists_selects hrest)
        Path.selects_nil_of_isNil hinner t

theorem Members.frame_set (value : Value) {isLast : Bool} {inner : Tree → Tree}
    {behind : List Key → Prop} : ∀ ms : Members, ms.NoneEmpty → (∃ s, behind s) →
    (isLast = true → behind []) → (∀ t : Tree, Frame Extends behind t.at? (inner t).at?) →
    ∀ t : Tree, Frame Extends (ms.Selects behind) t.at? (ms.set value isLast inner t).at?
  | .nil, _, _, _, _, t => .refl isKeeping_extends _ _
  | .key text rest, h, hne, hlast, hinner, t => by
      have hfirst := t.frame_setAt value hne hlast hinner (.ofText text)
      have hrest := Members.frame_set value rest h hne hlast hinner
        (t.setAt value isLast inner (.ofText text))
      rw [Members.set]
      exact hfirst.seq isKeeping_extends hrest
  | .path sub rest, h, hne, hlast, hinner, t => by
      obtain ⟨_, hsub, hms⟩ := h
      have hfirst := Path.frame_set value sub hsub t
      have hrest := Members.frame_set value rest hms hne hlast hinner (sub.set value t)
      rw [Members.set]
      exact hfirst.seq isKeeping_extends hrest

end

/-! ### Removing -/

/-- What removing under one key comes to: the key goes, because the step is the last one or because
the map under it is emptied, or the map under it is changed, or nothing is. -/
theorem Tree.removeAt_cases (keepEmpty isLast : Bool) (inner : Tree → Tree) (t : Tree) (k : Key) :
    (isLast = true ∧ t.removeAt keepEmpty isLast inner k = t.erase k) ∨
    (isLast = false ∧ ∃ child, t.get? k = some (.map child) ∧ inner child = .nil ∧
      keepEmpty = false ∧ t.removeAt keepEmpty isLast inner k = t.erase k) ∨
    (isLast = false ∧ ∃ child, t.get? k = some (.map child) ∧
      (inner child = .nil → keepEmpty = true) ∧
      t.removeAt keepEmpty isLast inner k = t.insert k (.map (inner child))) ∨
    (isLast = false ∧ (∀ child, t.get? k ≠ some (.map child)) ∧
      t.removeAt keepEmpty isLast inner k = t) := by
  unfold removeAt
  cases isLast with
  | true => exact .inl ⟨rfl, rfl⟩
  | false =>
      refine .inr ?_
      simp only [Bool.false_eq_true, if_false, true_and]
      cases hv : t.get? k with
      | none => exact .inr (.inr ⟨by simp, rfl⟩)
      | some v =>
          cases v with
          | map child =>
              by_cases hprune : ((inner child).isEmpty && !keepEmpty) = true
              · have hsplit := hprune
                rw [Bool.and_eq_true, isEmpty_iff, Bool.not_eq_true'] at hsplit
                exact .inl ⟨child, rfl, hsplit.1, hsplit.2, if_pos hprune⟩
              · have hkept : inner child = .nil → keepEmpty = true := by
                  intro he
                  simpa [he, isEmpty] using hprune
                exact .inr (.inl ⟨child, rfl, hkept, if_neg hprune⟩)
          | _ => exact .inr (.inr ⟨by simp, rfl⟩)

/-- Removing under one key keeps the keys distinct at every depth. -/
theorem Tree.Distinct.removeAt {t : Tree} (ht : t.Distinct) (keepEmpty isLast : Bool)
    {inner : Tree → Tree} (hinner : ∀ t : Tree, t.Distinct → (inner t).Distinct) (k : Key) :
    (t.removeAt keepEmpty isLast inner k).Distinct := by
  rcases t.removeAt_cases keepEmpty isLast inner k with
    ⟨_, h⟩ | ⟨_, child, _, _, _, h⟩ | ⟨_, child, hv, _, h⟩ | ⟨_, _, h⟩
  · rw [h]
    exact ht.erase k
  · rw [h]
    exact ht.erase k
  · rw [h]
    exact ht.insert k (hinner child (ht.of_get? hv))
  · rwa [h]

/-- Removing under one key, seen backwards: the keys of the tree that comes out stand among the
keys of the tree that goes in.  A map that is emptied and goes holds below it what is held below a
missing value, nothing. -/
theorem Tree.frame_removeAt {t : Tree} (ht : t.Distinct) (keepEmpty : Bool) {isLast : Bool}
    {inner : Tree → Tree} {behind : List Key → Prop} (hne : ∃ s, behind s)
    (hlast : isLast = true → behind [])
    (hinner : ∀ t : Tree, t.Distinct → Frame List.Sublist behind (inner t).at? t.at?) (k : Key) :
    Frame List.Sublist (UnderKey k behind) (t.removeAt keepEmpty isLast inner k).at? t.at? := by
  have herase : (t.erase k).keys.Sublist t.keys := by
    rw [keys_erase]
    exact List.erase_sublist
  have hothers : ∀ k', k' ≠ k → t.get? k' = (t.erase k).get? k' :=
    fun k' hk => (get?_erase_of_ne t (Ne.symm hk)).symm
  rcases t.removeAt_cases keepEmpty isLast inner k with
    ⟨hl, h⟩ | ⟨_, child, hv, hempty, _, h⟩ | ⟨_, child, hv, _, h⟩ | ⟨_, _, h⟩
  · rw [h]
    exact .underKey isKeeping_sublist hne herase hothers (.of_nil (hlast hl) _ _)
  · rw [h]
    refine .underKey isKeeping_sublist hne herase hothers ?_
    -- The emptied map goes: nothing is found below the missing key, as in an empty map.
    have hchild := hinner child (ht.of_get? hv)
    rw [hempty] at hchild
    rw [get?_erase_self ht.nodup_keys, hv]
    exact hchild.of_below hne (fun k' q => rfl) (fun m hm => by cases hm)
  · rw [h]
    refine .underKey isKeeping_sublist hne ?_ (fun k' hk => ?_) ?_
    · have hkeys := keys_insert_of_mem t (.map (inner child)) (mem_keys_of_get? hv)
      simpa only [hkeys] using List.Sublist.refl t.keys
    · exact (get?_insert_of_ne t _ (Ne.symm hk)).symm
    · rw [get?_insert_self, hv]
      exact hinner child (ht.of_get? hv)
  · rw [h]
    exact .refl isKeeping_sublist _ _

mutual

/-- Removing along a path leaves alone what the path does not select, and keeps the keys distinct
at every depth. -/
theorem Path.frame_remove (keepEmpty : Bool) : ∀ p : Path, p.NoneEmpty → ∀ t : Tree, t.Distinct →
    (p.remove keepEmpty t).Distinct ∧
      Frame List.Sublist p.Selects (p.remove keepEmpty t).at? t.at?
  | .nil, _, t, ht => ⟨ht, .of_nil (Path.selects_nil_of_isNil rfl) _ _⟩
  | .key text rest, h, t, ht => by
      have hrest := Path.frame_remove keepEmpty rest h
      rw [Path.remove]
      refine List.foldlRecOn
        (motive := fun t' : Tree => t'.Distinct ∧
          Frame List.Sublist (Path.key text rest).Selects t'.at? t.at?)
        _ _ ⟨ht, .refl isKeeping_sublist _ _⟩ ?_
      rintro t' ⟨ht', hbefore⟩ k hk
      -- The keys were taken from the tree at the start, the step works on what is left of it.
      have hdistinct := ht'.removeAt keepEmpty rest.isNil (fun u hu => (hrest u hu).1) k
      have hstep := t'.frame_removeAt ht' keepEmpty (rest.exists_selects h)
        Path.selects_nil_of_isNil (fun u hu => (hrest u hu).2) k
      exact ⟨hdistinct,
        (hstep.mono fun s => Path.selects_of_underKey hk).trans isKeeping_sublist hbefore⟩
  | .group ms rest, h, t, ht => by
      obtain ⟨_, hms, hrest⟩ := h
      have hinner := Path.frame_remove keepEmpty rest hrest
      rw [Path.remove]
      exact Members.frame_remove keepEmpty ms hms (rest.exists_selects hrest)
        Path.selects_nil_of_isNil hinner t ht

theorem Members.frame_remove (keepEmpty : Bool) {isLast : Bool} {inner : Tree → Tree}
    {behind : List Key → Prop} : ∀ ms : Members, ms.NoneEmpty → (∃ s, behind s) →
    (isLast = true → behind []) →
    (∀ t : Tree, t.Distinct →
      (inner t).Distinct ∧ Frame List.Sublist behind (inner t).at? t.at?) →
    ∀ t : Tree, t.Distinct → (ms.remove keepEmpty isLast inner t).Distinct ∧
      Frame List.Sublist (ms.Selects behind) (ms.remove keepEmpty isLast inner t).at? t.at?
  | .nil, _, _, _, _, t, ht => ⟨ht, .refl isKeeping_sublist _ _⟩
  | .key text rest, h, hne, hlast, hinner, t, ht => by
      have ht' := ht.removeAt keepEmpty isLast (fun u hu => (hinner u hu).1) (.ofText text)
      have hfirst := t.frame_removeAt ht keepEmpty hne hlast (fun u hu => (hinner u hu).2)
        (.ofText text)
      obtain ⟨hdistinct, hrest⟩ := Members.frame_remove keepEmpty rest h hne hlast hinner _ ht'
      rw [Members.remove]
      exact ⟨hdistinct, (hrest.seq isKeeping_sublist hfirst).mono fun s => Or.symm⟩
  | .path sub rest, h, hne, hlast, hinner, t, ht => by
      obtain ⟨_, hsub, hms⟩ := h
      obtain ⟨ht', hfirst⟩ := Path.frame_remove keepEmpty sub hsub t ht
      obtain ⟨hdistinct, hrest⟩ := Members.frame_remove keepEmpty rest hms hne hlast hinner _ ht'
      rw [Members.remove]
      exact ⟨hdistinct, (hrest.seq isKeeping_sublist hfirst).mono fun s => Or.symm⟩

end

/-! ### Replacing -/

variable {σ : Type}

/-- What replacing under one key comes to: the value there is changed, at the end to whatever the
callback answers and before it below the key alone, or nothing is. -/
theorem Tree.filterAt_cases (f : Callback σ) (root : Tree) (trail : List Key) (isLast : Bool)
    (inner : List Key → Tree → σ → Tree × σ) (ts : Tree × σ) (k : Key) :
    (isLast = true ∧ ∃ v, ts.1.get? k = some v ∧
      ∃ v', (filterAt f root trail isLast inner ts k).1 = ts.1.insert k v') ∨
    (isLast = false ∧ ∃ child, ts.1.get? k = some (.map child) ∧
      (filterAt f root trail isLast inner ts k).1 =
        ts.1.insert k (.map (inner (trail ++ [k]) child ts.2).1)) ∨
    (filterAt f root trail isLast inner ts k).1 = ts.1 := by
  unfold filterAt
  cases hv : ts.1.get? k with
  | none => exact .inr (.inr rfl)
  | some v =>
      cases isLast with
      | true => exact .inl ⟨rfl, v, rfl, _, rfl⟩
      | false =>
          cases v with
          | map child => exact .inr (.inl ⟨rfl, child, rfl, rfl⟩)
          | _ => exact .inr (.inr rfl)

/-- Replacing under one key keeps every key and its place. -/
theorem Tree.frame_filterAt (f : Callback σ) (root : Tree) (trail : List Key) {isLast : Bool}
    {inner : List Key → Tree → σ → Tree × σ} {behind : List Key → Prop} (hne : ∃ s, behind s)
    (hlast : isLast = true → behind [])
    (hinner : ∀ trail t s, Frame (· = ·) behind t.at? (inner trail t s).1.at?)
    (ts : Tree × σ) (k : Key) :
    Frame (· = ·) (UnderKey k behind) ts.1.at?
      (filterAt f root trail isLast inner ts k).1.at? := by
  rcases filterAt_cases f root trail isLast inner ts k with
    ⟨hl, v, hv, v', h⟩ | ⟨_, child, hv, h⟩ | h
  · rw [h]
    refine .underKey isKeeping_eq hne ?_ (fun k' hk => ?_) (.of_nil (hlast hl) _ _)
    · exact (keys_insert_of_mem _ _ (mem_keys_of_get? hv)).symm
    · exact get?_insert_of_ne _ _ (Ne.symm hk)
  · rw [h]
    refine .underKey isKeeping_eq hne ?_ (fun k' hk => ?_) ?_
    · exact (keys_insert_of_mem _ _ (mem_keys_of_get? hv)).symm
    · exact get?_insert_of_ne _ _ (Ne.symm hk)
    · rw [get?_insert_self, hv]
      exact hinner (trail ++ [k]) child ts.2
  · rw [h]
    exact .refl isKeeping_eq _ _

mutual

/-- Replacing along a path leaves alone what the path does not select, whatever the callback
answers. -/
theorem Path.frame_filterFrom (f : Callback σ) (root : Tree) : ∀ p : Path, p.NoneEmpty →
    ∀ trail t s, Frame (· = ·) p.Selects t.at? (p.filterFrom f root trail t s).1.at?
  | .nil, _, _, t, _ => .of_nil (Path.selects_nil_of_isNil rfl) _ _
  | .key text rest, h, trail, t, s => by
      have hrest := Path.frame_filterFrom f root rest h
      rw [Path.filterFrom]
      refine List.foldlRecOn
        (motive := fun ts : Tree × σ =>
          Frame (· = ·) (Path.key text rest).Selects t.at? ts.1.at?)
        _ _ (.refl isKeeping_eq _ _) fun ts hbefore k hk => ?_
      have hstep := Tree.frame_filterAt f root trail (rest.exists_selects h)
        Path.selects_nil_of_isNil hrest ts k
      exact hbefore.trans isKeeping_eq (hstep.mono fun s => Path.selects_of_underKey hk)
  | .group ms rest, h, trail, t, s => by
      obtain ⟨_, hms, hrest⟩ := h
      have hinner := Path.frame_filterFrom f root rest hrest
      rw [Path.filterFrom]
      exact Members.frame_filterFrom f root ms hms (rest.exists_selects hrest)
        Path.selects_nil_of_isNil hinner trail t s

theorem Members.frame_filterFrom (f : Callback σ) (root : Tree) {isLast : Bool}
    {inner : List Key → Tree → σ → Tree × σ} {behind : List Key → Prop} :
    ∀ ms : Members, ms.NoneEmpty → (∃ s, behind s) → (isLast = true → behind []) →
    (∀ trail t s, Frame (· = ·) behind t.at? (inner trail t s).1.at?) →
    ∀ trail t s, Frame (· = ·) (ms.Selects behind) t.at?
      (ms.filterFrom f root isLast inner trail t s).1.at?
  | .nil, _, _, _, _, _, _, _ => .refl isKeeping_eq _ _
  | .key text rest, h, hne, hlast, hinner, trail, t, s => by
      have hfirst := Tree.frame_filterAt f root trail hne hlast hinner (t, s) (.ofText text)
      have hrest := Members.frame_filterFrom f root rest h hne hlast hinner trail
      rw [Members.filterFrom]
      exact hfirst.seq isKeeping_eq (hrest _ _)
  | .path sub rest, h, hne, hlast, hinner, trail, t, s => by
      obtain ⟨_, hsub, hms⟩ := h
      have hfirst := Path.frame_filterFrom f root sub hsub trail t s
      have hrest := Members.frame_filterFrom f root rest hms hne hlast hinner trail
      rw [Members.filterFrom]
      exact hfirst.seq isKeeping_eq (hrest _ _)

end

/-! ### Out of reach -/

/-- The keys that two lists share stand in the same order in both. -/
def SameOrder (ks ls : List Key) : Prop :=
  ks.filter (· ∈ ls) = ls.filter (· ∈ ks)

instance (ks ls : List Key) : Decidable (SameOrder ks ls) :=
  inferInstanceAs (Decidable (_ = _))

/-- Two trees agree along a list of keys: at its end they hold the same value or both nothing, and
the maps that both hold on the way have the keys they share in the same order. -/
def SameAlong (q : List Key) (t t' : Tree) : Prop :=
  t'.at? q = t.at? q ∧
    ∀ r, r <+: q → ∀ m m', t.at? r = some (.map m) → t'.at? r = some (.map m') →
      SameOrder m.keys m'.keys

theorem SameOrder.symm {ks ls : List Key} (h : SameOrder ks ls) : SameOrder ls ks :=
  Eq.symm h

theorem SameOrder.refl (ks : List Key) : SameOrder ks ks :=
  rfl

theorem Extends.sameOrder {ks ls : List Key} (h : Extends ks ls) : SameOrder ks ls := by
  obtain ⟨new, rfl, hnew⟩ := h
  have hold : ks.filter (fun k => k ∈ ks ++ new) = ks := by
    rw [List.filter_eq_self]
    intro k hk
    simp [hk]
  have hadded : (ks ++ new).filter (fun k => k ∈ ks) = ks := by
    rw [List.filter_append, List.filter_eq_self.mpr (by simp),
      List.filter_eq_nil_iff.mpr (by simpa using hnew), List.append_nil]
  exact hold.trans hadded.symm

/-- A list without repetition, cut down to the members of a sublist, is the sublist. -/
theorem filter_mem_of_sublist {ks ls : List Key} (h : List.Sublist ks ls) (hls : ls.Nodup) :
    ls.filter (fun k => k ∈ ks) = ks := by
  induction h with
  | slnil => rfl
  | @cons ks ls a hsub ih =>
      obtain ⟨ha, hls⟩ := List.nodup_cons.mp hls
      have hdropped : ¬decide (a ∈ ks) = true := by
        simpa using fun h => ha (hsub.subset h)
      rw [List.filter_cons, if_neg hdropped, ih hls]
  | @cons_cons ks ls a hsub ih =>
      obtain ⟨ha, hls⟩ := List.nodup_cons.mp hls
      have hbehind : ls.filter (fun k => k ∈ a :: ks) = ls.filter (fun k => k ∈ ks) := by
        refine List.filter_congr fun k hk => ?_
        have hne : k ≠ a := fun h => ha (h ▸ hk)
        simp [hne]
      rw [List.filter_cons, if_pos (by simp), hbehind, ih hls]

/-- Keys that are kept of a list without repetition keep their order. -/
theorem sameOrder_of_sublist {ks ls : List Key} (h : List.Sublist ks ls) (hls : ls.Nodup) :
    SameOrder ks ls := by
  have hkept : ks.filter (fun k => k ∈ ls) = ks := by
    rw [List.filter_eq_self]
    intro k hk
    simpa using h.subset hk
  exact hkept.trans (filter_mem_of_sublist h hls).symm

/-- Keys distinct at every depth of a value are distinct at every depth of what it holds. -/
theorem Value.Distinct.at? {v w : Value} {ks : List Key} (hv : v.Distinct)
    (h : v.at? ks = some w) : w.Distinct := by
  induction ks generalizing v with
  | nil =>
      rw [Value.at?_nil, Option.some.injEq] at h
      rwa [← h]
  | cons k ks ih =>
      cases v with
      | map t =>
          rw [Value.at?_map_cons, Option.bind_eq_some_iff] at h
          obtain ⟨u, hu, h⟩ := h
          exact ih (Tree.Distinct.of_get? hv hu) h
      | _ => cases h

/-- A frame, read along a list of keys out of reach: no selected list leads to a map on the way. -/
theorem Frame.sameAlong {keep : List Key → List Key → Prop} {S : List Key → Prop} {t t' : Tree}
    (h : Frame keep S t.at? t'.at?) {q : List Key} (hq : ¬Touches S q)
    (horder : ∀ r m m', t.at? r = some (.map m) → t'.at? r = some (.map m') →
      keep m.keys m'.keys → SameOrder m.keys m'.keys) : SameAlong q t t' := by
  refine ⟨h.same q hq, fun r hr m m' hm hm' => ?_⟩
  obtain ⟨m'', hm'', hkeep⟩ := h.maps r (fun hc => hq (hc.touches hr)) m hm
  rw [hm', Option.some.injEq, Value.map.injEq] at hm''
  subst hm''
  exact horder r m m' hm hm' hkeep

theorem SameAlong.symm {q : List Key} {t t' : Tree} (h : SameAlong q t t') : SameAlong q t' t :=
  ⟨h.1.symm, fun r hr m m' hm hm' => (h.2 r hr m' m hm' hm).symm⟩

/-- What the walks that change a tree leave alone.  Along a list of keys that begins no selected
list and that no selected list begins, setting, removing and replacing leave the value at its end,
or its absence, and the order of the keys that the maps on the way keep. -/
theorem Path.sameAlong_of_not_touches {σ : Type} {t : Tree} (ht : t.Distinct) {p : Path}
    (hp : p.NoneEmpty) (value : Value) (keepEmpty : Bool) (f : Callback σ) (s : σ) {q : List Key}
    (hq : ¬Touches p.Selects q) :
    SameAlong q t (p.set value t) ∧ SameAlong q t (p.remove keepEmpty t) ∧
      SameAlong q t (p.filter f t s).1 := by
  have hset := p.frame_set value hp t
  -- This one leads from the tree behind the change to the tree before it.
  have hremove := (p.frame_remove keepEmpty hp t ht).2
  have hfilter := p.frame_filterFrom f t hp [] t s
  refine ⟨hset.sameAlong hq ?_, (hremove.sameAlong hq ?_).symm, hfilter.sameAlong hq ?_⟩
  · intro r m m' _ _ hkeys
    exact hkeys.sameOrder
  · intro r m m' _ hm' hkeys
    have hdistinct : m'.Distinct := Value.Distinct.at? (v := .map t) ht hm'
    exact sameOrder_of_sublist hkeys hdistinct.nodup_keys
  · intro r m m' _ _ hkeys
    rw [hkeys]
    exact SameOrder.refl _

/-- Rows with a mark, and a key that is not one. -/
def markedRows : Tree :=
  .cons (.name "a") (.map (.cons (.name "mark") (.int 1) (.cons (.name "kept") (.int 2) .nil)))
    (.cons (.name "b") (.map (.cons (.name "mark") (.map (.cons (.name "deep") .null .nil)) .nil))
      .nil)

theorem markedRows_distinct : markedRows.Distinct := by
  simp [markedRows, Tree.Distinct, Value.Distinct, Tree.keys]

/-- The marks of all rows, and what is deep below them, taken by one group. -/
def everyMark : Path :=
  .key "*" (.group (.key "mark" (.path (.key "mark" (.key "deep" .nil)) .nil)) .nil)

theorem sameAlong_everyMark :
    markedRows.Distinct ∧ everyMark.NoneEmpty ∧
      ¬Touches everyMark.Selects [.name "a", .name "kept"] ∧
      SameAlong [.name "a", .name "kept"] markedRows (everyMark.set .null markedRows) ∧
      SameAlong [.name "a", .name "kept"] markedRows (everyMark.remove false markedRows) ∧
      SameAlong [.name "a", .name "kept"] markedRows
        (everyMark.filter (fun _ n => (.bool true, n + 1)) markedRows 0).1 := by
  have ht : markedRows.Distinct := by
    simp [markedRows, Tree.Distinct, Value.Distinct, Tree.keys]
  have hp : everyMark.NoneEmpty := by
    simp [everyMark, Path.NoneEmpty, Members.NoneEmpty]
  have hq : ¬Touches everyMark.Selects [.name "a", .name "kept"] := by
    have hmark : Key.ofText "mark" ≠ .name "kept" := by decide
    rintro ⟨s, hs, hprefix⟩
    cases s with
    | nil => exact Path.not_selects_key_nil _ _ hs
    | cons k tail =>
        rw [everyMark, Path.selects_key_cons] at hs
        obtain ⟨_, ⟨u, rfl, rfl⟩ | hsub | hnone⟩ := hs
        · simp [hmark, hmark.symm] at hprefix
        · cases tail with
          | nil => exact Path.not_selects_key_nil _ _ hsub
          | cons k' tail =>
              obtain ⟨hw | rfl, _⟩ := (Path.selects_key_cons _ _ _ _).mp hsub
              · exact absurd hw (by decide)
              · simp [hmark, hmark.symm] at hprefix
        · exact hnone
  exact ⟨ht, hp, hq, Path.sameAlong_of_not_touches ht hp .null false _ 0 hq⟩

end Quill
