import Quill.Proofs.Navigation.Answers
import Quill.Proofs.Walk.Lens

/-!
# Reading against asking

A path is there if every key that it selects is there.  Then reading never falls back to the
default, whatever the path is made of.  If something is missing the default shows: along keys and
groups of keys it stands somewhere in the result, and along keys alone it is the result.

Wildcards and sub-paths are left out of the second half.  A wildcard over an empty map reads nothing
at all, and what one sub-path reads another member can replace, so a path that is not there can be
read without the default.
-/

namespace Quill

namespace Tree

/-- A step ends at a value, goes on in a map, or falls back to the default. -/
theorem descendAt_cases (t : Tree) (k : Key) (isLast : Bool) :
    (∃ v, ∀ has, t.hasAt isLast has k = true ∧
      ∀ default inner, t.descendAt default isLast inner k = v) ∨
    (∃ child, isLast = false ∧ t.get? k = some (.map child) ∧
      ∀ has, t.hasAt isLast has k = has child ∧
        ∀ default inner, t.descendAt default isLast inner k = inner child) ∨
    ∀ has, t.hasAt isLast has k = false ∧
      ∀ default inner, t.descendAt default isLast inner k = default := by
  unfold hasAt descendAt Value.descend
  cases t.get? k with
  | none => exact .inr (.inr fun has => ⟨rfl, fun default inner => rfl⟩)
  | some v =>
      cases isLast with
      | true => exact .inl ⟨v, fun has => ⟨rfl, fun default inner => rfl⟩⟩
      | false =>
          cases v with
          | map child =>
              exact .inr (.inl ⟨child, rfl, rfl, fun has => ⟨rfl, fun default inner => rfl⟩⟩)
          | _ => exact .inr (.inr fun has => ⟨rfl, fun default inner => rfl⟩)

section Step

variable {isLast : Bool} {has : Tree → Bool} {inner inner' : Tree → Value} {t : Tree} {k : Key}
  {d d' : Value}

/-- A key that is there is read without the default. -/
theorem descendAt_congr_of_hasAt (h : t.hasAt isLast has k = true)
    (hinner : ∀ child, isLast = false → t.get? k = some (.map child) → has child = true →
      inner child = inner' child) :
    t.descendAt d isLast inner k = t.descendAt d' isLast inner' k := by
  rcases t.descendAt_cases k isLast with ⟨v, hv⟩ | ⟨child, hlast, hget, hchild⟩ | hnone
  · rw [(hv has).2, (hv has).2]
  · rw [(hchild has).2, (hchild has).2]
    exact hinner child hlast hget ((hchild has).1 ▸ h)
  · rw [(hnone has).1] at h
    cases h

/-- Where a key is not there, the default shows. -/
theorem descendAt_ne_of_hasAt_eq_false (h : t.hasAt isLast has k = false) (hd : d ≠ d')
    (hinner : isLast = false → ∀ child, has child = false → inner child ≠ inner' child) :
    t.descendAt d isLast inner k ≠ t.descendAt d' isLast inner' k := by
  rcases t.descendAt_cases k isLast with ⟨v, hv⟩ | ⟨child, hlast, _, hchild⟩ | hnone
  · rw [(hv has).1] at h
    cases h
  · rw [(hchild has).2, (hchild has).2]
    exact hinner hlast child ((hchild has).1 ▸ h)
  · rw [(hnone has).2, (hnone has).2]
    exact hd

/-- Where a key is not there, a step gives the default. -/
theorem descendAt_eq_of_hasAt_eq_false (h : t.hasAt isLast has k = false)
    (hinner : isLast = false → ∀ child, has child = false → inner child = d) :
    t.descendAt d isLast inner k = d := by
  rcases t.descendAt_cases k isLast with ⟨v, hv⟩ | ⟨child, hlast, _, hchild⟩ | hnone
  · rw [(hv has).1] at h
    cases h
  · rw [(hchild has).2]
    exact hinner hlast child ((hchild has).1 ▸ h)
  · exact (hnone has).2 d inner

end Step

theorem mapValues_congr {f g : Value → Value} {t : Tree} (h : ∀ e ∈ t.toList, f e.2 = g e.2) :
    t.mapValues f = t.mapValues g := by
  induction t with
  | nil => rfl
  | cons k v rest ih =>
      obtain ⟨hv, hrest⟩ := List.forall_mem_cons.mp h
      rw [mapValues, mapValues, ih hrest]
      exact congrArg (fun w => cons k w (rest.mapValues g)) hv

end Tree

/-! ### What is there is read without the default -/

mutual

theorem Path.get_eq_of_has (d d' : Value) : ∀ (p : Path) (nested : Bool) {t : Tree}, t.Distinct →
    p.has t = true → p.get d nested t = p.get d' nested t
  | .nil, _, _, _, h => by cases h
  | .key text rest, nested, t, ht, h => by
      have hinner : ∀ k child, rest.isNil = false → t.get? k = some (.map child) →
          rest.has child = true → rest.get d nested child = rest.get d' nested child :=
        fun k child _ hchild hhas => Path.get_eq_of_has d d' rest nested (ht.of_get? hchild) hhas
      rw [Path.has, Bool.and_eq_true, List.all_eq_true] at h
      obtain ⟨_, hall⟩ := h
      by_cases hw : text = Path.wildcard
      · rw [Path.selectedKeys, if_pos hw] at hall
        have hfound : t.mapValues (·.descend d rest.isNil (rest.get d nested)) =
            t.mapValues (·.descend d' rest.isNil (rest.get d' nested)) := by
          apply Tree.mapValues_congr
          rintro ⟨k, v⟩ hmem
          have hk : t.get? k = some v := Tree.get?_of_mem_toList ht.nodup_keys hmem
          have hstep : t.descendAt d rest.isNil (rest.get d nested) k =
              t.descendAt d' rest.isNil (rest.get d' nested) k :=
            Tree.descendAt_congr_of_hasAt (hall k (Tree.mem_keys_of_get? hk)) (hinner k)
          rwa [Tree.descendAt_of_get? hk, Tree.descendAt_of_get? hk] at hstep
        rw [Path.get, Path.get, if_pos hw, if_pos hw, hfound]
      · rw [Path.selectedKeys, if_neg hw] at hall
        have hstep : t.descendAt d rest.isNil (rest.get d nested) (.ofText text) =
            t.descendAt d' rest.isNil (rest.get d' nested) (.ofText text) :=
          Tree.descendAt_congr_of_hasAt (hall _ List.mem_cons_self) (hinner _)
        rw [Path.get, Path.get, if_neg hw, if_neg hw]
        simp only [hstep]
  | .group ms rest, nested, t, ht, h => by
      rw [Path.has, Bool.and_eq_true] at h
      rw [Path.get, Path.get]
      refine congrArg Value.map
        (Members.get_eq_of_has d d' ms ht h.2 (fun child hchild hhas => ?_) _)
      obtain ⟨k, hk⟩ := hchild
      exact Path.get_eq_of_has d d' rest nested (ht.of_get? hk) hhas

theorem Members.get_eq_of_has (d d' : Value) {isLast : Bool} {has : Tree → Bool}
    {inner inner' : Tree → Value} : ∀ (ms : Members) {t : Tree}, t.Distinct →
    ms.has isLast has t = true →
    (∀ child, (∃ k, t.get? k = some (.map child)) → has child = true →
      inner child = inner' child) →
    ∀ found, ms.get d isLast inner t found = ms.get d' isLast inner' t found
  | .nil, _, _, _, _, _ => rfl
  | .key text rest, t, ht, h, hinner, found => by
      rw [Members.has, Bool.and_eq_true] at h
      have hstep : t.descendAt d isLast inner (.ofText text) =
          t.descendAt d' isLast inner' (.ofText text) :=
        Tree.descendAt_congr_of_hasAt h.1 fun child _ hget => hinner child ⟨_, hget⟩
      rw [Members.get, Members.get, hstep]
      exact Members.get_eq_of_has d d' rest ht h.2 hinner _
  | .path sub rest, t, ht, h, hinner, found => by
      rw [Members.has, Bool.and_eq_true] at h
      rw [Members.get, Members.get, Path.get_eq_of_has d d' sub true ht h.1]
      exact Members.get_eq_of_has d d' rest ht h.2 hinner _

end

/-! ### Where something is missing the default shows -/

/-- A group of keys reads each of its keys; a key that is named again reads the same. -/
theorem Members.get?_get (default : Value) {isLast : Bool} {inner : Tree → Value} {ms : Members}
    (hms : ms.KeysOnly) (t found : Tree) (k : Key) :
    (ms.get default isLast inner t found).get? k =
      if k ∈ ms.keys then some (t.descendAt default isLast inner k) else found.get? k := by
  match ms, hms with
  | .nil, _ => rfl
  | .key text rest, hms =>
      have hrest : rest.KeysOnly := hms
      rw [Members.get, Members.get?_get default hrest, Tree.get?_insert, Members.keys]
      by_cases hk : k ∈ rest.keys
      · simp [hk]
      · by_cases heq : Key.ofText text = k
        · simp [heq]
        · simp [hk, heq, Ne.symm heq]

/-- Of a group of keys that is not there some key is not there. -/
theorem Members.exists_hasAt_eq_false {isLast : Bool} {has : Tree → Bool} {ms : Members}
    (hne : ms ≠ .nil) (hms : ms.KeysOnly) {t : Tree}
    (h : (!t.isEmpty && !ms.isNil && ms.has isLast has t) = false) :
    ∃ k ∈ ms.keys, t.hasAt isLast has k = false := by
  rw [Members.isNil_eq_false_of_ne_nil hne, Members.has_eq_all hms] at h
  cases t with
  | nil =>
      obtain ⟨k, hk⟩ := List.exists_mem_of_ne_nil _ (Members.keys_ne_nil hne hms)
      exact ⟨k, hk, rfl⟩
  | cons k v rest => simpa [Tree.isEmpty] using h

namespace Path

/-- Along keys and groups of keys two defaults read differently if something is missing. -/
theorem get_ne_of_has_eq_false {d d' : Value} (hd : d ≠ d') : ∀ p : Path, p.IsDefinite → p ≠ .nil →
    ∀ {t : Tree}, p.has t = false → p.get d false t ≠ p.get d' false t
  | .nil, _, hne, _, _ => absurd rfl hne
  | .key text rest, hp, _, t, h => by
      obtain ⟨hw, hrest⟩ := hp
      rw [has_literal hw] at h
      rw [get_literal hw, get_literal hw]
      refine Tree.descendAt_ne_of_hasAt_eq_false h hd fun hlast child hchild => ?_
      exact get_ne_of_has_eq_false hd rest hrest (ne_nil_of_isNil_eq_false hlast) hchild
  | .group ms rest, hp, _, t, h => by
      obtain ⟨hne, hms, hrest⟩ := hp
      rw [has] at h
      obtain ⟨k, hk, hmissing⟩ := Members.exists_hasAt_eq_false hne hms h
      have hdiffer : t.descendAt d rest.isNil (rest.get d false) k ≠
          t.descendAt d' rest.isNil (rest.get d' false) k := by
        refine Tree.descendAt_ne_of_hasAt_eq_false hmissing hd fun hlast child hchild => ?_
        exact get_ne_of_has_eq_false hd rest hrest (ne_nil_of_isNil_eq_false hlast) hchild
      rw [get, get]
      intro heq
      have hsame := congrArg (Tree.get? · k) (Value.map.inj heq)
      simp only [Members.get?_get _ hms, if_pos hk] at hsame
      exact hdiffer (Option.some.inj hsame)

/-- Keys of which one is missing read the default. -/
theorem get_ofKeys_of_has_eq_false (d : Value) {texts : List String} (hne : texts ≠ [])
    (h : wildcard ∉ texts) {t : Tree} (hhas : (ofKeys texts).has t = false) :
    (ofKeys texts).get d false t = d := by
  induction texts generalizing t with
  | nil => exact absurd rfl hne
  | cons text rest ih =>
      rw [List.mem_cons, not_or] at h
      have hw : text ≠ wildcard := Ne.symm h.1
      rw [ofKeys, has_literal hw] at hhas
      rw [ofKeys, get_literal hw]
      refine Tree.descendAt_eq_of_hasAt_eq_false hhas fun hlast child hchild => ?_
      have hrest : rest ≠ [] := by
        rintro rfl
        cases hlast
      exact ih hrest h.2 hchild

end Path

/-! ### Both halves along a path -/

/-- A way of reading, as a function of the default, agrees with whether a path is there. -/
structure Path.AgreesWithHas (p : Path) (t : Tree) (read : Value → Value) : Prop where
  /-- What is there is read without the default. -/
  there : p.has t = true → ∀ d d', read d = read d'
  /-- Where something is missing two defaults read differently. -/
  missing : p.IsDefinite → p ≠ .nil → p.has t = false → ∀ d d', d ≠ d' → read d ≠ read d'
  /-- Where a literal key is missing the default is read. -/
  literal : ∀ texts, p = .ofKeys texts → texts ≠ [] → Path.wildcard ∉ texts → p.has t = false →
    ∀ d, read d = d

theorem Path.agreesWithHas_get (p : Path) {t : Tree} (ht : t.Distinct) :
    p.AgreesWithHas t fun d => p.get d false t where
  there h d d' := Path.get_eq_of_has d d' p false ht h
  missing hp hne h d d' hd := Path.get_ne_of_has_eq_false hd p hp hne h
  literal texts hp hne hw h d := by
    subst hp
    exact Path.get_ofKeys_of_has_eq_false d hne hw h

/-- In the empty tree nothing is there, and the default itself is read. -/
theorem Path.agreesWithHas_nil (p : Path) : p.AgreesWithHas .nil fun d => d where
  there h := by cases p <;> cases h
  missing _ _ _ d d' hd := hd
  literal _ _ _ _ _ d := rfl

namespace Navigator

/-- Reading agrees with asking, along a path and through a navigator.  Along a path that is there
two defaults read the same; along keys and groups of keys of which something is missing they read
differently, and along keys alone each reads itself.  A navigator with a sound cache asks and reads
likewise along the path that a locator denotes, also where it does not parse the locator at all. -/
theorem has_agrees_with_get {t : Tree} (ht : t.Distinct) :
    (∀ p : Path, p.AgreesWithHas t fun d => p.get d false t) ∧
    ∀ (n : Navigator) (l : Locator) (own : Option String) (p : Path), n.cache.IsSound →
      denote l (own.getD n.separator) false = .ok p →
      ((has t l own).on n).1 = .ok (p.has t) ∧
      ∃ read : Value → Value, (∀ d, ((get t l d own).on n).1 = .ok (read d)) ∧
        p.AgreesWithHas t read := by
  refine ⟨fun p => p.agreesWithHas_get ht, fun n l own p hn hp => ⟨?_, ?_⟩⟩
  · rw [has_on hn, hp]
    rfl
  · cases t with
    | nil =>
        refine ⟨fun d => d, fun d => ?_, p.agreesWithHas_nil⟩
        rw [get_on hn]
        rfl
    | cons k v rest =>
        refine ⟨_, fun d => ?_, p.agreesWithHas_get ht⟩
        rw [get_on hn, hp]
        rfl

/-- A wildcard, and a sub-path below one of the rows that it goes to. -/
def rowsAndDeep : Path :=
  .group (.path (.key "*" (.key "mark" .nil))
    (.path (.key "b" (.key "mark" (.key "deep" .nil))) .nil)) .nil

theorem has_agrees_with_get_markedRows :
    markedRows.Distinct ∧
      (rowsAndDeep.has markedRows = true ∧
        rowsAndDeep.get .unset false markedRows = rowsAndDeep.get .null false markedRows) ∧
      (Path.someMarks.has markedRows = false ∧
        Path.someMarks.get .unset false markedRows ≠ Path.someMarks.get .null false markedRows) ∧
      ((Path.ofKeys ["a", "mark", "deep"]).has markedRows = false ∧
        (Path.ofKeys ["a", "mark", "deep"]).get .unset false markedRows = .unset) ∧
      denote (.text "[*.mark,b.mark.deep]") "." false = .ok rowsAndDeep ∧
      ((has markedRows (.text "[*.mark,b.mark.deep]") none).on (fresh "." 1)).1 = .ok true := by
  have ht : markedRows.Distinct := markedRows_distinct
  have hrows : rowsAndDeep.has markedRows = true := by decide
  have hmarks : Path.someMarks.has markedRows = false := by decide
  have hdefinite : Path.someMarks.IsDefinite := by
    simp [Path.someMarks, Path.IsDefinite, Members.KeysOnly, Path.wildcard]
  have hkeys : (Path.ofKeys ["a", "mark", "deep"]).has markedRows = false := by decide
  have hdenote : denote (.text "[*.mark,b.mark.deep]") "." false = .ok rowsAndDeep := rfl
  obtain ⟨hwalk, hnavigator⟩ := has_agrees_with_get ht
  obtain ⟨hasks, _⟩ := hnavigator (fresh "." 1) (.text "[*.mark,b.mark.deep]") none rowsAndDeep
    (Cache.isSound_ofCapacity 1) hdenote
  refine ⟨ht, ⟨hrows, (hwalk rowsAndDeep).there hrows _ _⟩, ⟨hmarks, ?_⟩, ⟨hkeys, ?_⟩, hdenote, ?_⟩
  · exact (hwalk Path.someMarks).missing hdefinite (by simp [Path.someMarks]) hmarks _ _ (by decide)
  · exact (hwalk _).literal ["a", "mark", "deep"] rfl (by simp) (by decide) hkeys _
  · rw [hasks, hrows]

end Navigator

end Quill
