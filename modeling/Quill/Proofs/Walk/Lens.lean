import Quill.Proofs.Walk.Step
import Quill.Proofs.Walk.Unreached

/-!
# Reading and setting as a lens

What was set is read back, of two values set along one path the second stays, and setting what is
read changes nothing.  The keys that a step selects are set one after the other and may repeat, so
the laws are drawn from what a whole run of such steps leaves under each key.

Setting twice needs paths without sub-paths as members.  All lists that such a path selects are of
one length, so no list is set inside of a value that another one has set.
-/

namespace Quill

/-! ### Paths of one length -/

/-- Every member of a group is a key. -/
def Members.KeysOnly : Members → Prop
  | .nil => True
  | .key _ rest => rest.KeysOnly
  | .path .. => False

/-- No member of a group of the path is a path. -/
def Path.NoSub : Path → Prop
  | .nil => True
  | .key _ rest => rest.NoSub
  | .group members rest => members.KeysOnly ∧ rest.NoSub

/-- Every segment is a literal key or a group of one or more keys. -/
def Path.IsDefinite : Path → Prop
  | .nil => True
  | .key text rest => text ≠ wildcard ∧ rest.IsDefinite
  | .group members rest => members ≠ .nil ∧ members.KeysOnly ∧ rest.IsDefinite

/-- The keys among the members of a group. -/
def Members.keys : Members → List Key
  | .nil => []
  | .key text rest => .ofText text :: rest.keys
  | .path _ rest => rest.keys

theorem Members.isNil_eq_false_of_ne_nil {ms : Members} (h : ms ≠ .nil) : ms.isNil = false := by
  cases ms with
  | nil => exact absurd rfl h
  | key text rest => rfl
  | path sub rest => rfl

theorem Members.keys_ne_nil {ms : Members} (hne : ms ≠ .nil) (hms : ms.KeysOnly) :
    ms.keys ≠ [] := by
  cases ms with
  | nil => exact absurd rfl hne
  | key text rest => exact List.cons_ne_nil _ _
  | path sub rest => exact hms.elim

theorem Members.selects_iff {behind : List Key → Prop} {ms : Members} (hms : ms.KeysOnly)
    (q : List Key) : ms.Selects behind q ↔ ∃ k ∈ ms.keys, UnderKey k behind q := by
  match ms, hms with
  | .nil, _ => simp [Members.Selects, Members.keys]
  | .key text rest, hms =>
      have hrest : rest.KeysOnly := hms
      have ih := @Members.selects_iff behind rest hrest q
      rw [Members.Selects, ih, Members.keys]
      constructor
      · rintro (h | ⟨k, hk, h⟩)
        · exact ⟨.ofText text, List.mem_cons_self, h⟩
        · exact ⟨k, List.mem_cons_of_mem _ hk, h⟩
      · rintro ⟨k, hk, h⟩
        rcases List.mem_cons.mp hk with rfl | hk
        · exact .inl h
        · exact .inr ⟨k, hk, h⟩

/-- A group of keys is set like a list of keys. -/
theorem Members.set_eq_foldl (value : Value) {isLast : Bool} {inner : Tree → Tree} {ms : Members}
    (hms : ms.KeysOnly) (t : Tree) :
    ms.set value isLast inner t = ms.keys.foldl (Tree.setAt value isLast inner) t := by
  match ms, hms with
  | .nil, _ => rfl
  | .key text rest, hms =>
      have hrest : rest.KeysOnly := hms
      rw [Members.set, Members.keys, List.foldl_cons]
      exact Members.set_eq_foldl value hrest _

theorem Members.has_eq_all {isLast : Bool} {inner : Tree → Bool} {ms : Members}
    (hms : ms.KeysOnly) (t : Tree) :
    ms.has isLast inner t = ms.keys.all (t.hasAt isLast inner) := by
  match ms, hms with
  | .nil, _ => rfl
  | .key text rest, hms =>
      have hrest : rest.KeysOnly := hms
      rw [Members.has, Members.keys, List.all_cons, Members.has_eq_all hrest]

/-! ### A run of steps -/

namespace Tree

variable {value : Value} {isLast : Bool} {inner : Tree → Tree}

/-- Keys that are not set keep what they hold. -/
theorem get?_foldl_setAt_of_not_mem {ks : List Key} {k : Key} (hk : k ∉ ks) (t : Tree) :
    (ks.foldl (Tree.setAt value isLast inner) t).get? k = t.get? k := by
  induction ks generalizing t with
  | nil => rfl
  | cons k' ks ih =>
      rw [List.mem_cons, not_or] at hk
      rw [List.foldl_cons, ih hk.2, get?_setAt_of_ne _ _ _ t (Ne.symm hk.1)]

/-- A key that is set holds the value, or the map that `inner` makes of some map.  A key may be set
several times; what `inner` keeps then holds of the map it starts from the last time. -/
theorem get?_foldl_setAt_of_mem {P : Tree → Prop} (hinner : ∀ u, P u → P (inner u))
    {ks : List Key} {k : Key} (hk : k ∈ ks) (t : Tree) (ht : isLast = false → P (t.childAt k)) :
    ∃ u, (isLast = false → P u) ∧ (ks.foldl (Tree.setAt value isLast inner) t).get? k =
      some (if isLast then value else .map (inner u)) := by
  induction ks generalizing t with
  | nil => cases hk
  | cons k' ks ih =>
      rw [List.foldl_cons]
      -- If the key is set again later, this step only makes the map that a later one starts from.
      by_cases hagain : k ∈ ks
      · apply ih hagain
        intro hlast
        by_cases hk' : k' = k
        · subst hk'
          rw [childAt, get?_setAt_self, hlast]
          exact hinner _ (ht hlast)
        · rw [childAt, get?_setAt_of_ne _ _ _ t hk']
          exact ht hlast
      · have hkk' : k = k' := (List.mem_cons.mp hk).resolve_right hagain
        subst hkk'
        refine ⟨t.childAt k, ht, ?_⟩
        rw [get?_foldl_setAt_of_not_mem hagain, get?_setAt_self]

/-- A key that is set holds the value, or a map that `inner` has made of whatever was there. -/
theorem exists_get?_foldl_setAt {ks : List Key} {k : Key} (hk : k ∈ ks) (t : Tree) :
    ∃ u, (ks.foldl (Tree.setAt value isLast inner) t).get? k =
      some (if isLast then value else .map (inner u)) := by
  have hany : ∀ u : Tree, True → True := fun _ _ => trivial
  obtain ⟨u, _, hget⟩ := get?_foldl_setAt_of_mem hany hk t fun _ => trivial
  exact ⟨u, hget⟩

/-- Setting the same keys adds the same keys. -/
theorem keys_foldl_setAt_congr {value' : Value} {inner' : Tree → Tree} (ks : List Key) {t u : Tree}
    (h : t.keys = u.keys) : (ks.foldl (Tree.setAt value isLast inner) t).keys =
      (ks.foldl (Tree.setAt value' isLast inner') u).keys := by
  induction ks generalizing t u with
  | nil => exact h
  | cons k ks ih =>
      apply ih
      unfold setAt
      by_cases hk : k ∈ t.keys
      · rw [keys_insert_of_mem t _ hk, keys_insert_of_mem u _ (h ▸ hk), h]
      · rw [keys_insert_of_not_mem t _ hk, keys_insert_of_not_mem u _ (h ▸ hk), h]

/-- Setting keys that are there adds none. -/
theorem keys_foldl_setAt_of_subset {ks : List Key} {t : Tree} (h : ∀ k ∈ ks, k ∈ t.keys) :
    (ks.foldl (Tree.setAt value isLast inner) t).keys = t.keys := by
  induction ks generalizing t with
  | nil => rfl
  | cons k ks ih =>
      have hsame : (t.setAt value isLast inner k).keys = t.keys :=
        keys_insert_of_mem t _ (h k List.mem_cons_self)
      rw [List.foldl_cons, ih, hsame]
      intro k' hk'
      rw [hsame]
      exact h k' (List.mem_cons_of_mem _ hk')

theorem nodup_keys_foldl_setAt (ks : List Key) {t : Tree} (ht : t.keys.Nodup) :
    (ks.foldl (Tree.setAt value isLast inner) t).keys.Nodup := by
  induction ks generalizing t with
  | nil => exact ht
  | cons k ks ih => exact ih (nodup_keys_insert ht k _)

theorem mem_keys_foldl_setAt {ks : List Key} {k : Key} (hk : k ∈ ks) (t : Tree) :
    k ∈ (ks.foldl (Tree.setAt value isLast inner) t).keys := by
  obtain ⟨u, hget⟩ := exists_get?_foldl_setAt hk t
  exact mem_keys_of_get? hget

theorem Distinct.childAt {t : Tree} (ht : t.Distinct) (k : Key) : (t.childAt k).Distinct := by
  unfold Tree.childAt
  cases hget : t.get? k with
  | none => trivial
  | some v =>
      cases v with
      | map child => exact ht.of_get? hget
      | _ => trivial

theorem isEmpty_eq_false_of_mem_keys {t : Tree} {k : Key} (hk : k ∈ t.keys) :
    t.isEmpty = false := by
  rw [← Bool.not_eq_true, isEmpty_iff]
  rintro rfl
  cases hk

/-- Where `inner` comes to rest after one time, it does not matter how often a key is set. -/
theorem get?_foldl_setAt_of_idem {ks : List Key} {k : Key} (hk : k ∈ ks) {t : Tree}
    (h : isLast = false → inner (inner (t.childAt k)) = inner (t.childAt k)) :
    (ks.foldl (Tree.setAt value isLast inner) t).get? k =
      some (if isLast then value else .map (inner (t.childAt k))) := by
  cases isLast with
  | true =>
      obtain ⟨_, hget⟩ := exists_get?_foldl_setAt hk t
      exact hget
  | false =>
      have hstep : ∀ u, inner u = inner (t.childAt k) → inner (inner u) = inner (t.childAt k) := by
        intro u hu
        rw [hu, h rfl]
      obtain ⟨u, hu, hget⟩ := get?_foldl_setAt_of_mem hstep hk t fun _ => rfl
      rw [hget, hu rfl]

/-- Of two runs over the same keys the second one stays, if of `f` and `g` below the keys the second
one stays. -/
theorem foldl_setAt_foldl_setAt {v w : Value} {f g : Tree → Tree} {t : Tree} (ht : t.keys.Nodup)
    (hff : ∀ k, f (f (t.childAt k)) = f (t.childAt k))
    (hgf : ∀ k, g (f (t.childAt k)) = g (t.childAt k))
    (hgg : ∀ k, g (g (t.childAt k)) = g (t.childAt k)) (ks : List Key) :
    ks.foldl (Tree.setAt w isLast g) (ks.foldl (Tree.setAt v isLast f) t) =
      ks.foldl (Tree.setAt w isLast g) t := by
  have hnodup : (ks.foldl (Tree.setAt v isLast f) t).keys.Nodup := nodup_keys_foldl_setAt ks ht
  -- The second run adds no key, so the order is that of the first one, and look-ups decide.
  have hkeys : (ks.foldl (Tree.setAt w isLast g) (ks.foldl (Tree.setAt v isLast f) t)).keys =
      (ks.foldl (Tree.setAt w isLast g) t).keys := by
    rw [keys_foldl_setAt_of_subset fun k hk => mem_keys_foldl_setAt hk t]
    exact keys_foldl_setAt_congr ks rfl
  apply eq_of_get?_eq (nodup_keys_foldl_setAt ks hnodup) hkeys
  intro k _
  by_cases hk : k ∈ ks
  · -- Both sides leave under the key what `g` makes of the map that was there at the start.
    have hchild : isLast = false →
        (ks.foldl (Tree.setAt v isLast f) t).childAt k = f (t.childAt k) := by
      intro hlast
      apply childAt_of_get?
      rw [get?_foldl_setAt_of_idem hk fun _ => hff k, hlast]
      rfl
    have hagain : isLast = false →
        g (g ((ks.foldl (Tree.setAt v isLast f) t).childAt k)) =
          g ((ks.foldl (Tree.setAt v isLast f) t).childAt k) := by
      intro hlast
      rw [hchild hlast, hgf, hgg]
    rw [get?_foldl_setAt_of_idem hk hagain, get?_foldl_setAt_of_idem hk fun _ => hgg k]
    cases hlast : isLast with
    | true => rfl
    | false => rw [← hlast, hchild hlast, hgf]
  · rw [get?_foldl_setAt_of_not_mem hk, get?_foldl_setAt_of_not_mem hk,
      get?_foldl_setAt_of_not_mem hk]

/-! ### What a run has set -/

/-- A key that was set is there, and below it what `inner` has made. -/
theorem hasAt_foldl_setAt {has : Tree → Bool} (hinner : isLast = false → ∀ u, has (inner u) = true)
    {ks : List Key} {k : Key} (hk : k ∈ ks) (t : Tree) :
    (ks.foldl (Tree.setAt value isLast inner) t).hasAt isLast has k = true := by
  obtain ⟨u, hget⟩ := exists_get?_foldl_setAt hk t
  rw [hasAt_iff]
  refine ⟨_, hget, ?_⟩
  cases isLast with
  | true => exact .inl rfl
  | false => exact .inr ⟨_, rfl, hinner rfl u⟩

/-- At the end of a selected list stands the value. -/
theorem at?_foldl_setAt {behind : List Key → Prop} (hlast : isLast = true → ∀ q, behind q → q = [])
    (hinner : isLast = false → ∀ u q, behind q → (inner u).at? q = some value) {ks : List Key}
    {k : Key} (hk : k ∈ ks) {q : List Key} (hq : UnderKey k behind q) (t : Tree) :
    (ks.foldl (Tree.setAt value isLast inner) t).at? q = some value := by
  obtain ⟨u, hget⟩ := exists_get?_foldl_setAt hk t
  obtain ⟨tail, rfl, htail⟩ := hq
  rw [at?_cons, hget, Option.bind_some]
  cases isLast with
  | true =>
      rw [hlast rfl tail htail, Value.at?_nil]
      rfl
  | false => exact hinner rfl u tail htail

end Tree

/-! ### The laws along a path -/

namespace Path

/-- Behind the last step only the empty list is selected. -/
theorem eq_nil_of_selects_of_isNil {p : Path} (h : p.isNil = true) (q : List Key)
    (hq : p.Selects q) : q = [] := by
  rw [eq_nil_of_isNil h] at hq
  exact hq

/-- What was set along a path of keys and groups of keys is there, at the end of every list that the
path selects. -/
theorem has_set_and_at?_set (v : Value) : ∀ p : Path, p.IsDefinite → p ≠ .nil → ∀ t : Tree,
    p.has (p.set v t) = true ∧ ∀ q, p.Selects q → (p.set v t).at? q = some v
  | .nil, _, hne, _ => absurd rfl hne
  | .key text rest, hp, _, t => by
      obtain ⟨hw, hrest⟩ := hp
      have ih : rest.isNil = false → _ := fun h =>
        has_set_and_at?_set v rest hrest (ne_nil_of_isNil_eq_false h)
      have hkey : Key.ofText text ∈ [Key.ofText text] := List.mem_cons_self
      rw [has_literal hw, set_literal hw]
      constructor
      · exact Tree.hasAt_foldl_setAt (fun h u => (ih h u).1) hkey t
      · intro q hq
        have hunder : UnderKey (.ofText text) rest.Selects q := by
          cases q with
          | nil => exact absurd hq (not_selects_key_nil text rest)
          | cons k q =>
              obtain ⟨hwild | rfl, htail⟩ := (selects_key_cons text rest k q).mp hq
              · exact absurd hwild hw
              · exact ⟨q, rfl, htail⟩
        exact Tree.at?_foldl_setAt eq_nil_of_selects_of_isNil (fun h u => (ih h u).2) hkey hunder t
  | .group ms rest, hp, _, t => by
      obtain ⟨hne, hms, hrest⟩ := hp
      have ih : rest.isNil = false → _ := fun h =>
        has_set_and_at?_set v rest hrest (ne_nil_of_isNil_eq_false h)
      rw [has, set, Members.set_eq_foldl v hms, Members.has_eq_all hms]
      constructor
      · obtain ⟨k, hk⟩ := List.exists_mem_of_ne_nil _ (Members.keys_ne_nil hne hms)
        have hall : ms.keys.all (((ms.keys.foldl
            (Tree.setAt v rest.isNil (rest.set v)) t)).hasAt rest.isNil rest.has) = true := by
          rw [List.all_eq_true]
          intro k hk
          exact Tree.hasAt_foldl_setAt (fun h u => (ih h u).1) hk t
        have hempty : (ms.keys.foldl (Tree.setAt v rest.isNil (rest.set v)) t).isEmpty = false :=
          Tree.isEmpty_eq_false_of_mem_keys (Tree.mem_keys_foldl_setAt hk t)
        rw [hall, hempty, Members.isNil_eq_false_of_ne_nil hne]
        rfl
      · intro q hq
        obtain ⟨k, hk, hunder⟩ := (Members.selects_iff hms q).mp hq
        exact Tree.at?_foldl_setAt eq_nil_of_selects_of_isNil (fun h u => (ih h u).2) hk hunder t

/-- Literal keys read back what was set along them. -/
theorem get_set_ofKeys (v default : Value) {texts : List String} (hne : texts ≠ [])
    (h : wildcard ∉ texts) (t : Tree) :
    (ofKeys texts).get default false ((ofKeys texts).set v t) = v := by
  induction texts generalizing t with
  | nil => exact absurd rfl hne
  | cons text rest ih =>
      rw [List.mem_cons, not_or] at h
      have hw : text ≠ wildcard := Ne.symm h.1
      rw [ofKeys, get_literal hw, set_literal hw, Tree.descendAt, Tree.get?_setAt_self]
      cases rest with
      | nil => rfl
      | cons text' rest => exact ih (by simp) h.2 _

/-- Setting what literal keys read changes nothing. -/
theorem set_get_ofKeys (default : Value) {texts : List String} (h : wildcard ∉ texts) {t : Tree}
    (hhas : (ofKeys texts).has t = true) :
    (ofKeys texts).set ((ofKeys texts).get default false t) t = t := by
  induction texts generalizing t with
  | nil => rfl
  | cons text rest ih =>
      rw [List.mem_cons, not_or] at h
      have hw : text ≠ wildcard := Ne.symm h.1
      rw [ofKeys, has_literal hw, Tree.hasAt_iff] at hhas
      obtain ⟨v, hv, hbelow⟩ := hhas
      rw [ofKeys, get_literal hw, set_literal hw, Tree.setAt, Tree.descendAt, hv]
      apply Tree.insert_get?
      rw [hv]
      cases rest with
      | nil => rfl
      | cons text' rest =>
          obtain hlast | ⟨child, rfl, hchild⟩ := hbelow
          · cases hlast
          · rw [Tree.childAt_of_get? hv]
            have hsame := ih h.2 hchild
            exact congrArg (fun t => some (Value.map t)) hsame.symm

/-- The wildcard adds no key, so setting along a key segment leaves it the same keys to select. -/
theorem selectedKeys_set (text : String) (rest : Path) (v : Value) (t : Tree) :
    selectedKeys text ((Path.key text rest).set v t) = selectedKeys text t := by
  by_cases hw : text = wildcard
  · rw [set, selectedKeys, selectedKeys, if_pos hw, if_pos hw]
    exact Tree.keys_foldl_setAt_of_subset fun k hk => hk
  · rw [selectedKeys_of_ne_wildcard hw, selectedKeys_of_ne_wildcard hw]

/-- Of two values set along a path without sub-paths the second one stays. -/
theorem set_set (v w : Value) : ∀ p : Path, p.NoSub → ∀ {t : Tree}, t.Distinct →
    p.set w (p.set v t) = p.set w t
  | .nil, _, _, _ => rfl
  | .key text rest, hp, t, ht => by
      have ih : ∀ (v w : Value) (k : Key),
          rest.set w (rest.set v (t.childAt k)) = rest.set w (t.childAt k) :=
        fun v w k => set_set v w rest hp (ht.childAt k)
      have hruns : (selectedKeys text t).foldl (Tree.setAt w rest.isNil (rest.set w))
          ((selectedKeys text t).foldl (Tree.setAt v rest.isNil (rest.set v)) t) =
            (selectedKeys text t).foldl (Tree.setAt w rest.isNil (rest.set w)) t :=
        Tree.foldl_setAt_foldl_setAt ht.nodup_keys (ih v v) (ih v w) (ih w w) _
      calc (Path.key text rest).set w ((Path.key text rest).set v t)
          = (selectedKeys text t).foldl (Tree.setAt w rest.isNil (rest.set w))
              ((Path.key text rest).set v t) := by rw [set, selectedKeys_set]
        _ = (selectedKeys text t).foldl (Tree.setAt w rest.isNil (rest.set w)) t := by
            rw [set, hruns]
        _ = (Path.key text rest).set w t := by rw [set]
  | .group ms rest, hp, t, ht => by
      obtain ⟨hms, hrest⟩ := hp
      have ih : ∀ (v w : Value) (k : Key),
          rest.set w (rest.set v (t.childAt k)) = rest.set w (t.childAt k) :=
        fun v w k => set_set v w rest hrest (ht.childAt k)
      simp only [set, Members.set_eq_foldl _ hms]
      exact Tree.foldl_setAt_foldl_setAt ht.nodup_keys (ih v v) (ih v w) (ih w w) ms.keys

/-- Reading, asking and setting obey the laws of a lens.  What was set along keys and groups of keys
is there, and at the end of every selected list; literal keys read it back.  Of two values set along
a path without sub-paths, wildcards included, the second one stays.  Setting what literal keys read
changes nothing.  Trees are compared with the order of their keys. -/
theorem lens_laws {t : Tree} (ht : t.Distinct) (v w : Value) :
    (∀ p : Path, p.IsDefinite → p ≠ .nil →
      p.has (p.set v t) = true ∧ ∀ q, p.Selects q → (p.set v t).at? q = some v) ∧
    (∀ texts : List String, texts ≠ [] → wildcard ∉ texts → ∀ default : Value,
      (ofKeys texts).get default false ((ofKeys texts).set v t) = v) ∧
    (∀ p : Path, p.NoSub → p.set w (p.set v t) = p.set w t) ∧
    (∀ texts : List String, wildcard ∉ texts → (ofKeys texts).has t = true →
      ∀ default : Value, (ofKeys texts).set ((ofKeys texts).get default false t) t = t) := by
  refine ⟨fun p hp hne => ?_, fun texts hne h default => ?_, fun p hp => ?_,
    fun texts h hhas default => ?_⟩
  · exact has_set_and_at?_set v p hp hne t
  · exact get_set_ofKeys v default hne h t
  · exact set_set v w p hp ht
  · exact set_get_ofKeys default h hhas

/-- The marks of three rows, one named twice and one not there. -/
def someMarks : Path :=
  .group (.key "a" (.key "new" (.key "a" .nil))) (.key "mark" .nil)

/-- A mark and a numbered entry of every row. -/
def markOfEveryRow : Path :=
  .key "*" (.group (.key "mark" (.key "7" .nil)) .nil)

theorem lens_laws_markedRows :
    markedRows.Distinct ∧ someMarks.IsDefinite ∧ someMarks ≠ .nil ∧ markOfEveryRow.NoSub ∧
      (ofKeys ["a", "mark"]).has markedRows = true ∧
      someMarks.has (someMarks.set .null markedRows) = true ∧
      (∀ q, someMarks.Selects q → (someMarks.set .null markedRows).at? q = some .null) ∧
      (ofKeys ["b", "mark", "deep", "1"]).get .unset false
        ((ofKeys ["b", "mark", "deep", "1"]).set .null markedRows) = .null ∧
      markOfEveryRow.set (.int 3) (markOfEveryRow.set .null markedRows) =
        markOfEveryRow.set (.int 3) markedRows ∧
      (ofKeys ["a", "mark"]).set ((ofKeys ["a", "mark"]).get .null false markedRows) markedRows =
        markedRows := by
  have ht : markedRows.Distinct := markedRows_distinct
  have hdefinite : someMarks.IsDefinite := by
    simp [someMarks, IsDefinite, Members.KeysOnly, wildcard]
  have hne : someMarks ≠ .nil := by
    simp [someMarks]
  have hkeys : markOfEveryRow.NoSub := by
    simp [markOfEveryRow, NoSub, Members.KeysOnly]
  have hhas : (ofKeys ["a", "mark"]).has markedRows = true := by
    decide
  obtain ⟨hputGet, hread, hputPut, hgetPut⟩ := lens_laws ht .null (.int 3)
  obtain ⟨hfound, hvalue⟩ := hputGet someMarks hdefinite hne
  exact ⟨ht, hdefinite, hne, hkeys, hhas, hfound, hvalue,
    hread ["b", "mark", "deep", "1"] (by simp) (by decide) .unset, hputPut markOfEveryRow hkeys,
    hgetPut ["a", "mark"] (by decide) hhas .null⟩

end Path

end Quill
