import Quill.Tree.Depth
import Quill.Walk.Selection
import Quill.Walk.Step

/-!
# What a change of a tree leaves alone

A list of keys is out of reach of a path when no selected list begins it and it begins no selected
list.  The members of a group and the keys of a wildcard are taken one after the other, each on the
tree that the ones before it left.  So what a change leaves alone is stated as a relation between
the look-ups before and after it, which goes through sequencing and through a key.
-/

namespace Quill

/-- A list of keys begins a selected one, or a selected one begins it. -/
def Touches (S : List Key → Prop) (q : List Key) : Prop :=
  ∃ s, S s ∧ (s <+: q ∨ q <+: s)

/-- A selected list of keys begins a list. -/
def Covers (S : List Key → Prop) (r : List Key) : Prop :=
  ∃ s, S s ∧ s <+: r

/-- Two ways to look up lists of keys agree outside of the selected ones.  Where no selected list
leads, a map of the first is a map of the second and `keep` relates their keys. -/
structure Frame (keep : List Key → List Key → Prop) (S : List Key → Prop)
    (a b : List Key → Option Value) : Prop where
  same : ∀ q, ¬Touches S q → b q = a q
  maps : ∀ r, ¬Covers S r → ∀ m, a r = some (.map m) →
    ∃ m', b r = some (.map m') ∧ keep m.keys m'.keys

/-- A relation between the keys of maps that goes through sequencing. -/
structure IsKeeping (keep : List Key → List Key → Prop) : Prop where
  refl : ∀ ks, keep ks ks
  trans : ∀ {ks ls ms}, keep ks ls → keep ls ms → keep ks ms

/-- New keys stand behind the old ones. -/
def Extends (ks ls : List Key) : Prop :=
  ∃ new, ls = ks ++ new ∧ ∀ k ∈ new, k ∉ ks

theorem isKeeping_eq : IsKeeping (· = ·) :=
  ⟨fun _ => rfl, Eq.trans⟩

theorem isKeeping_sublist : IsKeeping List.Sublist :=
  ⟨List.Sublist.refl, List.Sublist.trans⟩

theorem isKeeping_extends : IsKeeping Extends := by
  refine ⟨fun ks => ⟨[], by simp⟩, ?_⟩
  rintro ks ls ms ⟨new, rfl, hnew⟩ ⟨newer, rfl, hnewer⟩
  refine ⟨new ++ newer, by simp, fun k hk => ?_⟩
  rcases List.mem_append.mp hk with hk | hk
  · exact hnew k hk
  · exact fun h => hnewer k hk (List.mem_append_left _ h)

theorem Covers.touches {S : List Key → Prop} {r q : List Key} (h : Covers S r) (hq : r <+: q) :
    Touches S q := by
  obtain ⟨s, hs, hbegins⟩ := h
  exact ⟨s, hs, .inl (hbegins.trans hq)⟩

theorem Touches.mono {S S' : List Key → Prop} (hsub : ∀ s, S s → S' s) {q : List Key}
    (h : Touches S q) : Touches S' q := by
  obtain ⟨s, hs, hq⟩ := h
  exact ⟨s, hsub s hs, hq⟩

theorem Covers.mono {S S' : List Key → Prop} (hsub : ∀ s, S s → S' s) {r : List Key}
    (h : Covers S r) : Covers S' r := by
  obtain ⟨s, hs, hr⟩ := h
  exact ⟨s, hsub s hs, hr⟩

namespace Frame

variable {keep : List Key → List Key → Prop} {S S' : List Key → Prop}
  {a b c : List Key → Option Value}

theorem refl (hkeep : IsKeeping keep) (S : List Key → Prop) (a : List Key → Option Value) :
    Frame keep S a a :=
  ⟨fun _ _ => rfl, fun _ _ m hm => ⟨m, hm, hkeep.refl _⟩⟩

theorem trans (hkeep : IsKeeping keep) (h : Frame keep S a b) (h' : Frame keep S b c) :
    Frame keep S a c := by
  refine ⟨fun q hq => (h'.same q hq).trans (h.same q hq), fun r hr m hm => ?_⟩
  obtain ⟨m', hm', hkeys⟩ := h.maps r hr m hm
  obtain ⟨m'', hm'', hkeys'⟩ := h'.maps r hr m' hm'
  exact ⟨m'', hm'', hkeep.trans hkeys hkeys'⟩

/-- What is left alone by less is left alone by more. -/
theorem mono (hsub : ∀ s, S s → S' s) (h : Frame keep S a b) : Frame keep S' a b :=
  ⟨fun q hq => h.same q fun ht => hq (ht.mono hsub),
    fun r hr => h.maps r fun hc => hr (hc.mono hsub)⟩

/-- One change after another leaves alone what neither of them selects. -/
theorem seq (hkeep : IsKeeping keep) (h : Frame keep S a b) (h' : Frame keep S' b c) :
    Frame keep (fun s => S s ∨ S' s) a c := by
  have hfirst : Frame keep (fun s => S s ∨ S' s) a b := h.mono fun _ => .inl
  have hsecond : Frame keep (fun s => S s ∨ S' s) b c := h'.mono fun _ => .inr
  exact hfirst.trans hkeep hsecond

/-- Where everything is selected nothing is claimed. -/
theorem of_nil (h : S []) (a b : List Key → Option Value) : Frame keep S a b :=
  ⟨fun _ hq => absurd ⟨[], h, .inl List.nil_prefix⟩ hq,
    fun _ hr => absurd ⟨[], h, List.nil_prefix⟩ hr⟩

/-- A missing value and a scalar hold below them what an empty map holds, nothing.  The place
itself begins every selected list. -/
theorem of_below {a' : List Key → Option Value} (h : Frame keep S a b) (hne : ∃ s, S s)
    (hcons : ∀ k q, a' (k :: q) = a (k :: q))
    (hnil : ∀ m, a' [] = some (.map m) → a [] = some (.map m)) : Frame keep S a' b := by
  constructor
  · intro q hq
    cases q with
    | nil =>
        obtain ⟨s, hs⟩ := hne
        exact absurd ⟨s, hs, .inr List.nil_prefix⟩ hq
    | cons k q => rw [hcons, h.same _ hq]
  · intro r hr m hm
    cases r with
    | nil => exact h.maps [] hr m (hnil m hm)
    | cons k r => exact h.maps _ hr m (by rw [← hcons, hm])

end Frame

/-- The lists of keys that begin with `k` and go on as selected. -/
def UnderKey (k : Key) (behind : List Key → Prop) (s : List Key) : Prop :=
  ∃ tail, s = k :: tail ∧ behind tail

theorem touches_underKey {k : Key} {behind : List Key → Prop} {q : List Key}
    (h : Touches behind q) : Touches (UnderKey k behind) (k :: q) := by
  obtain ⟨s, hs, hq⟩ := h
  refine ⟨k :: s, ⟨s, rfl, hs⟩, ?_⟩
  simpa [List.cons_prefix_cons] using hq

theorem covers_underKey {k : Key} {behind : List Key → Prop} {r : List Key}
    (h : Covers behind r) : Covers (UnderKey k behind) (k :: r) := by
  obtain ⟨s, hs, hr⟩ := h
  exact ⟨k :: s, ⟨s, rfl, hs⟩, List.cons_prefix_cons.mpr ⟨rfl, hr⟩⟩

/-- A change under one key, seen from the map that holds the key. -/
theorem Frame.underKey {keep : List Key → List Key → Prop} {behind : List Key → Prop} {t t' : Tree}
    {k : Key} (hkeep : IsKeeping keep) (hne : ∃ s, behind s) (hkeys : keep t.keys t'.keys)
    (hother : ∀ k', k' ≠ k → t'.get? k' = t.get? k')
    (hunder : Frame keep behind (fun q => (t.get? k).bind (·.at? q))
      (fun q => (t'.get? k).bind (·.at? q))) :
    Frame keep (UnderKey k behind) t.at? t'.at? := by
  constructor
  · intro q hq
    cases q with
    | nil =>
        -- The map itself begins every selected list, so it is never out of reach.
        obtain ⟨s, hs⟩ := hne
        exact absurd ⟨k :: s, ⟨s, rfl, hs⟩, .inr List.nil_prefix⟩ hq
    | cons k' q =>
        rw [Tree.at?_cons, Tree.at?_cons]
        by_cases hk : k' = k
        · subst hk
          exact hunder.same q fun h => hq (touches_underKey h)
        · rw [hother k' hk]
  · intro r hr m hm
    cases r with
    | nil =>
        rw [Tree.at?_nil, Option.some.injEq, Value.map.injEq] at hm
        subst hm
        exact ⟨t', rfl, hkeys⟩
    | cons k' r =>
        rw [Tree.at?_cons] at hm
        rw [Tree.at?_cons]
        by_cases hk : k' = k
        · subst hk
          exact hunder.maps r (fun h => hr (covers_underKey h)) m hm
        · rw [hother k' hk]
          exact ⟨m, hm, hkeep.refl _⟩

/-! ### Selected lists -/

mutual

/-- A path without empty groups and members selects something. -/
theorem Path.exists_selects : ∀ p : Path, p.NoneEmpty → ∃ ks, p.Selects ks
  | .nil, _ => ⟨[], rfl⟩
  | .key text rest, h => by
      obtain ⟨ks, hks⟩ := Path.exists_selects rest h
      exact ⟨.ofText text :: ks, .inr rfl, hks⟩
  | .group ms rest, h => by
      obtain ⟨hne, hms, hrest⟩ := h
      exact Members.exists_selects ms hne hms (Path.exists_selects rest hrest)

theorem Members.exists_selects {behind : List Key → Prop} : ∀ ms : Members, ms ≠ .nil →
    ms.NoneEmpty → (∃ ks, behind ks) → ∃ ks, ms.Selects behind ks
  | .nil, hne, _, _ => absurd rfl hne
  | .key text rest, _, _, hbehind => by
      obtain ⟨ks, hks⟩ := hbehind
      exact ⟨.ofText text :: ks, .inl ⟨ks, rfl, hks⟩⟩
  | .path sub rest, _, h, _ => by
      obtain ⟨ks, hks⟩ := Path.exists_selects sub h.2.1
      exact ⟨ks, .inl hks⟩

end

/-- The last step selects the list that ends there. -/
theorem Path.selects_nil_of_isNil {p : Path} (h : p.isNil = true) : p.Selects [] := by
  cases p with
  | nil => rfl
  | key text rest => simp [isNil] at h
  | group ms rest => simp [isNil] at h

/-- A key that a segment selects, followed by what the rest selects. -/
theorem Path.selects_of_underKey {text : String} {rest : Path} {t : Tree} {k : Key}
    (hk : k ∈ selectedKeys text t) {s : List Key} (h : UnderKey k rest.Selects s) :
    (Path.key text rest).Selects s := by
  obtain ⟨tail, rfl, htail⟩ := h
  refine (selects_key_cons text rest k tail).mpr ⟨?_, htail⟩
  by_cases hw : text = wildcard
  · exact .inl hw
  · rw [selectedKeys, if_neg hw, List.mem_singleton] at hk
    exact .inr hk

end Quill
