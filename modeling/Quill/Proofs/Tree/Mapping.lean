import Mathlib.Data.List.Forall2
import Quill.Proofs.Tree.Leaves
import Quill.Proofs.Walk.Calls

/-!
# Replacing the leaves

Replacing the leaves of a tree calls the callback for one leaf after the other and builds a tree of
the same maps with the answers in the places of the leaves.  What happens in a map and what happens
behind it are such runs themselves, the second from the state in which the first one ends; so the
calls of the whole are those of the parts, and they come in the order of the leaves.

Main statement: there is one call for each leaf, depth first, told the leaf, the keys that lead to
it and the tree, and the answers stand where the leaves stood.
-/

namespace Quill

variable {σ : Type}

/-- Calls of a callback one after the other, from one state to another. -/
inductive Callback.Runs (f : Callback σ) : σ → List Visited → σ → Prop where
  | none (s : σ) : Runs f s [] s
  | call (visit : Visit) {s s' : σ} {rest : List Visited} (others : Runs f (f visit s).2 rest s') :
      Runs f s (⟨visit, (f visit s).1⟩ :: rest) s'

theorem Callback.Runs.append {f : Callback σ} {s s' s'' : σ} {calls calls' : List Visited}
    (h : f.Runs s calls s') (h' : f.Runs s' calls' s'') : f.Runs s (calls ++ calls') s'' := by
  induction h with
  | none => exact h'
  | call visit _ ih => exact .call visit (ih h')

namespace Tree

/-- The same maps with the given values in the places of the leaves, in their order. -/
inductive Refilled : Tree → List Value → Tree → Prop where
  | nil : Refilled .nil [] .nil
  | leaf (k : Key) {v : Value} (hv : v.isMap = false) (w : Value) {rest rest' : Tree}
      {ws : List Value} (h : Refilled rest ws rest') :
      Refilled (.cons k v rest) (w :: ws) (.cons k w rest')
  | map (k : Key) {child child' rest rest' : Tree} {ws ws' : List Value}
      (hchild : Refilled child ws child') (h : Refilled rest ws' rest') :
      Refilled (.cons k (.map child) rest) (ws ++ ws') (.cons k (.map child') rest')

namespace Refilled

variable {t t' : Tree} {ws : List Value}

theorem keys_eq (h : t.Refilled ws t') : t'.keys = t.keys := by
  induction h with
  | nil => rfl
  | leaf k hv w h ih => rw [keys, keys, ih]
  | map k hchild h _ ih => rw [keys, keys, ih]

theorem get?_map (h : t.Refilled ws t') {k : Key} {child : Tree}
    (hk : t.get? k = some (.map child)) :
    ∃ child' ws', t'.get? k = some (.map child') ∧ child.Refilled ws' child' := by
  induction h with
  | nil => cases hk
  | leaf j hv w h ih =>
      by_cases hj : j = k
      · rw [get?, if_pos hj, Option.some.injEq] at hk
        rw [hk] at hv
        cases hv
      · rw [get?, if_neg hj] at hk ⊢
        exact ih hk
  | map j hchild h _ ih =>
      by_cases hj : j = k
      · rw [get?, if_pos hj, Option.some.injEq, Value.map.injEq] at hk
        rw [get?, if_pos hj, ← hk]
        exact ⟨_, _, rfl, hchild⟩
      · rw [get?, if_neg hj] at hk ⊢
        exact ih hk

/-- Where there was a map there is one with the same keys in the same order. -/
theorem at?_map (h : t.Refilled ws t') {q : List Key} {x : Tree}
    (hx : t.at? q = some (.map x)) : ∃ x', t'.at? q = some (.map x') ∧ x'.keys = x.keys := by
  induction q generalizing t t' ws with
  | nil =>
      rw [at?_nil, Option.some.injEq, Value.map.injEq] at hx
      exact ⟨t', rfl, hx ▸ h.keys_eq⟩
  | cons k q ih =>
      obtain ⟨child, hchild, hbelow⟩ := exists_map_of_at?_map hx
      obtain ⟨child', ws', hchild', hrefilled⟩ := h.get?_map hchild
      rw [at?_of_get? hchild']
      exact ih hrefilled hbelow

/-- What stands in the places of the leaves behind the first entry stands there in the whole
tree. -/
theorem at?_leaves_tail {k : Key} {w : Value} {rest rest' : Tree} {ws : List Value}
    (hk : k ∉ rest'.keys) (h : List.Forall₂ (fun l v => rest'.at? l.1 = some v) rest.leaves ws) :
    List.Forall₂ (fun l v => (Tree.cons k w rest').at? l.1 = some v) rest.leaves ws := by
  have hsome := (List.forall₂_and_left _ _).mpr ⟨fun l => ne_nil_of_mem_leaves (t := rest), h⟩
  refine hsome.imp ?_
  rintro ⟨q, v⟩ u ⟨hq, hu⟩
  obtain ⟨j, q, rfl⟩ := List.exists_cons_of_ne_nil hq
  exact at?_cons_of_tail hk w hu

/-- Each value stands where its leaf stood. -/
theorem at?_leaves (h : t.Refilled ws t') (ht : t.Distinct) :
    List.Forall₂ (fun l w => t'.at? l.1 = some w) t.leaves ws := by
  induction h with
  | nil => exact .nil
  | @leaf k v hv w rest rest' ws h ih =>
      obtain ⟨hk, _, hrest⟩ := ht
      rw [leaves, Value.leaves_of_not_map hv]
      refine .cons ?_ (at?_leaves_tail (h.keys_eq ▸ hk) (ih hrest))
      rw [Leaf.under, at?_cons_head, Value.at?_nil]
  | @map k child child' rest rest' ws ws' hchild h ihchild ih =>
      obtain ⟨hk, hdistinct, hrest⟩ := ht
      refine List.rel_append ?_ (at?_leaves_tail (h.keys_eq ▸ hk) (ih hrest))
      rw [List.forall₂_map_left_iff]
      refine (ihchild hdistinct).imp fun l w hw => ?_
      rw [Leaf.under, at?_cons_head]
      exact hw

end Refilled

/-! ### The run -/

section Step

variable {f : Callback σ} {root : Tree} {trail : List Key} {k : Key} {rest : Tree} {s : σ}

theorem mapLeavesFrom_map (child : Tree) :
    mapLeavesFrom f root trail (.cons k (.map child) rest) s =
      (.cons k (.map (mapLeavesFrom f root (trail ++ [k]) child s).1)
          (mapLeavesFrom f root trail rest (mapLeavesFrom f root (trail ++ [k]) child s).2).1,
        (mapLeavesFrom f root trail rest (mapLeavesFrom f root (trail ++ [k]) child s).2).2) := rfl

theorem mapLeavesFrom_leaf {v : Value} (hv : v.isMap = false) :
    mapLeavesFrom f root trail (.cons k v rest) s =
      (.cons k (f ⟨v, k, trail ++ [k], root⟩ s).1
          (mapLeavesFrom f root trail rest (f ⟨v, k, trail ++ [k], root⟩ s).2).1,
        (mapLeavesFrom f root trail rest (f ⟨v, k, trail ++ [k], root⟩ s).2).2) := by
  cases v with
  | map child => cases hv
  | _ => rfl

end Step

/-- A run of a callback over the leaves of a tree; `trail` leads to the tree. -/
structure IsRun (f : Callback σ) (root : Tree) (trail : List Key) (t : Tree) (s : σ)
    (calls : List Visited) (result : Tree × σ) : Prop where
  leaves : calls.map (fun c => (c.visit.trail, c.visit.value)) =
    t.leaves.map fun l => (trail ++ l.1, l.2)
  told : ∀ c ∈ calls, c.visit.trail.getLast? = some c.visit.key ∧ c.visit.root = root
  runs : f.Runs s calls result.2
  refilled : t.Refilled (calls.map (·.answer)) result.1

namespace IsRun

variable {f : Callback σ} {root : Tree} {trail : List Key}

theorem nil (f : Callback σ) (root : Tree) (trail : List Key) (s : σ) :
    IsRun f root trail .nil s [] (.nil, s) :=
  ⟨rfl, by simp, .none s, .nil⟩

theorem leaf (k : Key) {v : Value} (hv : v.isMap = false) {rest : Tree} {s : σ}
    {calls : List Visited} {result : Tree × σ}
    (h : IsRun f root trail rest (f ⟨v, k, trail ++ [k], root⟩ s).2 calls result) :
    IsRun f root trail (.cons k v rest) s
      (⟨⟨v, k, trail ++ [k], root⟩, (f ⟨v, k, trail ++ [k], root⟩ s).1⟩ :: calls)
      (.cons k (f ⟨v, k, trail ++ [k], root⟩ s).1 result.1, result.2) where
  leaves := by
    rw [Tree.leaves, Value.leaves_of_not_map hv, List.map_cons, h.leaves]
    rfl
  told := List.forall_mem_cons.mpr ⟨⟨by simp, rfl⟩, h.told⟩
  runs := .call _ h.runs
  refilled := .leaf k hv _ h.refilled

theorem map (k : Key) {child rest : Tree} {s : σ} {calls calls' : List Visited}
    {inner result : Tree × σ} (hchild : IsRun f root (trail ++ [k]) child s calls inner)
    (h : IsRun f root trail rest inner.2 calls' result) :
    IsRun f root trail (.cons k (.map child) rest) s (calls ++ calls')
      (.cons k (.map inner.1) result.1, result.2) where
  leaves := by
    rw [List.map_append, hchild.leaves, h.leaves, Tree.leaves, List.map_append, List.map_map]
    simp [Leaf.under, Value.leaves, Function.comp_def]
  told := List.forall_mem_append.mpr ⟨hchild.told, h.told⟩
  runs := hchild.runs.append h.runs
  refilled := by
    rw [List.map_append]
    exact .map k hchild.refilled h.refilled

end IsRun

/-- Replacing the leaves is such a run, and its calls are those that a callback writes down which
answers like the given one. -/
theorem exists_isRun (f : Callback σ) (root : Tree) (t : Tree) (trail : List Key) (s : σ) :
    ∃ calls, IsRun f root trail t s calls (mapLeavesFrom f root trail t s) ∧
      ∀ log, mapLeavesFrom f.recorded root trail t (s, log) =
        ((mapLeavesFrom f root trail t s).1, (mapLeavesFrom f root trail t s).2, log ++ calls) := by
  induction t using deepInduction generalizing trail s with
  | nil => exact ⟨[], .nil f root trail s, fun log => by rw [List.append_nil]; rfl⟩
  | cons k v rest ihv ihrest =>
      rcases v.exists_map_or_isMap_eq_false with ⟨child, rfl⟩ | hv
      · obtain ⟨calls, hchild, hlog⟩ := ihv child rfl (trail ++ [k]) s
        obtain ⟨calls', hrest, hlog'⟩ :=
          ihrest trail (mapLeavesFrom f root (trail ++ [k]) child s).2
        refine ⟨calls ++ calls', .map k hchild hrest, fun log => ?_⟩
        rw [mapLeavesFrom_map, mapLeavesFrom_map, hlog]
        dsimp only
        rw [hlog', List.append_assoc]
      · obtain ⟨calls, hrest, hlog⟩ := ihrest trail (f ⟨v, k, trail ++ [k], root⟩ s).2
        rw [mapLeavesFrom_leaf hv]
        refine ⟨_ :: calls, .leaf k hv hrest, fun log => ?_⟩
        rw [mapLeavesFrom_leaf hv]
        dsimp only [Callback.recorded]
        rw [hlog, List.append_assoc]
        rfl

/-! ### Callbacks that look at the value alone -/

/-- A callback that answers what it is told changes nothing. -/
theorem mapLeavesFrom_eq_self {f : Callback σ} (hf : ∀ v s, (f v s).1 = v.value) (root t : Tree)
    (trail : List Key) (s : σ) : (mapLeavesFrom f root trail t s).1 = t := by
  induction t using deepInduction generalizing trail s with
  | nil => rfl
  | cons k v rest ihv ihrest =>
      rcases v.exists_map_or_isMap_eq_false with ⟨child, rfl⟩ | hv
      · rw [mapLeavesFrom_map, ihv child rfl, ihrest]
      · rw [mapLeavesFrom_leaf hv, hf, ihrest]

end Tree

/-- The callback that answers by the value alone and has no use for its state. -/
def Callback.ofFun (g : Value → Value) : Callback σ := fun v s => (g v.value, s)

namespace Tree

/-- Of two such callbacks, the first of which makes no maps, the second takes up what the first
answers. -/
theorem mapLeavesFrom_ofFun_ofFun {g h : Value → Value}
    (hg : ∀ v, v.isMap = false → (g v).isMap = false) (root root' root'' t : Tree)
    (trail trail' trail'' : List Key) (s s' s'' : σ) :
    (mapLeavesFrom (.ofFun h) root' trail' (mapLeavesFrom (.ofFun g) root trail t s).1 s').1 =
      (mapLeavesFrom (.ofFun (h ∘ g)) root'' trail'' t s'').1 := by
  induction t using deepInduction generalizing trail trail' trail'' s s' s'' with
  | nil => rfl
  | cons k v rest ihv ihrest =>
      rcases v.exists_map_or_isMap_eq_false with ⟨child, rfl⟩ | hv
      · simp only [mapLeavesFrom_map]
        rw [ihv child rfl _ _ (trail'' ++ [k]) _ _ s'', ihrest]
      · have hanswer : (Callback.ofFun g (σ := σ) ⟨v, k, trail ++ [k], root⟩ s).1.isMap = false :=
          hg v hv
        rw [mapLeavesFrom_leaf hv, mapLeavesFrom_leaf hv, mapLeavesFrom_leaf hanswer, ihrest]
        rfl

/-! ### The calls -/

/-- The calls of a callback over the leaves of a tree, and that another tree is the first one with
the answers in the places of the leaves. -/
structure MapsLeaves (f : Callback σ) (t : Tree) (s : σ) (calls : List Visited) (t' : Tree)
    (s' : σ) : Prop where
  /-- The calls go from the one state to the other. -/
  runs : f.Runs s calls s'
  /-- A call is told a leaf and the keys that lead to it, the last of them and the tree. -/
  told : ∀ c ∈ calls, t.at? c.visit.trail = some c.visit.value ∧ c.visit.value.isMap = false ∧
    c.visit.trail.getLast? = some c.visit.key ∧ c.visit.root = t
  /-- There is a call for every leaf. -/
  every : ∀ q v, t.at? q = some v → v.isMap = false → q ∈ calls.map (·.visit.trail)
  /-- There is one only. -/
  once : (calls.map (·.visit.trail)).Nodup
  /-- The calls go through the maps depth first, each in the order of its keys. -/
  ordered : (calls.map (·.visit.trail)).Pairwise t.Precedes
  /-- The answer of a call stands where its leaf stood. -/
  answered : ∀ c ∈ calls, t'.at? c.visit.trail = some c.answer
  /-- The maps are where they were, with the same keys in the same order. -/
  kept : ∀ q x, t.at? q = some (.map x) → ∃ x', t'.at? q = some (.map x') ∧ x'.keys = x.keys

theorem IsRun.mapsLeaves {f : Callback σ} {t : Tree} (ht : t.Distinct) {s : σ}
    {calls : List Visited} {result : Tree × σ} (h : IsRun f t [] t s calls result) :
    MapsLeaves f t s calls result.1 result.2 := by
  have hleaves : calls.map (fun c => (c.visit.trail, c.visit.value)) = t.leaves :=
    h.leaves.trans (List.map_id' t.leaves)
  have htrails : calls.map (·.visit.trail) = t.leaves.map (·.1) := by
    rw [← hleaves, List.map_map]
    rfl
  refine ⟨h.runs, fun c hc => ?_, fun q v hq hv => ?_, ?_, ?_, ?_, fun q x hx => ?_⟩
  · have hleaf : (c.visit.trail, c.visit.value) ∈ t.leaves := by
      rw [← hleaves]
      exact List.mem_map_of_mem (f := fun c => (c.visit.trail, c.visit.value)) hc
    obtain ⟨hthere, hmap⟩ := (mem_leaves_iff ht _ _).mp hleaf
    exact ⟨hthere, hmap, h.told c hc⟩
  · rw [htrails]
    exact List.mem_map_of_mem (f := Prod.fst) ((mem_leaves_iff ht q v).mpr ⟨hq, hv⟩)
  · rw [htrails]
    exact nodup_leaves ht
  · rw [htrails]
    exact pairwise_precedes_leaves ht
  · have hanswers := h.refilled.at?_leaves ht
    rw [← hleaves, List.forall₂_map_left_iff, List.forall₂_map_right_iff, List.forall₂_same]
      at hanswers
    exact hanswers
  · exact h.refilled.at?_map hx

/-- Replacing the leaves makes one call for each leaf, depth first, told the leaf, the keys that
lead to it, the last of them and the tree, and puts the answers in the places of the leaves.  So a
callback that answers what it is told changes nothing, and two callbacks that look at the value
alone do one after the other what they do composed, if the first one makes no maps. -/
theorem mapLeaves_calls (f : Callback σ) {t : Tree} (ht : t.Distinct) (s : σ) :
    (∃ calls, t.mapLeaves f.recorded (s, []) = ((t.mapLeaves f s).1, (t.mapLeaves f s).2, calls) ∧
      MapsLeaves f t s calls (t.mapLeaves f s).1 (t.mapLeaves f s).2) ∧
    ((∀ v s, (f v s).1 = v.value) → (t.mapLeaves f s).1 = t) ∧
    ∀ g h : Value → Value, (∀ v, v.isMap = false → (g v).isMap = false) →
      ((t.mapLeaves (.ofFun g) s).1.mapLeaves (.ofFun h) s).1 =
        (t.mapLeaves (.ofFun (h ∘ g)) s).1 := by
  refine ⟨?_, fun hf => mapLeavesFrom_eq_self hf t t [] s, fun g h hg => ?_⟩
  · obtain ⟨calls, hrun, hlog⟩ := exists_isRun f t t [] s
    exact ⟨calls, hlog [], hrun.mapsLeaves ht⟩
  · exact mapLeavesFrom_ofFun_ofFun hg t _ t t [] [] [] s s s

/-- Maps inside of maps, an empty one among them. -/
def nestedLeaves : Tree :=
  .cons (.name "b") (.map (.cons (.name "y") (.int 7) (.cons (.name "z") (.map .nil) .nil)))
    (.cons (.index 2) .null
      (.cons (.name "a") (.map (.cons (.name "x") (.string "s") .nil)) .nil))

/-- The leaves numbered in their order, left as they are, and replaced twice. -/
theorem mapLeaves_calls_nestedLeaves :
    let count : Callback Int64 := fun _ n => (.int n, n + 1)
    let numbered := Tree.cons (.name "b")
      (.map (.cons (.name "y") (.int 0) (.cons (.name "z") (.map .nil) .nil)))
      (.cons (.index 2) (.int 1) (.cons (.name "a") (.map (.cons (.name "x") (.int 2) .nil)) .nil))
    let g : Value → Value := fun v => .bool v.isNull
    let h : Value → Value := fun v => .string v.text
    nestedLeaves.Distinct ∧ (∀ v, v.isMap = false → (g v).isMap = false) ∧
      (∃ calls, nestedLeaves.mapLeaves count.recorded (0, []) = (numbered, 3, calls) ∧
        MapsLeaves count nestedLeaves 0 calls numbered 3) ∧
      (nestedLeaves.mapLeaves (fun v n => (v.value, n + 1)) (0 : Int64)).1 = nestedLeaves ∧
      ((nestedLeaves.mapLeaves (.ofFun g) (0 : Int64)).1.mapLeaves (.ofFun h) 0).1 =
        (nestedLeaves.mapLeaves (.ofFun (h ∘ g)) 0).1 := by
  intro count numbered g h
  have ht : nestedLeaves.Distinct := by simp [nestedLeaves, Distinct, Value.Distinct, keys]
  have hg : ∀ v, v.isMap = false → (g v).isMap = false := fun _ _ => rfl
  have hresult : nestedLeaves.mapLeaves count 0 = (numbered, 3) := by decide +kernel
  obtain ⟨⟨calls, hlog, hcalls⟩, _, hboth⟩ := mapLeaves_calls count ht 0
  obtain ⟨_, hsame, _⟩ := mapLeaves_calls (fun v (n : Int64) => (v.value, n + 1)) ht 0
  rw [hresult] at hlog hcalls
  exact ⟨ht, hg, ⟨calls, hlog, hcalls⟩, hsame fun _ _ => rfl, hboth g h hg⟩

end Tree

end Quill
