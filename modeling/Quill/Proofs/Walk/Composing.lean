import Quill.Proofs.Walk.Step
import Quill.Proofs.Walk.Unreached

/-!
# Paths behind literal keys

Literal keys lead to one map of a tree, or to none.  A walk along literal keys and a further path is
the walk along the further path in that map, and the map that a change leaves goes back to where the
keys lead.  Where they lead to no map nothing is there, the default is read and nothing is removed,
while setting makes the missing maps and starts from an empty one.

Each walk gets one equation for a step with segments behind it, told by the map that the key holds,
and from it one induction over the keys.
-/

namespace Quill

namespace Tree

/-! ### The map that keys lead to -/

/-- The map that a key holds; nothing if it holds something else. -/
def mapUnder? (t : Tree) (k : Key) : Option Tree :=
  (t.get? k).bind Value.tree?

/-- The map at the end of a list of keys; nothing if something else stands there. -/
def mapAt? (t : Tree) (ks : List Key) : Option Tree :=
  (t.at? ks).bind Value.tree?

theorem mapUnder?_eq_some_iff {t child : Tree} {k : Key} :
    t.mapUnder? k = some child ↔ t.get? k = some (.map child) := by
  unfold mapUnder?
  cases t.get? k with
  | none => simp
  | some v => cases v <;> simp [Value.tree?]

theorem mapAt?_cons (t : Tree) (k : Key) (ks : List Key) :
    t.mapAt? (k :: ks) = (t.mapUnder? k).bind (·.mapAt? ks) := by
  rw [mapAt?, at?_cons, mapUnder?]
  cases t.get? k with
  | none => rfl
  | some v =>
      obtain ⟨child, rfl⟩ | hmap := v.exists_map_or_isMap_eq_false
      · rfl
      · have hnone : v.tree? = none := by
          cases v with
          | map child => cases hmap
          | _ => rfl
        -- No map stands under the key, so only the key itself leads to something: no map either.
        cases ks with
        | nil => simp [Value.at?_nil, hnone]
        | cons k' ks => simp [Value.at?_cons_of_not_map hmap, hnone]

/-- In the empty tree no key holds a map, so a missing map and an empty one lead to the same. -/
theorem getD_mapAt?_cons (t : Tree) (k : Key) (ks : List Key) :
    (t.mapAt? (k :: ks)).getD .nil =
      (((t.mapUnder? k).getD .nil).mapAt? ks).getD .nil := by
  rw [mapAt?_cons]
  cases t.mapUnder? k with
  | some child => rfl
  | none => cases ks <;> rfl

/-! ### Steps with segments behind them -/

section Step

variable (t : Tree) (k : Key)

theorem hasAt_eq_any (inner : Tree → Bool) :
    t.hasAt false inner k = (t.mapUnder? k).any inner := by
  unfold hasAt mapUnder?
  cases t.get? k with
  | none => rfl
  | some v => cases v <;> rfl

theorem descendAt_eq_elim (default : Value) (inner : Tree → Value) :
    t.descendAt default false inner k = (t.mapUnder? k).elim default inner := by
  unfold descendAt mapUnder?
  cases t.get? k with
  | none => rfl
  | some v => cases v <;> rfl

theorem childAt_eq_getD : t.childAt k = (t.mapUnder? k).getD .nil := by
  unfold childAt mapUnder?
  cases t.get? k with
  | none => rfl
  | some v => cases v <;> rfl

/-- Empty maps being kept, the map that a removal leaves is put back. -/
theorem removeAt_eq_elim (inner : Tree → Tree) :
    t.removeAt true false inner k =
      (t.mapUnder? k).elim t fun child => t.insert k (.map (inner child)) := by
  unfold removeAt mapUnder?
  cases t.get? k with
  | none => rfl
  | some v => cases v <;> simp [Value.tree?]

end Step

end Tree

namespace Path

/-! ### Walks along literal keys and a further path -/

section Append

variable {b : Path}

theorem isNil_append (hb : b ≠ .nil) (p : Path) : (p ++ b).isNil = false := by
  cases p with
  | nil => exact isNil_eq_false_of_ne_nil hb
  | key text rest => rfl
  | group ms rest => rfl

theorem ofKeys_cons_append (text : String) (rest : List String) (b : Path) :
    ofKeys (text :: rest) ++ b = .key text (ofKeys rest ++ b) := rfl

variable (hb : b ≠ .nil) {texts : List String} (hw : wildcard ∉ texts)

include hb hw

theorem has_append (t : Tree) :
    (ofKeys texts ++ b).has t = (t.mapAt? (texts.map Key.ofText)).any b.has := by
  induction texts generalizing t with
  | nil => rfl
  | cons text rest ih =>
      rw [List.mem_cons, not_or] at hw
      have hbehind : (ofKeys rest ++ b).has =
          fun child => (child.mapAt? (rest.map Key.ofText)).any b.has := funext (ih hw.2)
      rw [ofKeys_cons_append, has_literal (Ne.symm hw.1), isNil_append hb, Tree.hasAt_eq_any,
        hbehind, List.map_cons, Tree.mapAt?_cons]
      cases t.mapUnder? (.ofText text) with
      | none => rfl
      | some child => rfl

theorem get_append (default : Value) (t : Tree) :
    (ofKeys texts ++ b).get default false t =
      (t.mapAt? (texts.map Key.ofText)).elim default (b.get default false) := by
  induction texts generalizing t with
  | nil => rfl
  | cons text rest ih =>
      rw [List.mem_cons, not_or] at hw
      have hbehind : (ofKeys rest ++ b).get default false = fun child =>
          (child.mapAt? (rest.map Key.ofText)).elim default (b.get default false) :=
        funext (ih hw.2)
      rw [ofKeys_cons_append, get_literal (Ne.symm hw.1), isNil_append hb, Tree.descendAt_eq_elim,
        hbehind, List.map_cons, Tree.mapAt?_cons]
      cases t.mapUnder? (.ofText text) with
      | none => rfl
      | some child => rfl

theorem set_append (hne : texts ≠ []) (value : Value) (t : Tree) :
    (ofKeys texts ++ b).set value t = (ofKeys texts).set
      (.map (b.set value ((t.mapAt? (texts.map Key.ofText)).getD .nil))) t := by
  induction texts generalizing t with
  | nil => exact absurd rfl hne
  | cons text rest ih =>
      rw [List.mem_cons, not_or] at hw
      have hkey : text ≠ wildcard := Ne.symm hw.1
      rw [ofKeys_cons_append, set_literal hkey, isNil_append hb, List.map_cons,
        Tree.getD_mapAt?_cons, ← Tree.childAt_eq_getD, ofKeys, set_literal hkey, Tree.setAt,
        Tree.setAt, if_neg Bool.false_ne_true]
      -- Behind the last key the walk is in the map that it changes: there is nothing to compose.
      cases rest with
      | nil => rfl
      | cons text' rest =>
          rw [ih hw.2 (List.cons_ne_nil _ _)]
          rfl

theorem remove_append (hne : texts ≠ []) (t : Tree) :
    (ofKeys texts ++ b).remove true t = (t.mapAt? (texts.map Key.ofText)).elim t fun m =>
      (ofKeys texts).set (.map (b.remove true m)) t := by
  induction texts generalizing t with
  | nil => exact absurd rfl hne
  | cons text rest ih =>
      rw [List.mem_cons, not_or] at hw
      have hkey : text ≠ wildcard := Ne.symm hw.1
      rw [ofKeys_cons_append, remove_literal hkey, isNil_append hb, Tree.removeAt_eq_elim,
        List.map_cons, Tree.mapAt?_cons, ofKeys]
      cases hchild : t.mapUnder? (.ofText text) with
      | none => rfl
      | some child =>
          simp only [Option.elim_some, Option.bind_some, set_literal hkey, Tree.setAt,
            Tree.childAt_eq_getD, hchild, Option.getD_some]
          cases rest with
          | nil => rfl
          | cons text' rest =>
              rw [ih hw.2 (List.cons_ne_nil _ _)]
              cases child.mapAt? ((text' :: rest).map Key.ofText) with
              -- The map under the first key is left as it was, and it goes back to its place.
              | none => exact Tree.insert_get? (Tree.mapUnder?_eq_some_iff.mp hchild)
              | some m => rfl

end Append

/-- A walk along literal keys and a further path goes on in the map that the keys lead to.
Something is there if such a map is and has it there; its values are read in the map, and without a
map the default; what is set, or removed while empty maps are kept, is set or removed in the map,
which then takes its place.  Setting starts from an empty map where there is none, and removing does
nothing there.  Trees are compared with the order of their keys. -/
theorem walks_append {texts : List String} (hne : texts ≠ []) (hw : wildcard ∉ texts) {b : Path}
    (hb : b ≠ .nil) (t : Tree) (v default : Value) :
    let found := t.mapAt? (texts.map Key.ofText)
    ((ofKeys texts ++ b).has t = true ↔ ∃ m, found = some m ∧ b.has m = true) ∧
      (ofKeys texts ++ b).get default false t = found.elim default (b.get default false) ∧
      (ofKeys texts ++ b).set v t = (ofKeys texts).set (.map (b.set v (found.getD .nil))) t ∧
      (ofKeys texts ++ b).remove true t =
        found.elim t fun m => (ofKeys texts).set (.map (b.remove true m)) t := by
  intro found
  refine ⟨?_, ?_, ?_, ?_⟩
  · rw [has_append hb hw, Option.any_eq_true]
  · exact get_append hb hw default t
  · exact set_append hb hw hne v t
  · exact remove_append hb hw hne t

/-- What is deep, named once and found once more by a wildcard of its own. -/
def deepAndAll : Path :=
  .group (.key "deep" (.path (.key "*" .nil) .nil)) .nil

theorem walks_append_deepMark :
    wildcard ∉ ["b", "mark"] ∧ wildcard ∉ ["a", "mark"] ∧ deepAndAll ≠ .nil ∧
      (ofKeys ["b", "mark"] ++ deepAndAll).has markedRows = true ∧
      (ofKeys ["b", "mark"] ++ deepAndAll).get .unset false markedRows =
        .map (.cons (.name "deep") .null .nil) ∧
      (ofKeys ["b", "mark"] ++ deepAndAll).remove true markedRows =
        (ofKeys ["b", "mark"]).set (.map .nil) markedRows ∧
      (ofKeys ["a", "mark"] ++ deepAndAll).get .unset false markedRows = .unset ∧
      (ofKeys ["a", "mark"] ++ deepAndAll).set (.int 3) markedRows =
        (ofKeys ["a", "mark"]).set (.map (.cons (.name "deep") (.int 3) .nil)) markedRows := by
  have hb : wildcard ∉ ["b", "mark"] := by decide
  have ha : wildcard ∉ ["a", "mark"] := by decide
  have hne : deepAndAll ≠ .nil := by simp [deepAndAll]
  obtain ⟨hhas, hget, _, hremove⟩ :=
    walks_append (by simp) hb hne markedRows (.int 3) .unset
  obtain ⟨_, hmissing, hset, _⟩ :=
    walks_append (by simp) ha hne markedRows (.int 3) .unset
  exact ⟨hb, ha, hne, hhas.mpr ⟨_, rfl, by decide⟩, hget, hremove, hmissing, hset⟩

end Path

end Quill
