import Mathlib.Data.List.Nodup
import Quill.Json.Basic
import Quill.Proofs.Tree.KeyText
import Quill.Tree.Depth

/-!
# Values by way of JSON

A value has a JSON value, and the JSON value stands for a value again.  What comes back is the value
itself, with null in place of what JSON cannot hold: `unset` and the floats that are not finite.
Nothing else is lost, since an array is made of exactly those maps that an array stands for, and a
canonical key is told by the text that names a field.  So names are also as distinct as keys are.
-/

namespace Quill

mutual

/-- A value with null in place of what JSON cannot hold. -/
def Value.nulled : Value → Value
  | .unset => .null
  | .float x => if x.isFinite then .float x else .null
  | .map t => .map t.nulled
  | v => v

/-- A tree with null in place of the values that JSON cannot hold. -/
def Tree.nulled : Tree → Tree
  | .nil => .nil
  | .cons k v rest => .cons k v.nulled rest.nulled

end

namespace Json

mutual

/-- No object in a JSON value has two fields with one name. -/
def Distinct : Json → Prop
  | .array items => DistinctItems items
  | .object fields => (fields.map (·.1)).Nodup ∧ DistinctFields fields
  | _ => True

/-- No object in the items of an array has two fields with one name. -/
def DistinctItems : List Json → Prop
  | [] => True
  | j :: rest => j.Distinct ∧ DistinctItems rest

/-- No object in the fields of an object has two fields with one name, the object itself apart. -/
def DistinctFields : List (String × Json) → Prop
  | [] => True
  | (_, j) :: rest => j.Distinct ∧ DistinctFields rest

end

end Json

namespace Tree

/-! ### Sequences -/

/-- Keys that count up from some index leave nothing to the values but their order. -/
theorem sequenceFrom_values {t : Tree} {i : Nat} (h : isSequenceFrom i t = true) :
    sequenceFrom i t.values = t := by
  induction t generalizing i with
  | nil => rfl
  | cons k v rest ih =>
      rw [isSequenceFrom, Bool.and_eq_true, beq_iff_eq] at h
      obtain ⟨rfl, hrest⟩ := h
      rw [values, sequenceFrom, ih hrest]

theorem isSequenceFrom_nulled (t : Tree) (i : Nat) :
    isSequenceFrom i t.nulled = isSequenceFrom i t := by
  induction t generalizing i with
  | nil => rfl
  | cons k v rest ih => rw [nulled, isSequenceFrom, isSequenceFrom, ih]

/-- What holds of every key in a tree holds of its own keys. -/
theorem EveryKey.of_mem_keys {P : Key → Prop} {t : Tree} (h : t.EveryKey P) {k : Key}
    (hk : k ∈ t.keys) : P k := by
  cases hget : t.get? k with
  | none => exact absurd hk ((t.get?_eq_none_iff k).mp hget)
  | some v => exact (h.of_get? hget).1

end Tree

namespace Json

/-! ### There and back -/

mutual

theorem toValue_ofValue_eq_nulled : ∀ v : Value, v.EveryKey Key.IsCanonical →
    (ofValue v).toValue = v.nulled
  | .null, _ => rfl
  | .unset, _ => rfl
  | .bool _, _ => rfl
  | .int _, _ => rfl
  | .string _, _ => rfl
  | .float x, _ => by
      rw [ofValue, Value.nulled]
      cases x.isFinite <;> rfl
  | .map t, h => by
      obtain ⟨hitems, hfields⟩ := itemValues_and_fieldTree t h
      rw [ofValue, Value.nulled]
      by_cases hseq : t.isSequence = true
      · have hnulled : Tree.isSequenceFrom 0 t.nulled = true :=
          (Tree.isSequenceFrom_nulled t 0).trans hseq
        rw [if_pos hseq, toValue, hitems, Tree.sequence, Tree.sequenceFrom_values hnulled]
      · rw [if_neg hseq, toValue, hfields]

/-- The items of a map keep its values in order, its fields keep the keys as well. -/
theorem itemValues_and_fieldTree : ∀ t : Tree, t.EveryKey Key.IsCanonical →
    itemValues (treeItems t) = t.nulled.values ∧ fieldTree (treeFields t) = t.nulled
  | .nil, _ => ⟨rfl, rfl⟩
  | .cons k v rest, ⟨hk, hv, hrest⟩ => by
      have hvalue := toValue_ofValue_eq_nulled v hv
      obtain ⟨hitems, hfields⟩ := itemValues_and_fieldTree rest hrest
      have hkey : Key.ofText k.text = k := hk
      constructor
      · rw [treeItems, itemValues, hvalue, hitems, Tree.nulled, Tree.values]
      · rw [treeFields, fieldTree, hkey, hvalue, hfields, Tree.nulled]

end

/-! ### Names -/

theorem map_fst_treeFields (t : Tree) : (treeFields t).map (·.1) = t.keys.map Key.text := by
  induction t with
  | nil => rfl
  | cons k v rest ih => rw [treeFields, List.map_cons, ih, Tree.keys, List.map_cons]

/-- Distinct canonical keys give distinct names. -/
theorem nodup_names {t : Tree} (hdistinct : t.keys.Nodup) (hkeys : t.EveryKey Key.IsCanonical) :
    ((treeFields t).map (·.1)).Nodup := by
  rw [map_fst_treeFields]
  refine List.Nodup.map_on (fun k hk k' hk' htext => ?_) hdistinct
  have hread : Key.ofText k.text = k := hkeys.of_mem_keys hk
  have hread' : Key.ofText k'.text = k' := hkeys.of_mem_keys hk'
  rw [← hread, htext, hread']

mutual

theorem distinct_ofValue : ∀ v : Value, v.Distinct → v.EveryKey Key.IsCanonical →
    (ofValue v).Distinct
  | .null, _, _ => trivial
  | .unset, _, _ => trivial
  | .bool _, _, _ => trivial
  | .int _, _, _ => trivial
  | .string _, _, _ => trivial
  | .float x, _, _ => by
      rw [ofValue]
      cases x.isFinite <;> trivial
  | .map t, hdistinct, hkeys => by
      obtain ⟨hitems, hfields⟩ := distinct_treeItems_and_treeFields t hdistinct hkeys
      have hnames := nodup_names (Tree.Distinct.nodup_keys hdistinct) hkeys
      rw [ofValue]
      split
      · exact hitems
      · exact ⟨hnames, hfields⟩

theorem distinct_treeItems_and_treeFields : ∀ t : Tree, t.Distinct → t.EveryKey Key.IsCanonical →
    DistinctItems (treeItems t) ∧ DistinctFields (treeFields t)
  | .nil, _, _ => ⟨trivial, trivial⟩
  | .cons _ v rest, ⟨_, hv, hrest⟩, ⟨_, hkeysValue, hkeysRest⟩ => by
      have hvalue := distinct_ofValue v hv hkeysValue
      obtain ⟨hitems, hfields⟩ := distinct_treeItems_and_treeFields rest hrest hkeysRest
      exact ⟨⟨hvalue, hitems⟩, ⟨hvalue, hfields⟩⟩

end

/-- A value with canonical keys comes back from its JSON value, with null in place of `unset` and of
the floats that are not finite.  No two of its keys come to one name on the way. -/
theorem toValue_ofValue {v : Value} (hkeys : v.EveryKey Key.IsCanonical) :
    (ofValue v).toValue = v.nulled ∧ (v.Distinct → (ofValue v).Distinct) :=
  ⟨toValue_ofValue_eq_nulled v hkeys, fun h => distinct_ofValue v h hkeys⟩

/-- A sequence that holds a map with its indices out of order and one with names and a gap. -/
def mixedSample : Value :=
  .map (.cons (.index 0) .unset
    (.cons (.index 1)
      (.map (.cons (.index 1) (.float .nan) (.cons (.index 0) (.float ⟨0x3ff8000000000000⟩) .nil)))
    (.cons (.index 2)
      (.map (.cons (.name "07") (.map .nil) (.cons (.index (-3)) (.string "x") .nil))) .nil)))

theorem toValue_ofValue_mixedSample :
    mixedSample.EveryKey Key.IsCanonical ∧ mixedSample.Distinct ∧
      (ofValue mixedSample).toValue =
        .map (.cons (.index 0) .null
          (.cons (.index 1)
            (.map (.cons (.index 1) .null (.cons (.index 0) (.float ⟨0x3ff8000000000000⟩) .nil)))
          (.cons (.index 2)
            (.map (.cons (.name "07") (.map .nil) (.cons (.index (-3)) (.string "x") .nil)))
            .nil))) ∧
      (ofValue mixedSample).Distinct := by
  have hname : (Key.name "07").IsCanonical := by decide
  have hkeys : mixedSample.EveryKey Key.IsCanonical := by
    simp [mixedSample, Value.EveryKey, Tree.EveryKey, Key.isCanonical_index, hname]
  have hdistinct : mixedSample.Distinct := by
    simp [mixedSample, Value.Distinct, Tree.Distinct, Tree.keys]
  obtain ⟨hback, hnames⟩ := toValue_ofValue hkeys
  exact ⟨hkeys, hdistinct, hback.trans (by decide), hnames hdistinct⟩

end Json

end Quill
