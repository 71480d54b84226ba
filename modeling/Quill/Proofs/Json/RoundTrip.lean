import Quill.Document
import Quill.Proofs.Json.Tokens
import Quill.Proofs.Json.Values

/-!
# Documents written as JSON

The tokens of a value, taken one by one, deliver this value to the containers that are open around
it.  The claim on a single value is the step of the induction, the claims on the items and on the
fields behind the first are its run: they carry what the innermost container holds already.  An
object needs distinct names for that, since a name that comes again takes the place of the first.

So a tree comes back from its JSON text whatever the indentation, with null in place of `unset`.
Doubles are left out, since their digits are rounded when they are read, and so are trees deeper
than the reader goes.
-/

namespace Quill.Json

mutual

/-- The greatest number of containers inside one another, in a JSON value. -/
def depth : Json → Nat
  | .array items => itemsDepth items + 1
  | .object fields => fieldsDepth fields + 1
  | _ => 0

/-- The greatest depth of the items of an array. -/
def itemsDepth : List Json → Nat
  | [] => 0
  | j :: rest => max j.depth (itemsDepth rest)

/-- The greatest depth of the fields of an object. -/
def fieldsDepth : List (String × Json) → Nat
  | [] => 0
  | (_, j) :: rest => max j.depth (fieldsDepth rest)

end

/-- Some tokens lead from one state of the reader to another. -/
def Leads (s : State) (ts : List Token) (s' : State) : Prop :=
  ts.foldlM step s = some s'

namespace Leads

variable {s s' s'' : State} {t : Token} {ts us : List Token}

theorem nil (s : State) : Leads s [] s := rfl

theorem cons (hstep : step s t = some s') (h : Leads s' ts s'') : Leads s (t :: ts) s'' := by
  rw [Leads, List.foldlM_cons, hstep]
  exact h

theorem append (h : Leads s ts s') (h' : Leads s' us s'') : Leads s (ts ++ us) s'' := by
  rw [Leads, List.foldlM_append, h]
  exact h'

end Leads

/-! ### Single steps -/

theorem setField_of_not_mem {fields : List (String × Json)} {name : String}
    (h : name ∉ fields.map (·.1)) (j : Json) : setField fields name j = fields ++ [(name, j)] := by
  induction fields with
  | nil => rfl
  | cons field fields ih =>
      rw [List.map_cons, List.mem_cons, not_or] at h
      rw [setField, if_neg (Ne.symm h.1), ih h.2, List.cons_append]

/-- A field whose name is new comes behind the other fields. -/
theorem deliver_field {taken : List (String × Json)} {name : String}
    (h : name ∉ taken.map (·.1)) (j : Json) (frames : List Frame) :
    deliver j (.object taken name :: frames) =
      ⟨.object (taken ++ [(name, j)]) name :: frames, .more⟩ := by
  rw [deliver, setField_of_not_mem h]

theorem step_openArray {frames : List Frame} (h : frames.length < maxDepth) :
    step ⟨frames, .value⟩ .openArray = some ⟨.array [] :: frames, .firstItem⟩ :=
  if_pos h

theorem step_openObject {frames : List Frame} (h : frames.length < maxDepth) :
    step ⟨frames, .value⟩ .openObject = some ⟨frames, .firstName []⟩ :=
  if_pos h

/-- The first item of an array is taken like any value, since no value begins with the end of an
array. -/
theorem Leads.firstItem {j : Json} {frames : List Frame} {s : State}
    (h : Leads ⟨frames, .value⟩ j.tokens s) : Leads ⟨frames, .firstItem⟩ j.tokens s := by
  cases j with
  | array items => cases items <;> (rw [tokens] at h ⊢; exact h)
  | object fields => cases fields <;> (rw [tokens] at h ⊢; exact h)
  | _ => rw [tokens] at h ⊢; exact h

/-! ### Runs -/

mutual

/-- The tokens of a value deliver this value. -/
theorem leads_tokens : ∀ (j : Json) (frames : List Frame), j.Distinct →
    frames.length + j.depth ≤ maxDepth → Leads ⟨frames, .value⟩ j.tokens (deliver j frames)
  | .null, _, _, _ => .cons rfl (.nil _)
  | .bool _, _, _, _ => .cons rfl (.nil _)
  | .int _, _, _, _ => .cons rfl (.nil _)
  | .float _, _, _, _ => .cons rfl (.nil _)
  | .string _, _, _, _ => .cons rfl (.nil _)
  | .array [], frames, _, hdepth => by
      rw [depth, itemsDepth] at hdepth
      exact .cons (step_openArray (by omega)) (.cons rfl (.nil _))
  | .array (j :: items), frames, ⟨hj, hitems⟩, hdepth => by
      rw [depth, itemsDepth] at hdepth
      have hitem := leads_tokens j (.array [] :: frames) hj (by rw [List.length_cons]; omega)
      have htail := leads_itemTokens items [j] frames hitems (by omega)
      exact .cons (step_openArray (by omega)) (hitem.firstItem.append htail)
  | .object [], frames, _, hdepth => by
      rw [depth, fieldsDepth] at hdepth
      exact .cons (step_openObject (by omega)) (.cons rfl (.nil _))
  | .object ((name, j) :: fields), frames, ⟨hnames, hj, hfields⟩, hdepth => by
      rw [depth, fieldsDepth] at hdepth
      have hfield := leads_tokens j (.object [] name :: frames) hj
        (by rw [List.length_cons]; omega)
      have htail := leads_fieldTokens fields [(name, j)] name frames hnames hfields (by omega)
      -- The bracket, the first name and its colon stand in front of the first value.
      exact .cons (step_openObject (by omega)) (.cons rfl (.cons rfl (hfield.append htail)))

/-- The items behind the first join those that the array holds already. -/
theorem leads_itemTokens : ∀ (items taken : List Json) (frames : List Frame),
    DistinctItems items → frames.length + 1 + itemsDepth items ≤ maxDepth →
    Leads ⟨.array taken :: frames, .more⟩ (itemTokens items)
      (deliver (.array (taken.reverse ++ items)) frames)
  | [], taken, frames, _, _ => by
      rw [List.append_nil]
      exact .cons rfl (.nil _)
  | j :: items, taken, frames, ⟨hj, hitems⟩, hdepth => by
      rw [itemsDepth] at hdepth
      have hitem := leads_tokens j (.array taken :: frames) hj (by rw [List.length_cons]; omega)
      have htail := leads_itemTokens items (j :: taken) frames hitems (by omega)
      rw [List.reverse_cons, List.append_assoc] at htail
      exact .cons rfl (hitem.append htail)

/-- The fields behind the first join those that the object holds already. -/
theorem leads_fieldTokens : ∀ (fields taken : List (String × Json)) (last : String)
    (frames : List Frame), ((taken ++ fields).map (·.1)).Nodup → DistinctFields fields →
    frames.length + 1 + fieldsDepth fields ≤ maxDepth →
    Leads ⟨.object taken last :: frames, .more⟩ (fieldTokens fields)
      (deliver (.object (taken ++ fields)) frames)
  | [], taken, last, frames, _, _, _ => by
      rw [List.append_nil]
      exact .cons rfl (.nil _)
  | (name, j) :: fields, taken, last, frames, hnames, ⟨hj, hfields⟩, hdepth => by
      rw [fieldsDepth] at hdepth
      have hnew : name ∉ taken.map (·.1) := by
        rw [List.map_append, List.map_cons] at hnames
        intro hmem
        exact (List.nodup_append.mp hnames).2.2 name hmem name List.mem_cons_self rfl
      have hfield := leads_tokens j (.object taken name :: frames) hj
        (by rw [List.length_cons]; omega)
      -- The object now ends with this field, which is what the rest of the fields start from.
      rw [deliver_field hnew] at hfield
      have hlist : taken ++ (name, j) :: fields = taken ++ [(name, j)] ++ fields := by
        rw [List.append_assoc, List.singleton_append]
      rw [hlist] at hnames ⊢
      have htail := leads_fieldTokens fields (taken ++ [(name, j)]) name frames hnames hfields
        (by omega)
      -- The comma, the name and its colon stand in front of the value.
      exact .cons rfl (.cons rfl (.cons rfl (hfield.append htail)))

end

/-- A value without doubles is read back from its text if its names are distinct and it is not too
deep. -/
theorem ofText?_toText {j : Json} (hfree : j.FloatFree) (hdistinct : j.Distinct)
    (hdepth : j.depth ≤ maxDepth) (indent : Indent) :
    ofText? (j.toText indent) = some j := by
  have hrun : j.tokens.foldlM step ⟨[], .value⟩ = some (deliver j []) :=
    leads_tokens j [] hdistinct (by rw [List.length_nil]; omega)
  rw [ofText?, scan?_toText hfree, Option.bind_some, ofTokens?, hrun]
  rfl

/-! ### Trees -/

mutual

theorem floatFree_ofValue : ∀ v : Value, (v.Everywhere fun w => w.kind ≠ .float) →
    (ofValue v).FloatFree
  | .null, _ => trivial
  | .unset, _ => trivial
  | .bool _, _ => trivial
  | .int _, _ => trivial
  | .string _, _ => trivial
  | .float _, h => absurd rfl h
  | .map t, ⟨_, h⟩ => by
      obtain ⟨hitems, hfields⟩ := floatFree_treeItems_and_treeFields t h
      rw [ofValue]
      split
      · exact hitems
      · exact hfields

theorem floatFree_treeItems_and_treeFields : ∀ t : Tree,
    (t.EveryValue fun w => w.kind ≠ .float) →
    FloatFreeItems (treeItems t) ∧ FloatFreeFields (treeFields t)
  | .nil, _ => ⟨trivial, trivial⟩
  | .cons _ v rest, ⟨hv, hrest⟩ => by
      have hvalue := floatFree_ofValue v hv
      obtain ⟨hitems, hfields⟩ := floatFree_treeItems_and_treeFields rest hrest
      exact ⟨⟨hvalue, hitems⟩, ⟨hvalue, hfields⟩⟩

end

mutual

/-- The containers of a JSON value are the maps of the value. -/
theorem depth_ofValue : ∀ v : Value, (ofValue v).depth = v.depth
  | .null => rfl
  | .unset => rfl
  | .bool _ => rfl
  | .int _ => rfl
  | .string _ => rfl
  | .float x => by
      rw [ofValue]
      cases x.isFinite <;> rfl
  | .map t => by
      obtain ⟨hitems, hfields⟩ := depth_treeItems_and_treeFields t
      rw [ofValue, Value.depth]
      split
      · exact hitems
      · exact hfields

theorem depth_treeItems_and_treeFields : ∀ t : Tree,
    itemsDepth (treeItems t) + 1 = t.depth ∧ fieldsDepth (treeFields t) + 1 = t.depth
  | .nil => ⟨rfl, rfl⟩
  | .cons _ v rest => by
      have hvalue := depth_ofValue v
      obtain ⟨hitems, hfields⟩ := depth_treeItems_and_treeFields rest
      rw [Tree.depth, ← hvalue]
      constructor
      · rw [treeItems, itemsDepth]
        omega
      · rw [treeFields, fieldsDepth]
        omega

end

end Quill.Json

namespace Quill.Tree

/-- A tree without doubles, with canonical keys and not deeper than the reader goes, is read back
from its JSON text with null in place of `unset`, whatever the indentation of the text. -/
theorem ofJson_write {t : Tree} (hdistinct : t.Distinct) (hkeys : t.EveryKey Key.IsCanonical)
    (hfloat : t.EveryValue fun v => v.kind ≠ .float) (hdepth : t.depth ≤ 127)
    (indent : Json.Indent) : ofJson (t.write .json indent) = .ok t.nulled := by
  have hfree : (Json.ofTree t).FloatFree :=
    Json.floatFree_ofValue (.map t) ⟨Value.Kind.noConfusion, hfloat⟩
  have hnames : (Json.ofTree t).Distinct := Json.distinct_ofValue (.map t) hdistinct hkeys
  have hread : (Json.ofTree t).depth ≤ Json.maxDepth := by
    rw [Json.ofTree, Json.depth_ofValue]
    exact hdepth
  have hback : (Json.ofTree t).toValue = .map t.nulled :=
    Json.toValue_ofValue_eq_nulled (.map t) hkeys
  rw [ofJson, write, Json.ofText?_toText hfree hnames hread]
  simp only [hback]

/-- Texts and names with characters to be escaped, the ends of the 64-bit integers, and empty and
nested containers. -/
def writtenSample : Tree :=
  .cons (.name "say \"\\\t") (.string "\x01\n/\u00e9 \u2028")
    (.cons (.index (-3)) (.int Int64.minValue)
    (.cons (.name "07") (.map (.cons (.index 0) .unset (.cons (.index 1) (.map .nil)
      (.cons (.index 2) (.int Int64.maxValue) .nil))))
    (.cons (.name "") (.map (.cons (.index 1) (.bool false) (.cons (.index 0) .null .nil))) .nil)))

theorem ofJson_write_writtenSample :
    (∀ indent, ofJson (writtenSample.write .json indent) = .ok writtenSample.nulled) ∧
      writtenSample.nulled =
        .cons (.name "say \"\\\t") (.string "\x01\n/\u00e9 \u2028")
          (.cons (.index (-3)) (.int Int64.minValue)
          (.cons (.name "07") (.map (.cons (.index 0) .null (.cons (.index 1) (.map .nil)
            (.cons (.index 2) (.int Int64.maxValue) .nil))))
          (.cons (.name "") (.map (.cons (.index 1) (.bool false) (.cons (.index 0) .null .nil)))
            .nil))) := by
  have hdistinct : writtenSample.Distinct := by
    simp [writtenSample, Tree.Distinct, Value.Distinct, keys]
  have hnames : (Key.name "say \"\\\t").IsCanonical ∧ (Key.name "07").IsCanonical ∧
      (Key.name "").IsCanonical := by
    decide
  have hkeys : writtenSample.EveryKey Key.IsCanonical := by
    simp [writtenSample, Tree.EveryKey, Value.EveryKey, Key.isCanonical_index, hnames]
  have hfloat : writtenSample.EveryValue fun v => v.kind ≠ .float := by
    simp [writtenSample, EveryValue, Value.Everywhere, Value.kind]
  have hdepth : writtenSample.depth ≤ 127 := by
    decide
  exact ⟨ofJson_write hdistinct hkeys hfloat hdepth, rfl⟩

end Quill.Tree
