import Quill.Path.Basic
import Quill.Key

/-!
# Selection

The lists of keys that a path selects, whatever tree it is walked in: the wildcard selects any
key, a member that is a key goes on with the path behind its group, and a member that is a path
selects what it selects alone.
-/

namespace Quill

/-- Whether a key segment selects a key. -/
def Path.segmentSelects (text : String) (k : Key) : Prop :=
  text = Path.wildcard ∨ k = .ofText text

instance (text : String) (k : Key) : Decidable (Path.segmentSelects text k) :=
  inferInstanceAs (Decidable (_ ∨ _))

mutual

/-- The lists of keys that a path selects. -/
def Path.Selects : Path → List Key → Prop
  | .nil, ks => ks = []
  | .key _ _, [] => False
  | .key text rest, k :: ks => Path.segmentSelects text k ∧ rest.Selects ks
  | .group members rest, ks => members.Selects rest.Selects ks

/-- The lists of keys that the members of a group select; `behind` tells what the path behind
the group does. -/
def Members.Selects : Members → (List Key → Prop) → List Key → Prop
  | .nil, _, _ => False
  | .key text rest, behind, ks =>
      (∃ tail, ks = .ofText text :: tail ∧ behind tail) ∨ rest.Selects behind ks
  | .path sub rest, behind, ks => sub.Selects ks ∨ rest.Selects behind ks

end

mutual

/-- No group and no member at any depth of a path is empty. -/
def Path.NoneEmpty : Path → Prop
  | .nil => True
  | .key _ rest => rest.NoneEmpty
  | .group members rest => members ≠ .nil ∧ members.NoneEmpty ∧ rest.NoneEmpty

/-- No group and no member at any depth of a group is empty, the group itself apart. -/
def Members.NoneEmpty : Members → Prop
  | .nil => True
  | .key _ rest => rest.NoneEmpty
  | .path sub rest => sub ≠ .nil ∧ sub.NoneEmpty ∧ rest.NoneEmpty

end

mutual

/-- No member at any depth of a path is an empty path; groups may be empty. -/
def Path.NoEmptySub : Path → Prop
  | .nil => True
  | .key _ rest => rest.NoEmptySub
  | .group members rest => members.NoEmptySub ∧ rest.NoEmptySub

/-- No member at any depth of a group is an empty path. -/
def Members.NoEmptySub : Members → Prop
  | .nil => True
  | .key _ rest => rest.NoEmptySub
  | .path sub rest => sub ≠ .nil ∧ sub.NoEmptySub ∧ rest.NoEmptySub

end

namespace Path

theorem selects_key_cons (text : String) (rest : Path) (k : Key) (ks : List Key) :
    (Path.key text rest).Selects (k :: ks) ↔ segmentSelects text k ∧ rest.Selects ks := by
  rw [Selects]

theorem not_selects_key_nil (text : String) (rest : Path) : ¬(Path.key text rest).Selects [] := by
  simp [Selects]

/-- A path of literal keys selects the list of its keys alone. -/
theorem selects_ofKeys (texts : List String) (h : wildcard ∉ texts) (ks : List Key) :
    (ofKeys texts).Selects ks ↔ ks = texts.map Key.ofText := by
  induction texts generalizing ks with
  | nil => rfl
  | cons text rest ih =>
      simp only [List.mem_cons, not_or] at h
      cases ks with
      | nil => simp [ofKeys, Selects]
      | cons k ks =>
          rw [ofKeys, selects_key_cons, ih h.2]
          simp [segmentSelects, Ne.symm h.1]

end Path

end Quill
