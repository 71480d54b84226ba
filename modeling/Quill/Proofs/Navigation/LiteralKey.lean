import Mathlib.Data.List.Infix
import Quill.Proofs.Navigation.Answers
import Quill.Proofs.Reading.Rendering

/-!
# Addressing a literal key

A key with a backslash before each character that would end or split it is an expression that
denotes that key alone, so every operation along it is one operation on the entries of the tree.
The one exception is the key `*`.  Its backslash is dropped when the expression is read, the key
text that is left is the wildcard's, and the walk takes it for every key.
-/

namespace Quill

namespace Path

variable {separator : Char} {k : String}

theorem mem_escape (separator : Char) {c : Char} {s : List Char} (hc : c ∈ s) :
    c ∈ escape separator s := by
  induction s with
  | nil => cases hc
  | cons d rest ih =>
      unfold escape
      rcases List.mem_cons.mp hc with rfl | hc
      · split <;> simp
      · split <;> simp [ih hc]

/-- A plain key has neither a separator nor a reserved character in it. -/
theorem not_mem_of_isPlainKey {s : List Char}
    (h : isPlainKey (String.singleton separator) (String.ofList s) = true) :
    separator ∉ s ∧ ∀ c ∈ s, c ∉ reserved := by
  obtain ⟨_, hsep, hreserved⟩ := (isPlainKey_iff _ _).mp h
  rw [String.toList_ofList] at hsep hreserved
  refine ⟨?_, hreserved⟩
  rw [String.toList_singleton, List.singleton_infix_iff] at hsep
  exact hsep.resolve_left (List.cons_ne_nil _ _)

/-- A written key that is plain has nothing to escape. -/
theorem escape_eq_self_of_isPlainKey {s : List Char}
    (h : isPlainKey (String.singleton separator) (String.ofList (escape separator s)) = true) :
    escape separator s = s := by
  obtain ⟨hsep, hreserved⟩ := not_mem_of_isPlainKey h
  apply escape_of_plain
  intro c hc
  have hmem := mem_escape separator hc
  rw [← Bool.not_eq_true, needsEscape_iff, not_or]
  constructor
  · rintro rfl
    exact hsep hmem
  · exact hreserved c hmem

theorem ofText_escape (h : IsSeparator separator) (hk : IsKeyText k.toList) :
    ofText (String.singleton separator) (String.ofList (escape separator k.toList)) =
      .ok (.key k .nil) := by
  have hscan : scan (String.singleton separator).toList
      (String.ofList (escape separator k.toList)).toList = keyTokens separator k.toList := by
    simpa using (spelled_key h hk.2.2).scan_eq
  have hderives : Derives false (keyTokens separator k.toList) (.key k .nil) := by
    rw [← ofKeyTokens_keyTokens hk]
    exact .last (.text (isText_keyTokens separator false k.toList))
  rw [ofText, hscan, (ofTokens_eq_ok_iff _ _).mpr hderives]
  rfl

end Path

namespace Navigator

open Quill.Path Navigation

variable {separator : Char} {k : String}

/-- The expression of a key denotes the key, whether it is read or taken as it stands. -/
theorem denote_escape (h : IsSeparator separator) (hk : IsKeyText k.toList) (allowEmpty : Bool) :
    denote (.text (String.ofList (escape separator k.toList))) (String.singleton separator)
      allowEmpty = .ok (.key k .nil) := by
  have hread : readText (String.singleton separator)
      (String.ofList (escape separator k.toList)) = .ok (.key k .nil) := by
    unfold readText
    by_cases hplain : isPlainKey (String.singleton separator)
        (String.ofList (escape separator k.toList)) = true
    · rw [if_pos hplain, escape_eq_self_of_isPlainKey hplain, String.ofList_toList]
    · rw [if_neg hplain]
      exact ofText_escape h hk
  have hsome : (String.ofList (escape separator k.toList)).isEmpty = false := by
    obtain ⟨c, hc⟩ := List.exists_mem_of_ne_nil _ hk.1
    have hmem := mem_escape separator hc
    rw [← Bool.not_eq_true, String.isEmpty_iff]
    intro hempty
    rw [← String.toList_inj, String.toList_ofList] at hempty
    rw [hempty] at hmem
    cases hmem
  show readWhole _ _ allowEmpty = _
  unfold readWhole
  rw [hsome, if_neg Bool.false_ne_true, hread]
  rfl

/-- An escaped key that is not `*` is addressed literally: its expression tells whether the tree has
the key, reads what lies under it, sets that key and no other, and removes that key and no other. -/
theorem escaped_addresses_key (h : IsSeparator separator) (hk : IsKeyText k.toList)
    (hwild : k ≠ wildcard) {n : Navigator} (hn : n.cache.IsSound) (own : Option String)
    (hown : own.getD n.separator = String.singleton separator) (t : Tree) :
    let e := Locator.text (String.ofList (escape separator k.toList))
    ((has t e own).on n).1 = .ok (t.contains (.ofText k)) ∧
      (∀ default, ((get t e default own).on n).1 = .ok ((t.get? (.ofText k)).getD default)) ∧
      (∀ v, ((set t e v own).on n).1 = .ok (t.insert (.ofText k) v)) ∧
      ∀ keepEmpty, ((remove t e keepEmpty own).on n).1 = .ok (t.erase (.ofText k)) := by
  intro e
  have hdenote : denote e (own.getD n.separator) false = .ok (.key k .nil) := by
    rw [hown]
    exact denote_escape h hk false
  refine ⟨?_, fun default => ?_, fun v => ?_, fun keepEmpty => ?_⟩
  · rw [has_on hn, hdenote]
    exact congrArg Except.ok (has_last hwild t)
  · rw [get_on hn, hdenote]
    -- Nothing is parsed for the empty tree, and it has no key either.
    cases t with
    | nil => rfl
    | cons k' v others => exact congrArg Except.ok (get_last hwild _ default)
  · rw [set_on hn, hdenote]
    exact congrArg Except.ok (set_last hwild t v)
  · rw [remove_on hn, hdenote]
    exact congrArg Except.ok (remove_last hwild t keepEmpty)

theorem escaped_addresses_key_commaAndStar :
    let e := Locator.text "a\\.b\\,\\*"
    let t := Tree.cons (.name "a.b,*") (.int 1) (.cons (.name "a") (.int 2) .nil)
    IsSeparator '.' ∧ IsKeyText "a.b,*".toList ∧ "a.b,*" ≠ wildcard ∧
      ((has t e none).on (fresh "." 1)).1 = .ok true ∧
      ((get t e .null none).on (fresh "." 1)).1 = .ok (.int 1) ∧
      ((set t e .null none).on (fresh "." 1)).1 =
        .ok (.cons (.name "a.b,*") .null (.cons (.name "a") (.int 2) .nil)) ∧
      ((remove t e false none).on (fresh "." 1)).1 = .ok (.cons (.name "a") (.int 2) .nil) := by
  intro e t
  have h : IsSeparator '.' := by decide
  have hk : IsKeyText "a.b,*".toList := by decide
  have hwild : "a.b,*" ≠ wildcard := by decide
  have hn : (fresh "." 1).cache.IsSound := Cache.isSound_ofCapacity 1
  obtain ⟨hhas, hget, hset, hremove⟩ :=
    escaped_addresses_key h hk hwild hn none rfl t
  exact ⟨h, hk, hwild, hhas, hget .null, hset .null, hremove false⟩

/-- The key `*` is not addressed: its expression is found in a tree without that key, and removing
along it takes other keys away. -/
theorem escaped_wildcard_not_literal :
    let e := Locator.text (String.ofList (escape '.' "*".toList))
    let t := Tree.cons (.name "a") (.int 1) .nil
    IsSeparator '.' ∧ IsKeyText "*".toList ∧ '\\' ∉ "*".toList ∧
      t.contains (.ofText "*") = false ∧ ((has t e none).on (fresh "." 1)).1 = .ok true ∧
      t.erase (.ofText "*") = t ∧ ((remove t e false none).on (fresh "." 1)).1 = .ok .nil := by
  have hn : (fresh "." 1).cache.IsSound := Cache.isSound_ofCapacity 1
  have hdenote : denote (.text (String.ofList (escape '.' "*".toList))) "." false =
      .ok (.key wildcard .nil) :=
    denote_escape (show IsSeparator '.' by decide) (by decide) false
  intro e t
  refine ⟨by decide, by decide, by decide, by decide, ?_, by decide, ?_⟩
  · rw [has_on hn t e none]
    exact congrArg (Except.map _) hdenote
  · rw [remove_on hn t e none]
    exact congrArg (Except.map _) hdenote

end Navigator

end Quill
