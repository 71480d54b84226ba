import Quill.Proofs.Navigation.Steady
import Quill.Proofs.Reading.PlainKey
import Quill.Proofs.Walk.Step

/-!
# What the operations answer

A locator denotes a path, or an error, by its text and the separator alone.  On a navigator with a
sound cache every operation answers what the walk of its kind finds along that path.  The short way
for plain keys is no exception: a plain key is not the wildcard, and a walk along a single literal
key is one operation on the entries of the tree.  It is part of the notation, though, that a plain
key keeps the white space at its ends, which reading would drop.
-/

namespace Quill.Navigator

open Navigation

/-- The path that a locator denotes. -/
def denote (l : Locator) (separator : String) (allowEmpty : Bool) : Except PathError Path :=
  match l with
  | .parsed p => checkEmpty "" allowEmpty p
  | .text s => readWhole s separator allowEmpty
  | .number i => readWhole (Value.int i).text separator allowEmpty

theorem parse_on (l : Locator) (separator : String) (allowEmpty : Bool) {n : Navigator}
    (hn : n.cache.IsSound) :
    ((parse l separator allowEmpty).on n).1 = denote l separator allowEmpty := by
  cases l with
  | text s => exact (parseText_on s separator allowEmpty hn).1
  | number i => exact (parseText_on _ separator allowEmpty hn).1
  | parsed p =>
      show ((liftM (checkEmpty "" allowEmpty p) : Navigation Path).on n).1 = _
      rw [on_liftM]
      rfl

/-- A plain key is an expression for itself. -/
theorem denote_of_isPlainKey {separator s : String} (h : Path.isPlainKey separator s = true)
    (allowEmpty : Bool) : denote (.text s) separator allowEmpty = .ok (.key s .nil) := by
  have hne : ¬s.isEmpty = true := by
    rw [String.isEmpty_iff, ← String.toList_eq_nil_iff]
    exact ((Path.isPlainKey_iff separator s).mp h).1
  show readWhole s separator allowEmpty = _
  rw [readWhole, if_neg hne, readText, if_pos h]
  rfl

/-- The wildcard is a reserved character, and no plain key has one. -/
theorem ne_wildcard_of_isPlainKey {separator s : String} (h : Path.isPlainKey separator s = true) :
    s ≠ Path.wildcard := by
  have hreserved := ((Path.isPlainKey_iff separator s).mp h).2.2
  rintro rfl
  simp [Path.wildcard, Path.reserved] at hreserved

/-- What the short way takes for a plain key denotes the key, and it is not the wildcard. -/
theorem denote_of_plainKey? {l : Locator} {separator : String} {k : Key}
    (h : plainKey? l separator = some k) (allowEmpty : Bool) :
    ∃ s, k = .ofText s ∧ s ≠ Path.wildcard ∧ denote l separator allowEmpty = .ok (.key s .nil) := by
  cases l with
  | number i => cases h
  | parsed p => cases h
  | text s =>
      simp only [plainKey?] at h
      by_cases hplain : Path.isPlainKey separator s = true
      · rw [if_pos hplain, Option.some.injEq] at h
        exact ⟨s, h.symm, ne_wildcard_of_isPlainKey hplain, denote_of_isPlainKey hplain allowEmpty⟩
      · rw [if_neg hplain] at h
        cases h

/-- Reading a plain key and taking it as it stands differ in the white space at its ends and in
nothing else.  Reading succeeds and drops it, down to the empty path where nothing is left; so the
two answer the same exactly when there is none. -/
theorem parse_eq_ofText_iff {separator s : String} (h : Path.isPlainKey separator s = true)
    {n : Navigator} (hn : n.cache.IsSound) (allowEmpty : Bool) :
    (∃ core, Text.IsTrimOf Text.isBlank core s.toList ∧
      Path.ofText separator s =
        .ok (if core = [] then .nil else .key (String.ofList core) .nil)) ∧
    ((parse (.text s) separator allowEmpty).on n).1 = .ok (.key s .nil) ∧
    (((parse (.text s) separator allowEmpty).on n).1 = Path.ofText separator s ↔
      Text.IsBare Text.isBlank s.toList) := by
  obtain ⟨hne, hplain⟩ := (Path.isPlainKey_iff separator s).mp h
  have hread := hplain.ofText_eq
  have hparse : ((parse (.text s) separator allowEmpty).on n).1 = .ok (.key s .nil) := by
    rw [parse_on _ _ _ hn, denote_of_isPlainKey h]
  refine ⟨⟨Text.trim s.toList, Text.isTrimOf_trimBy _ _, hread⟩, hparse, ?_⟩
  -- Both answers are known now; they are the same key exactly when trimming drops nothing.
  rw [hparse, hread, ← Text.trimBy_eq_self_iff]
  constructor
  · intro heq
    by_cases hnone : Text.trim s.toList = []
    · simp [hnone] at heq
    · simp only [hnone, if_false, Except.ok.injEq, Path.key.injEq, and_true] at heq
      have hkeep := congrArg String.toList heq
      rw [String.toList_ofList] at hkeep
      exact hkeep.symm
  · intro hkeep
    change Text.trim s.toList = s.toList at hkeep
    rw [hkeep, if_neg hne, String.ofList_toList]

theorem parse_eq_ofText_iff_blankSample :
    let s := " \\a:b\u3000"
    Path.isPlainKey "::" s = true ∧
      ((parse (.text s) "::" false).on (fresh "::" 1)).1 = .ok (.key s .nil) ∧
      Path.ofText "::" s = .ok (.key "\\a:b" .nil) ∧
      ((parse (.text s) "::" false).on (fresh "::" 1)).1 ≠ Path.ofText "::" s := by
  have hread : Path.ofText "::" " \\a:b\u3000" = .ok (.key "\\a:b" .nil) := rfl
  intro s
  have h : Path.isPlainKey "::" s = true := by decide
  have hn : (fresh "::" 1).cache.IsSound := Cache.isSound_ofCapacity 1
  obtain ⟨_, hparse, hiff⟩ := parse_eq_ofText_iff h hn false
  refine ⟨h, hparse, hread, fun heq => ?_⟩
  have hfirst := (hiff.mp heq).1 ' ' (by decide)
  revert hfirst
  decide

/-- An operation that takes the short way for a plain key answers what its walk answers, if the two
agree on single literal keys. -/
theorem plainOr_on {α : Type} (l : Locator) (separator : String) {plain : Key → α} {walk : Path → α}
    (hagree : ∀ s, s ≠ Path.wildcard → plain (.ofText s) = walk (.key s .nil)) {n : Navigator}
    (hn : n.cache.IsSound) :
    ((match plainKey? l separator with
      | some k => pure (plain k)
      | none => do return walk (← parse l separator false) : Navigation α).on n).1 =
        (denote l separator false).map walk := by
  cases hplain : plainKey? l separator with
  | some k =>
      obtain ⟨s, rfl, hs, hdenote⟩ := denote_of_plainKey? hplain false
      rw [hdenote]
      exact congrArg Except.ok (hagree s hs)
  | none =>
      have hparse := parse_on l separator false hn
      rw [on_bind]
      cases hon : (parse l separator false).on n with
      | mk r after =>
          rw [hon] at hparse
          rw [← hparse]
          cases r with
          | ok p => rfl
          | error e => rfl

section Operations

variable {n : Navigator} (hn : n.cache.IsSound) (t : Tree) (l : Locator) (own : Option String)

include hn

theorem has_on : ((has t l own).on n).1 =
    (denote l (own.getD n.separator) false).map (·.has t) := by
  unfold has
  rw [on_bind]
  exact plainOr_on l _ (fun s hs => (Path.has_last hs t).symm) hn

/-- Nothing is parsed for the empty tree, so an expression that is no path goes unnoticed there. -/
theorem get_on (default : Value) : ((get t l default own).on n).1 =
    if t.isEmpty then .ok default
    else (denote l (own.getD n.separator) false).map (·.get default false t) := by
  unfold get
  rw [on_bind]
  show ((if t.isEmpty then pure default else _ : Navigation Value).on n).1 = _
  by_cases ht : t.isEmpty = true
  · rw [if_pos ht, if_pos ht]
    rfl
  · rw [if_neg ht, if_neg ht]
    exact plainOr_on l _ (fun s hs => (Path.get_last hs t default).symm) hn

theorem set_on (value : Value) : ((set t l value own).on n).1 =
    (denote l (own.getD n.separator) false).map (·.set value t) := by
  unfold set
  rw [on_bind]
  exact plainOr_on l _ (fun s hs => (Path.set_last hs t value).symm) hn

theorem remove_on (keepEmpty : Bool) : ((remove t l keepEmpty own).on n).1 =
    (denote l (own.getD n.separator) false).map (·.remove keepEmpty t) := by
  unfold remove
  rw [on_bind]
  exact plainOr_on l _ (fun s hs => (Path.remove_last hs t keepEmpty).symm) hn

end Operations

/-! ### The short way for plain keys -/

/-- The short way asks nothing of the navigator and leaves it as it is. -/
theorem plainOr_on_plainKey {α : Type} {separator s : String}
    (h : Path.isPlainKey separator s = true) (plain : Key → α) (walk : Path → α) (n : Navigator) :
    (match plainKey? (.text s) separator with
      | some k => pure (plain k)
      | none => do return walk (← parse (.text s) separator false) : Navigation α).on n =
        (.ok (plain (.ofText s)), n) := by
  have hplain : plainKey? (.text s) separator = some (.ofText s) := if_pos h
  rw [hplain]
  rfl

/-- The short way for a plain key shows in no answer.  Whatever the navigator has in its cache,
sound or not, each operation answers what the walk of its kind finds along the path that parsing the
key without a cache gives, and it leaves the navigator as it was. -/
theorem plainKey_answers_walk {s : String} {own : Option String} {n : Navigator}
    (h : Path.isPlainKey (own.getD n.separator) s = true) (t : Tree) :
    ∃ p, ((parse (.text s) (own.getD n.separator) false).on (fresh n.separator 0)).1 = .ok p ∧
      (has t (.text s) own).on n = (.ok (p.has t), n) ∧
      (∀ default, (get t (.text s) default own).on n = (.ok (p.get default false t), n)) ∧
      (∀ v, (set t (.text s) v own).on n = (.ok (p.set v t), n)) ∧
      ∀ keepEmpty, (remove t (.text s) keepEmpty own).on n = (.ok (p.remove keepEmpty t), n) := by
  have hparse : ((parse (.text s) (own.getD n.separator) false).on (fresh n.separator 0)).1 =
      .ok (.key s .nil) := by
    rw [parse_on _ _ _ (Cache.isSound_ofCapacity 0), denote_of_isPlainKey h]
  have hs : s ≠ Path.wildcard := ne_wildcard_of_isPlainKey h
  refine ⟨.key s .nil, hparse, ?_, fun default => ?_, fun v => ?_, fun keepEmpty => ?_⟩
  · unfold has
    rw [on_bind]
    refine (plainOr_on_plainKey h _ _ n).trans ?_
    rw [Path.has_last hs]
  · unfold get
    rw [on_bind]
    show (if t.isEmpty then pure default else _ : Navigation Value).on n = _
    -- For the empty tree the walk finds no key, and the default is all there is to answer.
    cases t with
    | nil =>
        rw [Path.get_last hs]
        rfl
    | cons k w others =>
        refine (plainOr_on_plainKey h _ _ n).trans ?_
        rw [Path.get_last hs]
  · unfold set
    rw [on_bind]
    refine (plainOr_on_plainKey h _ _ n).trans ?_
    rw [Path.set_last hs]
  · unfold remove
    rw [on_bind]
    refine (plainOr_on_plainKey h _ _ n).trans ?_
    rw [Path.remove_last hs]

/-- An index among the keys, and a cache that keeps another path under its text. -/
theorem plainKey_answers_walk_forgedEntry :
    let n : Navigator := ⟨".", ⟨1, [(⟨"-7", "."⟩, .key "a" .nil)]⟩⟩
    let p := Path.key "-7" .nil
    let t := Tree.cons (.name "a") .null
      (.cons (.index (-7)) (.int 1) (.cons (.name "b") .null .nil))
    Path.isPlainKey "." "-7" = true ∧ p.get .unset false t = .int 1 ∧
      (has t (.text "-7") none).on n = (.ok (p.has t), n) ∧
      (get t (.text "-7") .unset none).on n = (.ok (p.get .unset false t), n) ∧
      (set t (.text "-7") .unset none).on n = (.ok (p.set .unset t), n) ∧
      (remove t (.text "-7") false none).on n = (.ok (p.remove false t), n) := by
  intro n p t
  have h : Path.isPlainKey "." "-7" = true := by decide
  have hparsed : ((parse (.text "-7") "." false).on (fresh "." 0)).1 = .ok p := rfl
  obtain ⟨q, hparse, hhas, hget, hset, hremove⟩ :=
    @plainKey_answers_walk "-7" none n h t
  obtain rfl : p = q := Except.ok.inj (hparsed.symm.trans hparse)
  exact ⟨h, rfl, hhas, hget .unset, hset .unset, hremove false⟩

end Quill.Navigator
