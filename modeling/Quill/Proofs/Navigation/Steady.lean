import Quill.Listing
import Quill.Tree.Lemmas

/-!
# Operations that do not depend on the cache

A cache is sound when every entry is the path that its own expression denotes, read with its own
separator, and neither the expression nor the path is empty.  An operation is steady when it
answers alike on all sound navigators with one separator and leaves a sound navigator with that
separator behind.

Parsing is the only operation that looks into the cache, and it is steady because a sound cache
answers what reading the expression answers.  Everything else is built from parsing, and steadiness
goes through sequencing, so every operation of a navigator is steady.
-/

namespace Quill

/-- What an operation answers on a navigator, and the navigator it leaves behind. -/
def Navigation.on {α : Type} (m : Navigation α) (n : Navigator) :
    Except PathError α × Navigator :=
  m.run.run n

/-- An entry of a cache holds the non-empty path of its own expression and separator. -/
def Cache.IsReading (e : CacheKey × Path) : Prop :=
  e.1.path ≠ "" ∧ e.2.isNil = false ∧ Navigator.readText e.1.separator e.1.path = .ok e.2

/-- Every entry of a cache is what reading its expression answers. -/
def Cache.IsSound (c : Cache) : Prop :=
  ∀ e ∈ c.entries, Cache.IsReading e

/-- An operation answers alike on sound navigators with one separator, and keeps them so. -/
def Navigation.IsSteady {α : Type} (m : Navigation α) : Prop :=
  ∀ n n' : Navigator, n.cache.IsSound → n'.cache.IsSound → n.separator = n'.separator →
    (m.on n).1 = (m.on n').1 ∧ (m.on n).2.cache.IsSound ∧ (m.on n).2.separator = n.separator

namespace Cache

/-! ### Sound caches -/

theorem isSound_ofCapacity (capacity : Nat) : (ofCapacity capacity).IsSound := by
  intro e he
  simp [ofCapacity] at he

theorem isSound_clear (c : Cache) : c.clear.IsSound := by
  intro e he
  simp [clear] at he

/-- A path found under a key is an entry with that key. -/
theorem mem_of_find? {c : Cache} {key : CacheKey} {p : Path} (h : c.find? key = some p) :
    (key, p) ∈ c.entries := by
  unfold find? at h
  cases hf : c.entries.find? (·.1 = key) with
  | none => simp [hf] at h
  | some e =>
      have hmem : e ∈ c.entries := List.mem_of_find?_eq_some hf
      have hkey : e.1 = key := by simpa using List.find?_some hf
      have hpath : e.2 = p := by simpa [hf] using h
      rw [← hkey, ← hpath]
      exact hmem

theorem mem_entries_of_mem_without {c : Cache} {key : CacheKey} {e : CacheKey × Path}
    (h : e ∈ c.without key) : e ∈ c.entries :=
  (List.mem_filter.mp h).1

theorem get_fst (c : Cache) (key : CacheKey) : (c.get key).1 = c.find? key := by
  unfold Cache.get
  cases c.find? key with
  | none => rfl
  | some p => rfl

theorem get_snd_of_miss {c : Cache} {key : CacheKey} (h : c.find? key = none) :
    (c.get key).2 = c := by
  unfold Cache.get
  rw [h]

/-- A look-up moves an entry and adds none. -/
theorem IsSound.get {c : Cache} (h : c.IsSound) (key : CacheKey) : (c.get key).2.IsSound := by
  unfold Cache.get
  cases hf : c.find? key with
  | none => exact h
  | some p =>
      intro e he
      rcases List.mem_append.mp he with he | he
      · exact h e (mem_entries_of_mem_without he)
      · rw [List.mem_singleton] at he
        rw [he]
        exact h _ (mem_of_find? hf)

/-- Insertion adds one entry and drops others. -/
theorem IsSound.insert {c : Cache} (h : c.IsSound) {key : CacheKey} {p : Path}
    (hp : IsReading (key, p)) : (c.insert key p).IsSound := by
  intro e he
  have he : e ∈ c.without key ++ [(key, p)] := List.mem_of_mem_drop he
  rcases List.mem_append.mp he with he | he
  · exact h e (mem_entries_of_mem_without he)
  · rw [List.mem_singleton] at he
    rw [he]
    exact hp

end Cache

namespace Navigation

variable {α β : Type}

/-! ### Sequencing -/

theorem on_bind (m : Navigation α) (f : α → Navigation β) (n : Navigator) :
    (m >>= f).on n =
      match m.on n with
      | (.ok a, n') => (f a).on n'
      | (.error e, n') => (.error e, n') := by
  unfold on
  rw [ExceptT.run_bind, StateT.run_bind]
  cases hm : m.run.run n with
  | mk r n' =>
      cases r with
      | ok a => rfl
      | error e => rfl

/-- Two operations one after the other succeed when both do, the second on what the first left. -/
theorem on_bind_eq_ok_iff (m : Navigation α) (f : α → Navigation β) (n : Navigator) (b : β) :
    ((m >>= f).on n).1 = .ok b ↔
      ∃ a, (m.on n).1 = .ok a ∧ ((f a).on (m.on n).2).1 = .ok b := by
  rw [on_bind]
  cases m.on n with
  | mk r after =>
      cases r with
      | ok a => simp
      | error e => simp

theorem on_liftM (r : Except PathError α) (n : Navigator) :
    (liftM r : Navigation α).on n = (r, n) := by
  cases r with
  | ok a => rfl
  | error e => rfl

theorem isSteady_pure (a : α) : IsSteady (pure a : Navigation α) := by
  intro n n' hn _ _
  exact ⟨rfl, hn, rfl⟩

theorem isSteady_ofExcept (r : Except PathError α) : IsSteady (liftM r : Navigation α) := by
  intro n n' hn _ _
  rw [on_liftM, on_liftM]
  exact ⟨rfl, hn, rfl⟩

/-- Steady operations one after the other are steady. -/
theorem IsSteady.bind {m : Navigation α} {f : α → Navigation β} (hm : m.IsSteady)
    (hf : ∀ a, (f a).IsSteady) : (m >>= f).IsSteady := by
  intro n n' hn hn' hsep
  obtain ⟨hanswer, hsound, hkept⟩ := hm n n' hn hn' hsep
  -- The other way round as well: what follows is compared on the navigators both have left.
  obtain ⟨_, hsound', hkept'⟩ := hm n' n hn' hn hsep.symm
  rw [on_bind, on_bind]
  cases h : m.on n with
  | mk r after =>
      cases h' : m.on n' with
      | mk r' after' =>
          simp only [h, h'] at hanswer hsound hkept hsound' hkept'
          subst hanswer
          cases r with
          | error e => exact ⟨rfl, hsound, hkept⟩
          | ok a =>
              obtain ⟨h₁, h₂, h₃⟩ :=
                hf a after after' hsound hsound' (hkept.trans (hsep.trans hkept'.symm))
              exact ⟨h₁, h₂, h₃.trans hkept⟩

/-- What follows a steady operation that succeeds runs on a sound navigator with the same
separator. -/
theorem IsSteady.on_bind_of_ok {m : Navigation α} (hm : m.IsSteady) {n : Navigator}
    (hn : n.cache.IsSound) {a : α} (ha : (m.on n).1 = .ok a) (f : α → Navigation β) :
    ∃ after : Navigator, after.cache.IsSound ∧ after.separator = n.separator ∧
      (m >>= f).on n = (f a).on after := by
  obtain ⟨_, hsound, hkept⟩ := hm n n hn hn rfl
  refine ⟨(m.on n).2, hsound, hkept, ?_⟩
  rw [on_bind]
  cases h : m.on n with
  | mk r after =>
      rw [h] at ha
      have hr : r = .ok a := ha
      rw [hr]

theorem isSteady_ite {c : Prop} [Decidable c] {m m' : Navigation α} (h : m.IsSteady)
    (h' : m'.IsSteady) : (if c then m else m').IsSteady := by
  by_cases hc : c
  · rw [if_pos hc]
    exact h
  · rw [if_neg hc]
    exact h'

end Navigation

namespace Navigator

open Navigation

/-! ### Parsing -/

/-- The answer to an expression without any cache. -/
def readWhole (s separator : String) (allowEmpty : Bool) : Except PathError Path :=
  if s.isEmpty then checkEmpty s allowEmpty .nil
  else (readText separator s).bind (checkEmpty s allowEmpty)

theorem checkEmpty_of_ne_nil (s : String) (allowEmpty : Bool) {p : Path} (h : p.isNil = false) :
    checkEmpty s allowEmpty p = .ok p := by
  simp [checkEmpty, h]

/-- A path that is not empty passes the check, and it is the only one that the check answers with
itself. -/
theorem checkEmpty_eq_ok_iff (s : String) (allowEmpty : Bool) {p : Path} (hp : p.isNil = false)
    (q : Path) : checkEmpty s allowEmpty q = .ok p ↔ q = p := by
  constructor
  · intro h
    unfold checkEmpty at h
    split at h
    · cases h
    · exact Except.ok.inj h
  · rintro rfl
    exact checkEmpty_of_ne_nil s allowEmpty hp

/-- A path that is not empty is the reading of the expression, whether or not the empty path is
allowed. -/
theorem readWhole_eq_ok_iff (s separator : String) (allowEmpty : Bool) {p : Path}
    (hp : p.isNil = false) :
    readWhole s separator allowEmpty = .ok p ↔
      s.isEmpty = false ∧ readText separator s = .ok p := by
  unfold readWhole
  by_cases hempty : s.isEmpty = true
  · rw [if_pos hempty, checkEmpty_eq_ok_iff s allowEmpty hp, hempty]
    constructor
    · rintro rfl
      cases hp
    · rintro ⟨h, _⟩
      cases h
  · rw [if_neg hempty]
    rw [Bool.not_eq_true] at hempty
    cases hread : readText separator s with
    | error e => simp [Except.bind]
    | ok q => simpa [Except.bind, hempty] using checkEmpty_eq_ok_iff s allowEmpty hp q

theorem on_lookUp (key : CacheKey) (n : Navigator) :
    (lookUp key).on n = (.ok (n.cache.get key).1, { n with cache := (n.cache.get key).2 }) := rfl

/-- On a sound cache parsing answers what reading answers.  What it adds to the cache is a
reading, so a sound cache stays sound, and an expression that fails or comes out empty leaves
nothing behind. -/
theorem parseText_on (s separator : String) (allowEmpty : Bool) {n : Navigator}
    (hn : n.cache.IsSound) :
    ((parseText s separator allowEmpty).on n).1 = readWhole s separator allowEmpty ∧
      ((parseText s separator allowEmpty).on n).2.cache.IsSound ∧
      ((parseText s separator allowEmpty).on n).2.separator = n.separator := by
  unfold parseText readWhole
  by_cases hs : s.isEmpty = true
  · rw [if_pos hs, if_pos hs, on_liftM]
    exact ⟨rfl, hn, rfl⟩
  · rw [if_neg hs, if_neg hs]
    have hsound := hn.get ⟨s, separator⟩
    simp only [on_bind, on_lookUp, Cache.get_fst]
    cases hfind : n.cache.find? ⟨s, separator⟩ with
    | some p =>
        -- The entry is the reading of this very expression, and not empty: no check is left out.
        obtain ⟨_, hne, hread⟩ := hn _ (Cache.mem_of_find? hfind)
        have hread : readText separator s = .ok p := hread
        have hcheck := checkEmpty_of_ne_nil s allowEmpty hne
        rw [hread]
        exact ⟨hcheck.symm, hsound, rfl⟩
    | none =>
        rw [Cache.get_snd_of_miss hfind]
        cases hread : readText separator s with
        | error e => exact ⟨rfl, hn, rfl⟩
        | ok p =>
            simp only [on_bind, on_liftM, Except.bind]
            cases hne : p.isNil with
            | true => exact ⟨rfl, hn, rfl⟩
            | false =>
                -- Only here something is inserted: the reading succeeded and is not empty.
                have hreading : Cache.IsReading (⟨s, separator⟩, p) :=
                  ⟨fun h => hs (by simp [show s = "" from h]), hne, hread⟩
                have hcheck := checkEmpty_of_ne_nil s allowEmpty hne
                exact ⟨hcheck.symm, hn.insert hreading, rfl⟩

theorem isSteady_parseText (s separator : String) (allowEmpty : Bool) :
    (parseText s separator allowEmpty).IsSteady := by
  intro n n' hn hn' _
  obtain ⟨hanswer, hsound, hkept⟩ := parseText_on s separator allowEmpty hn
  obtain ⟨hanswer', _, _⟩ := parseText_on s separator allowEmpty hn'
  exact ⟨hanswer.trans hanswer'.symm, hsound, hkept⟩

theorem isSteady_parse (l : Locator) (separator : String) (allowEmpty : Bool) :
    (parse l separator allowEmpty).IsSteady := by
  cases l with
  | text s => exact isSteady_parseText s separator allowEmpty
  | number i => exact isSteady_parseText _ separator allowEmpty
  | parsed p => exact isSteady_ofExcept _

/-! ### Walking -/

theorem isSteady_separatorOr (own : Option String) : (separatorOr own).IsSteady := by
  intro n n' hn _ hsep
  refine ⟨?_, hn, rfl⟩
  change Except.ok (own.getD n.separator) = Except.ok (own.getD n'.separator)
  rw [hsep]

/-- An operation that takes the short way for a plain key and parses everything else. -/
theorem isSteady_plainOr {α : Type} (l : Locator) (separator : String) (plain : Key → α)
    (walk : Path → α) :
    (match plainKey? l separator with
      | some k => pure (plain k)
      | none => do return walk (← parse l separator false) : Navigation α).IsSteady := by
  cases plainKey? l separator with
  | some k => exact isSteady_pure _
  | none => exact (isSteady_parse l separator false).bind fun p => isSteady_pure _

theorem isSteady_has (t : Tree) (l : Locator) (separator : Option String) :
    (has t l separator).IsSteady :=
  (isSteady_separatorOr separator).bind fun _ => isSteady_plainOr l _ _ _

theorem isSteady_get (t : Tree) (l : Locator) (default : Value) (separator : Option String) :
    (get t l default separator).IsSteady :=
  (isSteady_separatorOr separator).bind fun _ =>
    isSteady_ite (isSteady_pure _) (isSteady_plainOr l _ _ _)

theorem isSteady_set (t : Tree) (l : Locator) (value : Value) (separator : Option String) :
    (set t l value separator).IsSteady :=
  (isSteady_separatorOr separator).bind fun _ => isSteady_plainOr l _ _ _

theorem isSteady_remove (t : Tree) (l : Locator) (keepEmpty : Bool) (separator : Option String) :
    (remove t l keepEmpty separator).IsSteady :=
  (isSteady_separatorOr separator).bind fun _ => isSteady_plainOr l _ _ _

theorem isSteady_filter {σ : Type} (t : Tree) (l : Locator) (f : Callback σ) (s : σ)
    (separator : Option String) : (filter t l f s separator).IsSteady :=
  (isSteady_separatorOr separator).bind fun _ =>
    (isSteady_parse l _ false).bind fun _ => isSteady_pure _

theorem isSteady_concat (a b : Locator) (separatorA separatorB : Option String) :
    (concat a b separatorA separatorB).IsSteady :=
  (isSteady_separatorOr separatorA).bind fun _ =>
    (isSteady_parse a _ true).bind fun _ =>
      (isSteady_parse b _ true).bind fun _ => isSteady_pure _

theorem isSteady_unflattenInto (out t : Tree) : (unflattenInto out t).IsSteady := by
  induction t generalizing out with
  | nil => exact isSteady_pure out
  | cons key value rest ih => exact (isSteady_set out _ value none).bind fun out => ih out

theorem isSteady_unflatten (t : Tree) : (unflatten t).IsSteady :=
  isSteady_unflattenInto .nil t

theorem isSteady_without (t : Tree) (keepEmpty : Bool) (ls : List Locator) :
    (without t keepEmpty ls).IsSteady := by
  induction ls generalizing t with
  | nil => exact isSteady_pure t
  | cons l rest ih => exact (isSteady_remove t l keepEmpty none).bind fun t => ih t

end Navigator

namespace Listing

open Navigation Navigator

/-! ### Listing -/

theorem isSteady_column (separator specifier : String) : (column separator specifier).IsSteady := by
  unfold column
  exact isSteady_ite
    ((isSteady_parse _ separator true).bind fun _ => isSteady_pure _) (isSteady_pure _)

theorem isSteady_columns (separator : String) (specifiers : List String) :
    (columns separator specifiers).IsSteady := by
  induction specifiers with
  | nil => exact isSteady_pure _
  | cons specifier rest ih =>
      exact (isSteady_column separator specifier).bind fun _ => ih.bind fun _ => isSteady_pure _

theorem isSteady_placeRows (separator name : String) (result rows : Tree) :
    (placeRows separator name result rows).IsSteady := by
  induction rows generalizing result with
  | nil => exact isSteady_pure result
  | cons key row rest ih =>
      cases row with
      | map row => exact (isSteady_get row _ _ _).bind fun _ => ih _
      | _ => exact ih result

theorem isSteady_cell (plan : Plan) (row : Tree) (c : Column) : (cell plan row c).IsSteady :=
  isSteady_ite (isSteady_get row _ _ _) (isSteady_pure _)

theorem isSteady_readRow (plan : Plan) (row : Tree) (cs : List Column) (r : Row) :
    (readRow plan row cs r).IsSteady := by
  induction cs generalizing r with
  | nil => exact isSteady_pure r
  | cons c rest ih =>
      refine (isSteady_cell plan row c).bind fun v => ?_
      exact isSteady_ite (ih _) (isSteady_ite (isSteady_pure _) (ih _))

theorem isSteady_readRows (plan : Plan) (result rows : Tree) :
    (readRows plan result rows).IsSteady := by
  induction rows generalizing result with
  | nil => exact isSteady_pure result
  | cons had row rest ih =>
      cases row with
      | map row => exact (isSteady_readRow plan row _ _).bind fun _ => ih _
      | _ => exact ih result

theorem isSteady_plan (separator : String) (default : Value) (specifiers : List String)
    (rowKey : RowKey) : (plan separator default specifiers rowKey).IsSteady := by
  refine (isSteady_columns separator specifiers).bind fun cs => ?_
  cases rowKey with
  | column name =>
      exact isSteady_ite (isSteady_pure _)
        ((isSteady_column separator name).bind fun _ => isSteady_pure _)
  | numbered => exact isSteady_pure _
  | preserved => exact isSteady_pure _

theorem isSteady_list (rows : Tree) (cs : Columns) (rowKey : RowKey) (default : Value)
    (separator : Option String) : (list rows cs rowKey default separator).IsSteady := by
  refine (isSteady_separatorOr separator).bind fun separator => ?_
  refine isSteady_ite (isSteady_pure _) ?_
  cases cs.specifiers? with
  | some specifiers =>
      have hplan := isSteady_plan separator default specifiers rowKey
      exact hplan.bind fun _ => isSteady_readRows _ _ _
  | none =>
      cases rowKey with
      | column name => exact isSteady_placeRows separator name .nil rows
      | numbered => exact isSteady_pure rows
      | preserved => exact isSteady_pure rows

end Listing

end Quill
