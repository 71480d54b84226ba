import Quill.Proofs.Navigation.Answers
import Quill.Proofs.Walk.Reordering
import Quill.Proofs.Walk.Unreached

/-!
# Removing several paths

Each removal answers with the tree that the next one starts from, and it is parsed on the navigator
that the last one left behind.  On a sound cache that navigator makes no difference, so what is left
at the end is what the paths leave, one after the other, and their order makes none either.
-/

namespace Quill.Navigator

open Navigation

/-- The path that a locator denotes, the empty one if it denotes none. -/
def pathOf (separator : String) (l : Locator) : Path :=
  match denote l separator false with
  | .ok p => p
  | .error _ => .nil

theorem denote_of_parses {l : Locator} {n : Navigator} (hn : n.cache.IsSound)
    (h : ∃ p, ((parse l n.separator false).on n).1 = .ok p) :
    denote l n.separator false = .ok (pathOf n.separator l) := by
  obtain ⟨p, hp⟩ := h
  rw [parse_on l n.separator false hn] at hp
  unfold pathOf
  rw [hp]

/-- Where every locator denotes a path, one removal after the other follows these paths. -/
theorem without_on (keepEmpty : Bool) {separator : String} {ls : List Locator}
    (h : ∀ l ∈ ls, denote l separator false = .ok (pathOf separator l)) {n : Navigator}
    (hn : n.cache.IsSound) (hsep : n.separator = separator) (t : Tree) :
    ((without t keepEmpty ls).on n).1 =
      .ok ((ls.map (pathOf separator)).foldl (fun t p => p.remove keepEmpty t) t) := by
  induction ls generalizing n t with
  | nil => rfl
  | cons l rest ih =>
      have hfirst : ((remove t l keepEmpty none).on n).1 =
          .ok ((pathOf separator l).remove keepEmpty t) := by
        rw [remove_on hn t l none keepEmpty]
        show (denote l n.separator false).map _ = _
        rw [hsep, h l List.mem_cons_self]
        rfl
      -- The other removals run on what the first leaves: a sound navigator with this separator.
      obtain ⟨after, hsound, hkept, hon⟩ :=
        (isSteady_remove t l keepEmpty none).on_bind_of_ok hn hfirst (without · keepEmpty rest)
      have hrest : ∀ l ∈ rest, denote l separator false = .ok (pathOf separator l) := by
        intro l hl
        exact h l (List.mem_cons_of_mem _ hl)
      show (((remove t l keepEmpty none) >>= (without · keepEmpty rest)).on n).1 = _
      rw [hon]
      exact ih hrest hsound (hkept.trans hsep) _

/-- Nothing depends on the order of removals.  Several locators that parse leave the same tree in
every order, on whatever sound navigators with one separator they are resolved, and a path removes
the same when the members of its groups are permuted. -/
theorem without_perm {t : Tree} (ht : t.Distinct) (keepEmpty : Bool) :
    (∀ n n' : Navigator, n.cache.IsSound → n'.cache.IsSound → n.separator = n'.separator →
      ∀ ls ls' : List Locator, ls.Perm ls' →
        (∀ l ∈ ls, ∃ p, ((parse l n.separator false).on n).1 = .ok p) →
        ∃ left : Tree, ((without t keepEmpty ls).on n).1 = .ok left ∧
          ((without t keepEmpty ls').on n').1 = .ok left) ∧
      ∀ p q : Path, p.Reordered q → p.remove keepEmpty t = q.remove keepEmpty t := by
  constructor
  · intro n n' hn hn' hsep ls ls' hperm hparse
    have hdenote : ∀ l ∈ ls, denote l n.separator false = .ok (pathOf n.separator l) := by
      intro l hl
      exact denote_of_parses hn (hparse l hl)
    have hdenote' : ∀ l ∈ ls', denote l n.separator false = .ok (pathOf n.separator l) := by
      intro l hl
      exact hdenote l (hperm.mem_iff.mpr hl)
    refine ⟨_, without_on keepEmpty hdenote hn rfl t, ?_⟩
    rw [without_on keepEmpty hdenote' hn' hsep.symm t,
      Path.foldl_remove_perm keepEmpty (hperm.map _) ht]
  · intro p q h
    exact h.remove_eq ht keepEmpty

/-- Two expressions, one inside of what the other empties, and a group with its members the other
way round. -/
theorem without_perm_markedRows :
    markedRows.Distinct ∧
      (∃ left : Tree,
        ((without markedRows false [.text "*.mark.deep", .text "[b,a].mark"]).on
          (fresh "." 2)).1 = .ok left ∧
        ((without markedRows false [.text "[b,a].mark", .text "*.mark.deep"]).on
          (fresh "." 0)).1 = .ok left) ∧
      (Path.group (.key "a" (.key "b" .nil)) (.key "mark" .nil)).remove false markedRows =
        (Path.group (.key "b" (.key "a" .nil)) (.key "mark" .nil)).remove false markedRows := by
  have ht : markedRows.Distinct := markedRows_distinct
  have hsound : (fresh "." 2).cache.IsSound := Cache.isSound_ofCapacity 2
  have hsound' : (fresh "." 0).cache.IsSound := Cache.isSound_ofCapacity 0
  have hparse : ∀ l ∈ [Locator.text "*.mark.deep", .text "[b,a].mark"],
      ∃ p, ((parse l "." false).on (fresh "." 2)).1 = .ok p := by
    simp only [List.forall_mem_cons, List.not_mem_nil, false_imp_iff, implies_true, and_true]
    exact ⟨⟨.key "*" (.key "mark" (.key "deep" .nil)), rfl⟩,
      ⟨.group (.key "b" (.key "a" .nil)) (.key "mark" .nil), rfl⟩⟩
  have hreordered : (Path.group (.key "a" (.key "b" .nil)) (.key "mark" .nil)).Reordered
      (Path.group (.key "b" (.key "a" .nil)) (.key "mark" .nil)) := by
    have hswap : (Members.key "a" (.key "b" .nil)).Reordered (.key "b" (.key "a" .nil)) :=
      .perm (.swap _ _ _)
    exact .group hswap (.key "mark" .nil)
  obtain ⟨hlists, hpaths⟩ := without_perm ht false
  exact ⟨ht, hlists _ _ hsound hsound' rfl _ _ (.swap _ _ _) hparse, hpaths _ _ hreordered⟩

end Quill.Navigator
