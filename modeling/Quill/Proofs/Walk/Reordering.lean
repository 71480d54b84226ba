import Quill.Proofs.Walk.Removal

/-!
# Removing in another order

The members of a group are removed one after the other, and so are several paths.  The fates that
they give are joined, and a join does not depend on the order of its parts: neither does what is
left of a tree.
-/

namespace Quill

/-- A member of a group. -/
inductive Member where
  | key (text : String)
  | path (sub : Path)
deriving DecidableEq

/-- The members of a group in order. -/
def Members.toList : Members → List Member
  | .nil => []
  | .key text rest => .key text :: rest.toList
  | .path sub rest => .path sub :: rest.toList

mutual

/-- Two paths with the same segments, up to the order of the members of groups at any depth. -/
inductive Path.Reordered : Path → Path → Prop
  | nil : Path.Reordered .nil .nil
  | key (text : String) {p q : Path} (rest : Path.Reordered p q) :
      Path.Reordered (.key text p) (.key text q)
  | group {ms ns : Members} {p q : Path} (members : Members.Reordered ms ns)
      (rest : Path.Reordered p q) : Path.Reordered (.group ms p) (.group ns q)

/-- Two groups with the same members in any order, each up to reordering. -/
inductive Members.Reordered : Members → Members → Prop
  | perm {ms ns : Members} (order : ms.toList.Perm ns.toList) : Members.Reordered ms ns
  | key (text : String) {ms ns : Members} (rest : Members.Reordered ms ns) :
      Members.Reordered (.key text ms) (.key text ns)
  | path {p q : Path} {ms ns : Members} (sub : Path.Reordered p q)
      (rest : Members.Reordered ms ns) : Members.Reordered (.path p ms) (.path q ns)
  | trans {ms ns os : Members} (first : Members.Reordered ms ns)
      (second : Members.Reordered ns os) : Members.Reordered ms os

end

namespace Removal

/-- Several removals at once. -/
def joinAll (cs : List Removal) : Removal :=
  cs.foldr join nothing

theorem join_left_comm (c d e : Removal) : c.join (d.join e) = d.join (c.join e) := by
  rw [← join_assoc, join_comm c d, join_assoc]

theorem joinAll_perm {cs ds : List Removal} (h : cs.Perm ds) : joinAll cs = joinAll ds := by
  induction h with
  | nil => rfl
  | cons c _ ih =>
      show c.join (joinAll _) = c.join (joinAll _)
      rw [ih]
  | swap c d rest => exact join_left_comm d c (joinAll rest)
  | trans _ _ ih ih' => exact ih.trans ih'

end Removal

/-- The fates that a member of a group gives. -/
def Member.removal (c : Removal) : Member → Removal
  | .key text => .atKeys (· = .ofText text) c
  | .path sub => sub.removal

theorem Members.removal_eq_joinAll (c : Removal) (ms : Members) :
    ms.removal c = (Removal.joinAll (ms.toList.map (Member.removal c))).join .entering := by
  induction ms using Members.toList.induct with
  | case1 =>
      rw [Members.removal]
      rfl
  | case2 text rest ih =>
      rw [Members.removal, ih, ← Removal.join_assoc]
      rfl
  | case3 sub rest ih =>
      rw [Members.removal, ih, ← Removal.join_assoc]
      rfl

theorem Path.Reordered.isNil_eq {p q : Path} (h : p.Reordered q) : p.isNil = q.isNil := by
  cases h with
  | nil => rfl
  | key text rest => rfl
  | group members rest => rfl

mutual

/-- Reordered paths give the same fates. -/
theorem Path.Reordered.removal_eq : ∀ {p q : Path}, p.Reordered q → p.removal = q.removal
  | _, _, .nil => rfl
  | _, _, .key text rest => by
      rw [Path.removal, Path.removal, rest.isNil_eq, Path.Reordered.removal_eq rest]
  | _, _, .group members rest => by
      rw [Path.removal, Path.removal, rest.isNil_eq, Path.Reordered.removal_eq rest]
      exact Members.Reordered.removal_eq _ members

theorem Members.Reordered.removal_eq (c : Removal) : ∀ {ms ns : Members}, ms.Reordered ns →
    ms.removal c = ns.removal c
  | _, _, .perm order => by
      rw [Members.removal_eq_joinAll, Members.removal_eq_joinAll,
        Removal.joinAll_perm (order.map _)]
  | _, _, .key text rest => by
      rw [Members.removal, Members.removal, Members.Reordered.removal_eq c rest]
  | _, _, .path sub rest => by
      rw [Members.removal, Members.removal, Path.Reordered.removal_eq sub,
        Members.Reordered.removal_eq c rest]
  | _, _, .trans first second =>
      (Members.Reordered.removal_eq c first).trans (Members.Reordered.removal_eq c second)

end

/-- Reordered paths remove the same. -/
theorem Path.Reordered.remove_eq {p q : Path} (h : p.Reordered q) {t : Tree} (ht : t.Distinct)
    (keepEmpty : Bool) : p.remove keepEmpty t = q.remove keepEmpty t := by
  rw [p.remove_eq_cut keepEmpty ht, q.remove_eq_cut keepEmpty ht, h.removal_eq]

/-- Removing along several paths, one after the other, is one cut. -/
theorem Path.foldl_remove_eq_cut (keepEmpty : Bool) (ps : List Path) {t : Tree} (ht : t.Distinct) :
    ps.foldl (fun t p => p.remove keepEmpty t) t =
      t.cut keepEmpty (Removal.joinAll (ps.map Path.removal)) := by
  induction ps generalizing t with
  | nil => exact (Tree.cut_of_under_eq_nothing fun _ _ => rfl).symm
  | cons p ps ih =>
      have hfirst := p.remove_eq_cut keepEmpty ht
      -- The other paths are walked in a tree that is cut already, and two cuts are one.
      rw [List.foldl_cons, ih (ht.of_eq_cut hfirst), hfirst, Tree.cut_cut]
      rfl

theorem Path.foldl_remove_perm (keepEmpty : Bool) {ps qs : List Path} (h : ps.Perm qs) {t : Tree}
    (ht : t.Distinct) : ps.foldl (fun t p => p.remove keepEmpty t) t =
      qs.foldl (fun t p => p.remove keepEmpty t) t := by
  rw [Path.foldl_remove_eq_cut keepEmpty ps ht, Path.foldl_remove_eq_cut keepEmpty qs ht,
    Removal.joinAll_perm (h.map _)]

end Quill
