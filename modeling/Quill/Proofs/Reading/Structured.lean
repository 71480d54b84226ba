import Quill.Path.Structured
import Quill.Proofs.Reading.Slicing
import Quill.Tree.Depth
import Quill.Walk.Selection

/-!
# Structured paths

A path as a value is the sequence of its segments.  The same shape means a group at one level and a
path of its own at the next, and the only thing that it cannot carry is a member without segments:
such a path is written, but it is refused when it is read back.

Neither way to a path ever makes such a member.  Reading a structured path checks for it, and
reading an expression leaves no trace of anything that is empty, be it a key text, a member or a
group.
-/

namespace Quill

mutual

/-- Nothing at any depth of a path is empty: no key text, no group and no member. -/
def Path.NothingEmpty : Path → Prop
  | .nil => True
  | .key text rest => text ≠ "" ∧ rest.NothingEmpty
  | .group members rest => members ≠ .nil ∧ members.NothingEmpty ∧ rest.NothingEmpty

/-- Nothing at any depth of a group is empty, the group itself apart. -/
def Members.NothingEmpty : Members → Prop
  | .nil => True
  | .key text rest => text ≠ "" ∧ rest.NothingEmpty
  | .path sub rest => sub ≠ .nil ∧ sub.NothingEmpty ∧ rest.NothingEmpty

end

mutual

theorem Path.NothingEmpty.noEmptySub : ∀ {p : Path}, p.NothingEmpty → p.NoEmptySub
  | .nil, _ => trivial
  | .key _ rest, ⟨_, hrest⟩ => @Path.NothingEmpty.noEmptySub rest hrest
  | .group _ _, ⟨_, hms, hrest⟩ =>
      ⟨Members.NothingEmpty.noEmptySub hms, Path.NothingEmpty.noEmptySub hrest⟩

theorem Members.NothingEmpty.noEmptySub : ∀ {ms : Members}, ms.NothingEmpty → ms.NoEmptySub
  | .nil, _ => trivial
  | .key _ rest, ⟨_, hrest⟩ => @Members.NothingEmpty.noEmptySub rest hrest
  | .path _ _, ⟨hne, hsub, hrest⟩ =>
      ⟨hne, Path.NothingEmpty.noEmptySub hsub, Members.NothingEmpty.noEmptySub hrest⟩

end

theorem Path.NothingEmpty.append : ∀ {p q : Path}, p.NothingEmpty → q.NothingEmpty →
    (p ++ q).NothingEmpty
  | .nil, _, _, hq => hq
  | .key _ _, _, ⟨htext, hrest⟩, hq => ⟨htext, hrest.append hq⟩
  | .group _ _, _, ⟨hne, hms, hrest⟩, hq => ⟨hne, hms, hrest.append hq⟩

theorem Members.NothingEmpty.append : ∀ {ms ns : Members}, ms.NothingEmpty → ns.NothingEmpty →
    (ms ++ ns).NothingEmpty
  | .nil, _, _, hns => hns
  | .key _ _, _, ⟨htext, hrest⟩, hns => ⟨htext, hrest.append hns⟩
  | .path _ _, _, ⟨hne, hsub, hrest⟩, hns => ⟨hne, hsub, hrest.append hns⟩

/-- A group without members is no segment. -/
theorem Members.NothingEmpty.ofMembers : ∀ {ms : Members}, ms.NothingEmpty →
    (Path.ofMembers ms).NothingEmpty
  | .nil, _ => trivial
  | .key .., h => ⟨Members.noConfusion, h, trivial⟩
  | .path .., h => ⟨Members.noConfusion, h, trivial⟩

/-- A path without segments is no member. -/
theorem Path.NothingEmpty.ofPath : ∀ {p : Path}, p.NothingEmpty → (Members.ofPath p).NothingEmpty
  | .nil, _ => trivial
  | .key .., h => ⟨Path.noConfusion, h, trivial⟩
  | .group .., h => ⟨Path.noConfusion, h, trivial⟩

/-! ### Reading one more entry -/

namespace Tree

theorem toPath_map (k : Key) (group rest : Tree) :
    (cons k (.map group) rest).toPath =
      group.toMembers.bind fun ms => rest.toPath.map fun p => .group ms p := by
  rw [toPath]
  cases group.toMembers with
  | error e => rfl
  | ok ms => cases rest.toPath <;> rfl

theorem toPath_of_not_map {v : Value} (h : v.isMap = false) (k : Key) (rest : Tree) :
    (cons k v rest).toPath = v.keyText.bind fun text => rest.toPath.map fun p => .key text p := by
  rw [toPath]
  · cases v.keyText with
    | error e => rfl
    | ok text => cases rest.toPath <;> rfl
  · rintro members rfl
    cases h

theorem toMembers_map (k : Key) (segments rest : Tree) :
    (cons k (.map segments) rest).toMembers =
      segments.toPath.bind fun sub =>
        if sub.isNil then .error (.malformed "" .emptySubPath)
        else rest.toMembers.map fun ms => .path sub ms := by
  rw [toMembers]
  cases segments.toPath with
  | error e => rfl
  | ok sub =>
      cases hnil : sub.isNil with
      | true => simp [bind, Except.bind, hnil]
      | false => cases rest.toMembers <;> simp [bind, Except.bind, hnil, Except.map]

theorem toMembers_of_not_map {v : Value} (h : v.isMap = false) (k : Key) (rest : Tree) :
    (cons k v rest).toMembers =
      v.keyText.bind fun text => rest.toMembers.map fun ms => .key text ms := by
  rw [toMembers]
  · cases v.keyText with
    | error e => rfl
    | ok text => cases rest.toMembers <;> rfl
  · rintro segments rfl
    cases h

end Tree

/-! ### Writing as a value and reading back -/

mutual

/-- The value of a path is read as this path, wherever the numbering of its segments starts. -/
theorem Path.toPath_sequenceFrom : ∀ (p : Path) (i : Nat), p.NoEmptySub →
    (Tree.sequenceFrom i p.toValues).toPath = .ok p
  | .nil, _, _ => by rw [Path.toValues, Tree.sequenceFrom, Tree.toPath]
  | .key text rest, i, h => by
      rw [Path.toValues, Tree.sequenceFrom, Tree.toPath_of_not_map rfl,
        Path.toPath_sequenceFrom rest (i + 1) h]
      rfl
  | .group ms rest, i, h => by
      obtain ⟨hms, hrest⟩ := h
      rw [Path.toValues, Tree.sequenceFrom, Tree.toPath_map, Tree.sequence,
        Members.toMembers_sequenceFrom ms 0 hms, Path.toPath_sequenceFrom rest (i + 1) hrest]
      rfl

theorem Members.toMembers_sequenceFrom : ∀ (ms : Members) (i : Nat), ms.NoEmptySub →
    (Tree.sequenceFrom i ms.toValues).toMembers = .ok ms
  | .nil, _, _ => by rw [Members.toValues, Tree.sequenceFrom, Tree.toMembers]
  | .key text rest, i, h => by
      rw [Members.toValues, Tree.sequenceFrom, Tree.toMembers_of_not_map rfl,
        Members.toMembers_sequenceFrom rest (i + 1) h]
      rfl
  | .path sub rest, i, h => by
      obtain ⟨hne, hsub, hrest⟩ := h
      have hsome : sub.isNil = false := by
        cases sub with
        | nil => exact absurd rfl hne
        | _ => rfl
      rw [Members.toValues, Tree.sequenceFrom, Tree.toMembers_map, Tree.sequence,
        Path.toPath_sequenceFrom sub 0 hsub, Members.toMembers_sequenceFrom rest (i + 1) hrest]
      simp only [Except.bind, hsome, Bool.false_eq_true, if_false, Except.map]

end

mutual

/-- A member without segments is refused, before anything else could go wrong. -/
theorem Path.toPath_sequenceFrom_of_emptySub : ∀ (p : Path) (i : Nat), ¬p.NoEmptySub →
    (Tree.sequenceFrom i p.toValues).toPath = .error (.malformed "" .emptySubPath)
  | .nil, _, h => absurd trivial h
  | .key text rest, i, h => by
      rw [Path.toValues, Tree.sequenceFrom, Tree.toPath_of_not_map rfl,
        Path.toPath_sequenceFrom_of_emptySub rest (i + 1) h]
      rfl
  | .group ms rest, i, h => by
      rw [Path.toValues, Tree.sequenceFrom, Tree.toPath_map, Tree.sequence]
      by_cases hms : ms.NoEmptySub
      · have hrest : ¬rest.NoEmptySub := fun hrest => h ⟨hms, hrest⟩
        rw [Members.toMembers_sequenceFrom ms 0 hms,
          Path.toPath_sequenceFrom_of_emptySub rest (i + 1) hrest]
        rfl
      · rw [Members.toMembers_sequenceFrom_of_emptySub ms 0 hms]
        rfl

theorem Members.toMembers_sequenceFrom_of_emptySub : ∀ (ms : Members) (i : Nat), ¬ms.NoEmptySub →
    (Tree.sequenceFrom i ms.toValues).toMembers = .error (.malformed "" .emptySubPath)
  | .nil, _, h => absurd trivial h
  | .key text rest, i, h => by
      rw [Members.toValues, Tree.sequenceFrom, Tree.toMembers_of_not_map rfl,
        Members.toMembers_sequenceFrom_of_emptySub rest (i + 1) h]
      rfl
  | .path sub rest, i, h => by
      rw [Members.toValues, Tree.sequenceFrom, Tree.toMembers_map, Tree.sequence]
      by_cases hsub : sub.NoEmptySub
      · rw [Path.toPath_sequenceFrom sub 0 hsub]
        cases hnil : sub.isNil with
        | true => simp only [Except.bind, hnil, if_true]
        | false =>
            have hne : sub ≠ .nil := by
              rintro rfl
              cases hnil
            have hrest : ¬rest.NoEmptySub := fun hrest => h ⟨hne, hsub, hrest⟩
            rw [Members.toMembers_sequenceFrom_of_emptySub rest (i + 1) hrest]
            simp only [Except.bind, hnil, Bool.false_eq_true, if_false, Except.map]
      · rw [Path.toPath_sequenceFrom_of_emptySub sub 0 hsub]
        rfl

end

/-- The value of a path describes the path exactly if no member is without segments. -/
theorem Path.toPath_toValue_iff (p : Path) : p.toValue.toPath = .ok p ↔ p.NoEmptySub := by
  constructor
  · intro h
    refine Classical.byContradiction fun hsub => ?_
    rw [Path.toValue, Value.toPath, Tree.sequence,
      Path.toPath_sequenceFrom_of_emptySub p 0 hsub] at h
    cases h
  · exact Path.toPath_sequenceFrom p 0

/-! ### What reading makes -/

theorem exists_of_bind_eq_ok {ε α β : Type} {x : Except ε α} {f : α → Except ε β} {b : β}
    (h : x.bind f = .ok b) : ∃ a, x = .ok a ∧ f a = .ok b := by
  cases x with
  | error e => cases h
  | ok a => exact ⟨a, rfl, h⟩

theorem exists_of_map_eq_ok {ε α β : Type} {x : Except ε α} {f : α → β} {b : β}
    (h : x.map f = .ok b) : ∃ a, x = .ok a ∧ f a = b := by
  cases x with
  | error e => cases h
  | ok a => exact ⟨a, rfl, Except.ok.inj h⟩

/-- Reading a structured path makes no member without segments, at the levels of paths and at those
of groups. -/
theorem Tree.noEmptySub_of_reads (t : Tree) :
    (∀ p, t.toPath = .ok p → p.NoEmptySub) ∧ ∀ ms, t.toMembers = .ok ms → ms.NoEmptySub := by
  induction t using deepInduction with
  | nil =>
      refine ⟨fun p h => ?_, fun ms h => ?_⟩
      · rw [toPath, Except.ok.injEq] at h
        exact h ▸ trivial
      · rw [toMembers, Except.ok.injEq] at h
        exact h ▸ trivial
  | cons k v rest ihv ihrest =>
      obtain ⟨ihPath, ihMembers⟩ := ihrest
      rcases v.exists_map_or_isMap_eq_false with ⟨child, rfl⟩ | hmap
      · obtain ⟨childPath, childMembers⟩ := ihv child rfl
        refine ⟨fun p h => ?_, fun ms h => ?_⟩
        · rw [toPath_map] at h
          obtain ⟨ms, hms, h⟩ := exists_of_bind_eq_ok h
          obtain ⟨q, hq, rfl⟩ := exists_of_map_eq_ok h
          exact ⟨childMembers ms hms, ihPath q hq⟩
        · rw [toMembers_map] at h
          obtain ⟨sub, hsub, h⟩ := exists_of_bind_eq_ok h
          -- Here the check is made that the member has segments.
          split at h
          · cases h
          · next hnil =>
              obtain ⟨others, hothers, rfl⟩ := exists_of_map_eq_ok h
              have hne : sub ≠ .nil := by
                rintro rfl
                exact hnil rfl
              exact ⟨hne, childPath sub hsub, ihMembers others hothers⟩
      · refine ⟨fun p h => ?_, fun ms h => ?_⟩
        · rw [toPath_of_not_map hmap] at h
          obtain ⟨text, _, h⟩ := exists_of_bind_eq_ok h
          obtain ⟨q, hq, rfl⟩ := exists_of_map_eq_ok h
          exact ihPath q hq
        · rw [toMembers_of_not_map hmap] at h
          obtain ⟨text, _, h⟩ := exists_of_bind_eq_ok h
          obtain ⟨others, hothers, rfl⟩ := exists_of_map_eq_ok h
          exact ihMembers others hothers

theorem Value.noEmptySub_of_toPath {v : Value} {p : Path} (h : v.toPath = .ok p) :
    p.NoEmptySub := by
  cases v with
  | map t => exact t.noEmptySub_of_reads.1 p h
  | _ => cases h

/-! ### What the grammar derives -/

namespace Path

theorem ofList_keyChars_ne_empty {ts : List Token} (h : keyChars ts ≠ []) :
    String.ofList (keyChars ts) ≠ "" := by
  intro hempty
  apply h
  rw [← String.toList_ofList (l := keyChars ts), hempty]
  rfl

mutual

/-- The grammar leaves no trace of what is empty. -/
theorem Derives.nothingEmpty {inGroup : Bool} {ts : List Token} {p : Path} :
    Derives inGroup ts p → p.NothingEmpty
  | .last segment => segment.nothingEmpty
  | .cons segment others => segment.nothingEmpty.append others.nothingEmpty

theorem DerivesSegment.nothingEmpty {inGroup : Bool} {ts : List Token} {p : Path} :
    DerivesSegment inGroup ts p → p.NothingEmpty
  | .text _ => by
      unfold ofKeyTokens
      split
      · trivial
      · next hne => exact ⟨ofList_keyChars_ne_empty hne, trivial⟩
  | .group _ members _ => members.nothingEmpty.ofMembers

theorem DerivesMembers.nothingEmpty {ts : List Token} {ms : Members} :
    DerivesMembers ts ms → ms.NothingEmpty
  | .last member => member.nothingEmpty
  | .cons member others => member.nothingEmpty.append others.nothingEmpty

theorem DerivesMember.nothingEmpty {ts : List Token} {ms : Members} :
    DerivesMember ts ms → ms.NothingEmpty
  | .key _ => by
      unfold Members.ofKeyTokens
      split
      · trivial
      · next hne => exact ⟨ofList_keyChars_ne_empty hne, trivial⟩
  | .path segments _ => segments.nothingEmpty.ofPath

end

/-- Reading an expression makes nothing that is empty. -/
theorem nothingEmpty_of_ofText {separator s : String} {p : Path} (h : ofText separator s = .ok p) :
    p.NothingEmpty :=
  ((ofText_eq_ok_iff separator s p).mp h).nothingEmpty

/-- Paths as values.  A path that was read, from an expression or from a value, has no member
without segments and comes back from its value unchanged; from an expression it has no empty key
text and no empty group either.  Any other path comes back as well, unless a member at some depth is
without segments: then its value is refused for that. -/
theorem toPath_toValue_of_read :
    (∀ separator s p, ofText separator s = .ok p →
      p.NothingEmpty ∧ p.NoEmptySub ∧ p.toValue.toPath = .ok p) ∧
    (∀ (v : Value) (p : Path), v.toPath = .ok p → p.NoEmptySub ∧ p.toValue.toPath = .ok p) ∧
    (∀ p : Path, p.toValue.toPath = .ok p ↔ p.NoEmptySub) ∧
    ∀ p : Path, ¬p.NoEmptySub → p.toValue.toPath = .error (.malformed "" .emptySubPath) := by
  refine ⟨fun separator s p h => ?_, fun v p h => ?_, toPath_toValue_iff, fun p h => ?_⟩
  · have hp := nothingEmpty_of_ofText h
    exact ⟨hp, hp.noEmptySub, p.toPath_toValue_iff.mpr hp.noEmptySub⟩
  · have hp := Value.noEmptySub_of_toPath h
    exact ⟨hp, p.toPath_toValue_iff.mpr hp⟩
  · exact toPath_sequenceFrom_of_emptySub p 0 h

/-- A group in a member of a group. -/
def keptSample : Path :=
  .key "a" (.group (.key "b" (.path (.key "c" (.group (.key "d" .nil) .nil)) .nil)) .nil)

/-- A group in a member of a group, with a member without segments. -/
def refusedSample : Path :=
  .key "a" (.group (.key "b" (.path (.group (.path .nil .nil) .nil) .nil)) .nil)

theorem toPath_toValue_keptSample :
    ofText "." "a. [b, c.[d], ,[]]" = .ok keptSample ∧ keptSample.NothingEmpty ∧
      keptSample.toValue.toPath = .ok keptSample ∧ ¬refusedSample.NoEmptySub ∧
      refusedSample.toValue.toPath = .error (.malformed "" .emptySubPath) := by
  have hread : ofText "." "a. [b, c.[d], ,[]]" = .ok keptSample := rfl
  have hrefused : ¬refusedSample.NoEmptySub := by
    simp [refusedSample, NoEmptySub, Members.NoEmptySub]
  obtain ⟨hexpression, _, _, hvalue⟩ := toPath_toValue_of_read
  obtain ⟨hkept, _, hback⟩ := hexpression "." "a. [b, c.[d], ,[]]" keptSample hread
  exact ⟨hread, hkept, hback, hrefused, hvalue refusedSample hrefused⟩

end Path

end Quill
