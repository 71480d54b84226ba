import Quill.Proofs.Files.Operations

/-!
# What saving changes

Saving writes the new contents under another name and moves them into place, and keeps the old
contents in a further file if that is asked for.  Every one of these operations can be refused, and
those that write can break off after any number of bytes.  The three names stand beside one another
and are different, except that a file may have the first name itself.  So a save that fails leaves
the file as it was, wherever it breaks off, and one that succeeds spares all other files if none of
them has the first name.  One that has it is lost.

A file that has the first name itself is written in place.  It is safe as long as nothing befalls
the operations; a save that breaks off leaves it broken off.
-/

namespace Quill

namespace Place

/-! ### The names beside a file -/

theorem fileName?_eq_some {p : Place} {x : String} (h : p.fileName? = some x) :
    p.parts = p.folder ++ [x] ∧ x ≠ above := by
  unfold fileName? at h
  rw [Option.filter_eq_some_iff] at h
  obtain ⟨hlast, hx⟩ := h
  refine ⟨?_, by simpa using hx⟩
  obtain ⟨front, hfront⟩ := List.getLast?_eq_some_iff.mp hlast
  rw [folder, hfront, List.dropLast_concat]

theorem withFileName_self {p : Place} {x : String} (h : p.fileName? = some x)
    (hp : p.isFolder = false) : p.withFileName x = p := by
  obtain ⟨hparts, _⟩ := fileName?_eq_some h
  rw [withFileName, ← hparts, ← hp]

/-- A name that is not that of a folder ends in the name of a file. -/
theorem exists_fileName? {name : String} (h : (ofName name).isFolder = false) :
    ∃ x, (ofName name).fileName? = some x := by
  unfold ofName at h ⊢
  dsimp only at h ⊢
  generalize (name.toList.splitOn '/').map String.ofList = parts at h ⊢
  cases hlast : parts.getLast? with
  | none => simp [hlast] at h
  | some x =>
      obtain ⟨front, rfl⟩ := List.getLast?_eq_some_iff.mp hlast
      rw [hlast, Option.all_some, Bool.or_eq_false_iff] at h
      refine ⟨x, ?_⟩
      rw [fileName?, List.filter_append, List.filter_cons_of_pos (by simp [h.1])]
      simpa using h.2

/-- The name under which a file is written first. -/
def temporaryName (x : String) : String :=
  (splitExtension x).1 ++ "." ++ "tmp"

/-- The name under which the old contents of a file are kept. -/
def backupName (x : String) : String :=
  x ++ ".bak"

theorem temporary_eq {p : Place} {x : String} (h : p.fileName? = some x) :
    p.temporary = p.withFileName (temporaryName x) := by
  rw [temporary, withExtension, h]
  rfl

theorem backup?_eq {p : Place} {x : String} (h : p.fileName? = some x) :
    p.backup? = some (p.withFileName (backupName x)) := by
  rw [backup?, h]
  rfl

theorem temporaryName_ne_above (x : String) : temporaryName x ≠ above := by
  intro h
  have hlast := congrArg (fun s => s.toList.getLast?) h
  simp [temporaryName, above, String.toList_append] at hlast

theorem backupName_ne_above (x : String) : backupName x ≠ above := by
  intro h
  have hlast := congrArg (fun s => s.toList.getLast?) h
  simp [backupName, above, String.toList_append] at hlast

theorem backupName_ne_temporaryName (x y : String) : backupName x ≠ temporaryName y := by
  intro h
  have hlast := congrArg (fun s => s.toList.getLast?) h
  simp [backupName, temporaryName, String.toList_append] at hlast

theorem backupName_ne_self (x : String) : backupName x ≠ x := by
  intro h
  have hlength := congrArg (fun s => s.toList.length) h
  simp [backupName, String.toList_append] at hlength

end Place

namespace Directory

/-! ### How saving ends -/

/-- The path of the file that keeps the old contents of another. -/
def backupPath? (d : Directory) (p : Place) : Option (List String) :=
  p.backup?.bind d.folders.filePath?

/-- What keeping the old contents of a file leaves, if they are to be kept and there are any. -/
inductive Keeps (settings : Settings) (p : Place) (d : Directory) : Directory → Prop where
  | nothing (h : settings.createBackup = true → d.read? p = none) : Keeps settings p d d
  | contents {path : List String} {bytes : List UInt8} (asked : settings.createBackup = true)
      (there : d.read? p = some bytes) (goes : d.backupPath? p = some path) :
      Keeps settings p d (d.next.setFile path bytes)

/-- How saving a file ends: without a change, or with the old contents kept in part, or once they
are kept, or with new contents under their first name only, or with the new contents in place. -/
inductive SaveEnds (settings : Settings) (p : Place) (new : Except UnknownFormat (List UInt8))
    (d : Directory) : Except SaveError Unit × Directory → Prop where
  | refused (e : SaveError) {after : Directory} (same : d.SameFiles after) :
      SaveEnds settings p new d (.error e, after)
  | unkept (e : SaveError) {path : List String} {part : List UInt8}
      (asked : settings.createBackup = true) (there : (d.read? p).isSome)
      (goes : d.backupPath? p = some path) :
      SaveEnds settings p new d (.error e, d.next.setFile path part)
  | unwritten (e : SaveError) {kept after : Directory} (keeps : Keeps settings p d kept)
      (same : kept.SameFiles after) : SaveEnds settings p new d (.error e, after)
  | unmoved (e : SaveError) {kept after : Directory} {first : List String} {bytes : List UInt8}
      (keeps : Keeps settings p d kept) (written : d.folders.filePath? p.temporary = some first)
      (same : (kept.setFile first bytes).SameFiles after)
      (stuck : d.folders.filePath? p = none ∨ ¬d.IsCalm) :
      SaveEnds settings p new d (.error e, after)
  | moved {kept after : Directory} {first goal : List String} {bytes : List UInt8}
      (holds : new = .ok bytes) (keeps : Keeps settings p d kept)
      (written : d.folders.filePath? p.temporary = some first)
      (renamed : d.folders.filePath? p = some goal)
      (same : (((kept.setFile first bytes).eraseFile first).setFile goal bytes).SameFiles after) :
      SaveEnds settings p new d (.ok (), after)

variable {settings : Settings} {d kept : Directory} {p q : Place}

theorem Keeps.folders (h : Keeps settings p d kept) : kept.folders = d.folders := by
  cases h with
  | nothing => rfl
  | contents => rfl

theorem Keeps.mishaps (h : Keeps settings p d kept) : kept.mishaps <:+ d.mishaps := by
  cases h with
  | nothing => exact List.suffix_refl _
  | contents => exact List.tail_suffix _

/-- A file is moved to every place where a file can be. -/
theorem rename?_eq {path : List String} {bytes : List UInt8}
    (hp : d.folders.filePath? p = some path) (hbytes : d.file? path = some bytes) (q : Place) :
    d.rename? p q =
      (d.folders.filePath? q).map fun goal => (d.eraseFile path).setFile goal bytes := by
  unfold rename?
  rw [hp]
  simp only [Option.bind_eq_bind, Option.bind_some, hbytes]
  cases d.folders.filePath? q with
  | none => rfl
  | some goal => rfl

end Directory

namespace Tree

open FileOperation

/-- Keeping the old contents of a file fails without a change or with a part of them in the other
file, or it keeps them. -/
theorem keepBackup_ends (settings : Settings) (p : Place)
    (new : Except UnknownFormat (List UInt8)) (d : Directory) (h : settings.createBackup = true) :
    (∃ e after, on (keepBackup p) d = (.error e, after) ∧
        Directory.SaveEnds settings p new d (.error e, after)) ∨
      ∃ kept, on (keepBackup p) d = (.ok (), kept) ∧ d.Keeps settings p kept := by
  have htaken : (FileAccess.isTaken p : StateM Directory Bool).run d = (d.isTaken p, d) := rfl
  unfold keepBackup
  rw [on_bind, on_liftM, htaken]
  dsimp only
  cases hthere : d.isTaken p with
  | false =>
      rw [Directory.isTaken, Bool.or_eq_false_iff] at hthere
      exact .inr ⟨d, rfl, .nothing fun _ => by simpa using hthere.1⟩
  | true =>
      rw [if_pos rfl]
      cases hq : p.backup? with
      | none => exact .inl ⟨_, d, rfl, .refused _ (.refl d)⟩
      | some q =>
          have hgoes : ∀ path, d.folders.filePath? q = some path → d.backupPath? p = some path := by
            intro path hpath
            rw [Directory.backupPath?, hq, Option.bind_some, hpath]
          have hcopy : on (attempt (m := StateM Directory) .backup (FileAccess.copy p q)) d = _ :=
            on_attempt ..
          dsimp only
          rw [hcopy]
          -- The copy is the only operation here that changes a file, and it may do so in part.
          rcases d.next.copy_cases d.mishap? p q with
            ⟨bytes, path, hbytes, hpath, hdone⟩ | ⟨path, part, hsome, hpath, hdone⟩ | hdone
          · rw [hdone]
            exact .inr ⟨_, rfl, .contents h hbytes (hgoes path hpath)⟩
          · rw [hdone]
            exact .inl ⟨_, _, rfl, .unkept _ h hsome (hgoes path hpath)⟩
          · rw [hdone]
            exact .inl ⟨_, _, rfl, .refused _ d.looked_next.toSameFiles⟩

/-- Writing under the first name and moving, once the old contents are kept. -/
theorem replace_ends {settings : Settings} {p : Place} {d kept : Directory}
    (keeps : d.Keeps settings p kept) (contents : List UInt8) :
    Directory.SaveEnds settings p (.ok contents) d
      (on (do
        writeFirst (m := StateM Directory) p contents
        attempt .rename (FileAccess.rename p.temporary p)) kept) := by
  have hplace : ∀ r, kept.folders.filePath? r = d.folders.filePath? r := fun r => by
    rw [keeps.folders]
  rw [on_bind, on_writeFirst]
  rcases kept.next.write_cases kept.mishap? p.temporary contents with
    ⟨first, hfirst, _, hwrite⟩ | ⟨first, part, e, hfirst, hmishap, hwrite⟩ | ⟨e, hwrite⟩
  · -- The new contents stand under the first name, and it is left to move them.
    rw [hwrite]
    dsimp only [Except.mapError]
    generalize hnew : kept.next.setFile first contents = new
    have hrename : on (attempt (m := StateM Directory) .rename (FileAccess.rename p.temporary p))
        new = _ := on_attempt ..
    have hmoved : new.next.rename? p.temporary p =
        (d.folders.filePath? p).map fun goal =>
          (new.next.eraseFile first).setFile goal contents := by
      subst hnew
      rw [← hplace p]
      exact Directory.rename?_eq (d := (kept.next.setFile first contents).next) hfirst
        (Directory.file?_setFile kept.next first contents) p
    rw [hrename]
    rcases new.next.rename_cases new.mishap? p.temporary p with
      ⟨after, hafter, hdone⟩ | ⟨hstuck, hdone⟩
    · rw [hmoved, Option.map_eq_some_iff] at hafter
      obtain ⟨goal, hgoal, rfl⟩ := hafter
      subst hnew
      rw [hdone]
      exact .moved rfl keeps ((hplace _).symm.trans hfirst) hgoal ⟨rfl, rfl⟩
    · -- They stay there if no file can be at the place or if something befalls the move.
      have hwhy : d.folders.filePath? p = none ∨ ¬d.IsCalm := by
        rcases hstuck with hmishap | hnone
        · right
          intro hcalm
          subst hnew
          exact hmishap (hcalm.of_suffix ((List.tail_suffix _).trans keeps.mishaps)).mishap?_eq_none
        · left
          rwa [hmoved, Option.map_eq_none_iff] at hnone
      subst hnew
      rw [hdone]
      exact .unmoved _ keeps ((hplace _).symm.trans hfirst) ⟨rfl, rfl⟩ hwhy
  · -- A part of them stands there, since the write has broken off.
    have hwhy : ¬d.IsCalm := fun hcalm =>
      hmishap (hcalm.of_suffix keeps.mishaps).mishap?_eq_none
    rw [hwrite]
    exact .unmoved _ keeps ((hplace _).symm.trans hfirst) ⟨rfl, rfl⟩ (.inr hwhy)
  · rw [hwrite]
    exact .unwritten _ keeps kept.looked_next.toSameFiles

/-- What a file is to hold once a tree is saved in it, if there is a format for it. -/
def newContents (t : Tree) (name : String) (settings : Settings) :
    Except UnknownFormat (List UInt8) :=
  (fileFormat name settings).map fun format => t.fileContents (.ofName name) format settings

/-- How saving ends, whatever befalls its operations. -/
theorem save_ends (t : Tree) (name : String) (settings : Settings) (d : Directory) :
    Directory.SaveEnds settings (.ofName name) (t.newContents name settings) d
      (on (t.save name settings) d) := by
  unfold save newContents
  rw [on_bind, on_liftExcept]
  cases fileFormat name settings with
  | error e => exact .refused _ (.refl d)
  | ok format =>
      dsimp only [Except.mapError, Except.map]
      by_cases hbackup : settings.createBackup = true
      · rw [if_pos hbackup, on_bind]
        rcases keepBackup_ends settings (.ofName name) _ d hbackup with
          ⟨e, after, hresult, hends⟩ | ⟨kept, hresult, keeps⟩
        · rw [hresult]
          exact hends
        · rw [hresult]
          exact replace_ends keeps _
      · rw [if_neg hbackup]
        exact replace_ends (.nothing fun h => absurd h hbackup) _

end Tree

namespace Directory

variable {settings : Settings} {name : String} {d d' kept : Directory} {p : Place}

/-! ### The three files -/

/-- Keeping the old contents changes one file, and only if it is asked for. -/
theorem Keeps.file? (h : Keeps settings p d kept) {path : List String}
    (hpath : settings.createBackup = true → (d.read? p).isSome → d.backupPath? p ≠ some path) :
    kept.file? path = d.file? path := by
  cases h with
  | nothing => rfl
  | contents asked there goes =>
      rw [file?_setFile_eq, if_neg]
      · rfl
      · rintro rfl
        exact hpath asked (by rw [there]; rfl) goes

/-- A name that leads to where a file can be stands beside other names, under which the new contents
are written and the old ones kept. -/
theorem exists_names {path : List String} (h : d.folders.filePath? (.ofName name) = some path) :
    ∃ x, x ≠ Place.above ∧ Place.ofName name = (Place.ofName name).withFileName x ∧
      (Place.ofName name).temporary = (Place.ofName name).withFileName (Place.temporaryName x) ∧
      (Place.ofName name).backup? =
        some ((Place.ofName name).withFileName (Place.backupName x)) := by
  have hfile : (Place.ofName name).isFolder = false := by
    unfold Folders.filePath? at h
    split at h
    · cases h
    · next hfolder => simpa using hfolder
  obtain ⟨x, hx⟩ := Place.exists_fileName? hfile
  exact ⟨x, (Place.fileName?_eq_some hx).2, (Place.withFileName_self hx hfile).symm,
    Place.temporary_eq hx, Place.backup?_eq hx⟩

theorem backupPath?_ne {path : List String} (h : d.folders.filePath? (.ofName name) = some path) :
    d.backupPath? (.ofName name) ≠ some path := by
  obtain ⟨x, hx, hself, _, hbackup⟩ := exists_names h
  intro hpath
  rw [backupPath?, hbackup, Option.bind_some] at hpath
  rw [hself] at h
  exact Place.backupName_ne_self x
    (Folders.eq_of_filePath?_withFileName (Place.backupName_ne_above x) hx hpath h)

theorem backupPath?_ne_temporary {goal path : List String}
    (h : d.folders.filePath? (.ofName name) = some goal)
    (htemporary : d.folders.filePath? (Place.ofName name).temporary = some path) :
    d.backupPath? (.ofName name) ≠ some path := by
  obtain ⟨x, hx, _, hfirst, hbackup⟩ := exists_names h
  intro hpath
  rw [backupPath?, hbackup, Option.bind_some] at hpath
  rw [hfirst] at htemporary
  exact Place.backupName_ne_temporaryName x x (Folders.eq_of_filePath?_withFileName
    (Place.backupName_ne_above x) (Place.temporaryName_ne_above x) hpath htemporary)

/-- Only a file that has the first name itself is written in place. -/
theorem temporary_eq_of_filePath? {path : List String}
    (h : d.folders.filePath? (.ofName name) = some path)
    (htemporary : d.folders.filePath? (Place.ofName name).temporary = some path) :
    (Place.ofName name).temporary = .ofName name := by
  obtain ⟨x, hx, hself, hfirst, _⟩ := exists_names h
  rw [hfirst] at htemporary
  rw [hself] at h
  have hname :=
    Folders.eq_of_filePath?_withFileName (Place.temporaryName_ne_above x) hx htemporary h
  rw [hfirst, hname, ← hself]

/-- Writing the file that keeps old contents leaves the file as it is. -/
theorem read?_setFile_backup {path : List String} (h : d.backupPath? (.ofName name) = some path)
    (bytes : List UInt8) :
    (d.setFile path bytes).read? (.ofName name) = d.read? (.ofName name) := by
  have hfolders : (d.setFile path bytes).folders = d.folders := rfl
  unfold Directory.read?
  rw [hfolders]
  cases hgoal : d.folders.filePath? (.ofName name) with
  | none => rfl
  | some goal =>
      rw [Option.bind_some, Option.bind_some, file?_setFile_eq, if_neg]
      rintro rfl
      exact backupPath?_ne hgoal h

theorem Keeps.read? (h : Keeps settings (.ofName name) d kept) :
    kept.read? (.ofName name) = d.read? (.ofName name) := by
  cases h with
  | nothing => rfl
  | contents _ _ goes => exact read?_setFile_backup (d := d.next) goes _

/-- What is left of the old contents of a file once they are kept. -/
theorem Keeps.backup (h : Keeps settings (.ofName name) d kept)
    (hasked : settings.createBackup = true) {bytes : List UInt8}
    (hbytes : d.read? (.ofName name) = some bytes) :
    ∃ path, d.backupPath? (.ofName name) = some path ∧ kept.file? path = some bytes := by
  cases h with
  | nothing hnone =>
      rw [hnone hasked] at hbytes
      cases hbytes
  | contents _ hthere goes =>
      rw [hthere, Option.some.injEq] at hbytes
      subst hbytes
      exact ⟨_, goes, file?_setFile _ _ _⟩

/-! ### What saving spares -/

/-- The files that saving is asked to write: the file itself, and the one that keeps its old
contents, if there are any and they are to be kept. -/
def AskedToWrite (settings : Settings) (p : Place) (d : Directory) (path : List String) : Prop :=
  d.folders.filePath? p = some path ∨
    settings.createBackup = true ∧ (d.read? p).isSome ∧ d.backupPath? p = some path

/-- A file cannot be broken off by saving it: it is written under another name first, or nothing
befalls the operations. -/
def Guards (d : Directory) (p : Place) : Prop :=
  p.temporary ≠ p ∨ d.IsCalm

/-- What a directory is after a file in it was saved. -/
structure IsSaved (settings : Settings) (p : Place) (new : Except UnknownFormat (List UInt8))
    (d after : Directory) : Prop where
  /-- The file holds the new contents. -/
  target : ∃ bytes, new = .ok bytes ∧ after.read? p = some bytes
  /-- Nothing is left under the first name, and every other file is as it was. -/
  others : ∀ path, ¬AskedToWrite settings p d path →
    after.file? path = if d.folders.filePath? p.temporary = some path then none else d.file? path
  /-- Every file that was not to be written is as it was if, and only if, none had the first
  name. -/
  spared_iff : (∀ path, ¬AskedToWrite settings p d path → after.file? path = d.file? path) ↔
    d.read? p.temporary = none ∨ p.temporary = p
  /-- The old contents are kept if that was asked for. -/
  backup : settings.createBackup = true → ∀ bytes, d.read? p = some bytes →
    ∃ q, p.backup? = some q ∧ after.read? q = some bytes

/-- What a directory is after a file in it could not be saved. -/
structure IsUnsaved (settings : Settings) (p : Place) (d after : Directory) : Prop where
  /-- The file is as it was. -/
  target : d.Guards p → after.read? p = d.read? p
  /-- Only a file with the first name may have changed beside those that were to be written. -/
  others : ∀ path, ¬AskedToWrite settings p d path → d.folders.filePath? p.temporary ≠ some path →
    after.file? path = d.file? path

theorem SameFiles.isUnsaved (h : d.SameFiles d') : IsUnsaved settings p d d' where
  target _ := h.read? p
  others path _ _ := h.file? path

theorem IsUnsaved.sameFiles {after : Directory} (h : IsUnsaved settings p d d')
    (hsame : d'.SameFiles after) : IsUnsaved settings p d after where
  target hguards := (hsame.read? p).trans (h.target hguards)
  others path hpath hfirst := (hsame.file? path).trans (h.others path hpath hfirst)

theorem isUnsaved_of_unkept {path : List String} (asked : settings.createBackup = true)
    (there : (d.read? (.ofName name)).isSome) (goes : d.backupPath? (.ofName name) = some path)
    (part : List UInt8) : IsUnsaved settings (.ofName name) d (d.next.setFile path part) where
  target _ := read?_setFile_backup (d := d.next) goes part
  others other hother _ := by
    rw [file?_setFile_eq, if_neg]
    · rfl
    · rintro rfl
      exact hother (.inr ⟨asked, there, goes⟩)

theorem isUnsaved_of_keeps (h : Keeps settings (.ofName name) d kept) :
    IsUnsaved settings (.ofName name) d kept where
  target _ := h.read?
  others _ hpath _ := h.file? fun hasked hthere hbackup =>
    hpath (.inr ⟨hasked, hthere, hbackup⟩)

theorem isUnsaved_of_unmoved {first : List String} (keeps : Keeps settings (.ofName name) d kept)
    (written : d.folders.filePath? (Place.ofName name).temporary = some first)
    (stuck : d.folders.filePath? (.ofName name) = none ∨ ¬d.IsCalm) (bytes : List UInt8) :
    IsUnsaved settings (.ofName name) d (kept.setFile first bytes) where
  target hguards := by
    have hfolders : (kept.setFile first bytes).folders = d.folders := keeps.folders
    cases hgoal : d.folders.filePath? (.ofName name) with
    | none => rw [Directory.read?, Directory.read?, hfolders, hgoal]; rfl
    | some goal =>
        have hbefallen : ¬d.IsCalm := stuck.resolve_left (by simp [hgoal])
        -- The new contents stand under another name, so they are in another file.
        have hother : goal ≠ first := by
          rintro rfl
          exact (hguards.resolve_right hbefallen) (temporary_eq_of_filePath? hgoal written)
        have hkept := keeps.read?
        rw [Directory.read?, keeps.folders, hgoal, Option.bind_some] at hkept
        rw [← hkept, Directory.read?, hfolders, hgoal, Option.bind_some, file?_setFile_eq,
          if_neg hother]
  others path hpath hfirst := by
    have hne : path ≠ first := by
      rintro rfl
      exact hfirst written
    rw [file?_setFile_eq, if_neg hne]
    exact (isUnsaved_of_keeps keeps).others path hpath hfirst

section Moved

variable {after : Directory} {first goal : List String} {bytes : List UInt8}
  (keeps : Keeps settings (.ofName name) d kept)
  (hfirst : d.folders.filePath? (Place.ofName name).temporary = some first)
  (hgoal : d.folders.filePath? (.ofName name) = some goal)
  (same : (((kept.setFile first bytes).eraseFile first).setFile goal bytes).SameFiles after)

include keeps same in
theorem folders_of_moved : after.folders = d.folders :=
  same.folders.trans keeps.folders

include same in
/-- Once the new contents are in place, what they replace and what had their first name are gone. -/
theorem file?_of_same (path : List String) : after.file? path =
    if path = goal then some bytes else if path = first then none else kept.file? path := by
  rw [same.file?, file?_setFile_eq, file?_eraseFile, file?_setFile_eq]
  by_cases h : path = first
  · rw [if_pos h, if_pos h]
  · rw [if_neg h, if_neg h, if_neg h]

include keeps hfirst hgoal same

theorem file?_of_moved {path : List String} (hpath : ¬AskedToWrite settings (.ofName name) d path) :
    after.file? path =
      if d.folders.filePath? (Place.ofName name).temporary = some path then none
      else d.file? path := by
  have hne : path ≠ goal := by
    rintro rfl
    exact hpath (.inl hgoal)
  have hkept : kept.file? path = d.file? path := keeps.file? fun hasked hthere hbackup =>
    hpath (.inr ⟨hasked, hthere, hbackup⟩)
  rw [file?_of_same same, if_neg hne, hfirst, hkept]
  simp only [Option.some.injEq, eq_comm]

theorem spared_iff_of_moved :
    (∀ path, ¬AskedToWrite settings (.ofName name) d path → after.file? path = d.file? path) ↔
      d.read? (Place.ofName name).temporary = none ∨
        (Place.ofName name).temporary = .ofName name := by
  constructor
  · intro hspared
    by_cases hsame : (Place.ofName name).temporary = .ofName name
    · exact .inr hsame
    · -- The file with the first name was not to be written, and it is gone.
      have hnot : ¬AskedToWrite settings (.ofName name) d first := by
        rintro (htarget | ⟨_, _, hbackup⟩)
        · exact hsame (temporary_eq_of_filePath? htarget hfirst)
        · exact backupPath?_ne_temporary hgoal hfirst hbackup
      have hgone := (hspared first hnot).symm.trans (file?_of_moved keeps hfirst hgoal same hnot)
      rw [if_pos hfirst] at hgone
      rw [Directory.read?, hfirst]
      exact .inl hgone
  · intro hfree path hpath
    rw [file?_of_moved keeps hfirst hgoal same hpath]
    split
    · next hpath' =>
        -- No file had the first name, or it is the file that was saved.
        rcases hfree with hfree | hsame
        · rw [Directory.read?, hpath', Option.bind_some] at hfree
          exact hfree.symm
        · rw [hsame] at hpath'
          exact absurd (.inl hpath') hpath
    · rfl

theorem backup_of_moved (hasked : settings.createBackup = true) {old : List UInt8}
    (hold : d.read? (.ofName name) = some old) :
    ∃ q, (Place.ofName name).backup? = some q ∧ after.read? q = some old := by
  obtain ⟨path, hbackup, hkept⟩ := keeps.backup hasked hold
  obtain ⟨q, hq, hpath⟩ := Option.bind_eq_some_iff.mp hbackup
  have hgoal' : path ≠ goal := by
    rintro rfl
    exact backupPath?_ne hgoal hbackup
  have hfirst' : path ≠ first := by
    rintro rfl
    exact backupPath?_ne_temporary hgoal hfirst hbackup
  refine ⟨q, hq, ?_⟩
  rw [Directory.read?, folders_of_moved keeps same, hpath, Option.bind_some, file?_of_same same,
    if_neg hgoal', if_neg hfirst', hkept]

theorem isSaved_of_moved : IsSaved settings (.ofName name) (.ok bytes) d after where
  target := by
    refine ⟨bytes, rfl, ?_⟩
    rw [Directory.read?, folders_of_moved keeps same, hgoal, Option.bind_some,
      file?_of_same same, if_pos rfl]
  others _ := file?_of_moved keeps hfirst hgoal same
  spared_iff := spared_iff_of_moved keeps hfirst hgoal same
  backup hasked _ := backup_of_moved keeps hfirst hgoal same hasked

end Moved

theorem SaveEnds.isUnsaved {new : Except UnknownFormat (List UInt8)} {e : SaveError}
    {after : Directory} (h : SaveEnds settings (.ofName name) new d (.error e, after)) :
    IsUnsaved settings (.ofName name) d after := by
  cases h with
  | refused e same => exact same.isUnsaved
  | unkept e asked there goes => exact isUnsaved_of_unkept asked there goes _
  | unwritten e keeps same => exact (isUnsaved_of_keeps keeps).sameFiles same
  | unmoved e keeps written same stuck =>
      exact (isUnsaved_of_unmoved keeps written stuck _).sameFiles same

theorem SaveEnds.isSaved {new : Except UnknownFormat (List UInt8)} {u : Unit} {after : Directory}
    (h : SaveEnds settings (.ofName name) new d (.ok u, after)) :
    IsSaved settings (.ofName name) new d after := by
  cases h with
  | moved holds keeps written renamed same =>
      rw [holds]
      exact isSaved_of_moved keeps written renamed same

end Directory

namespace Tree

open FileOperation

/-- What saving changes, whatever files and folders there are and whatever befalls its operations.
If it fails, the file is as it was, unless it has the first name itself and was broken off.  If it
succeeds, the file holds the new contents, the old ones are kept where that was asked for, and every
other file is as it was if, and only if, none had the name under which the new contents are written
first.  A file with that name is lost, unless it is the file that is saved. -/
theorem save_spares_others (t : Tree) (name : String) (settings : Settings) (d : Directory) :
    match on (t.save name settings) d with
    | (.ok _, after) =>
        Directory.IsSaved settings (.ofName name) (t.newContents name settings) d after
    | (.error _, after) => d.IsUnsaved settings (.ofName name) after := by
  have hends := t.save_ends name settings d
  generalize on (t.save name settings) d = result at hends
  match result with
  | (.ok _, _) => exact hends.isSaved
  | (.error _, _) => exact hends.isUnsaved

/-- A document with an older copy and with a file beside it, in the folder where one works. -/
def desk : Directory where
  folders := ⟨[], ["home"]⟩
  files := [(["home", "out.json"], [1]), (["home", "out.json.bak"], [2]),
    (["home", "out.json.tmp"], [3])]
  mishaps := []

/-- The same, and the second operation breaks off before a byte has passed. -/
def brokenOffDesk : Directory :=
  { desk with mishaps := [none, some (.cut 0 false)] }

theorem save_spares_others_desk :
    (∃ after, on (Tree.nil.save "out.json" { createBackup := true }) desk = (.ok (), after) ∧
      (∃ bytes, Tree.nil.newContents "out.json" { createBackup := true } = .ok bytes ∧
        after.read? (.ofName "out.json") = some bytes) ∧
      after.file? ["home", "out.json.tmp"] = some [3] ∧
      ∃ q, (Place.ofName "out.json").backup? = some q ∧ after.read? q = some [1]) ∧
    ∃ after, on (Tree.nil.save "/home/out.json" { createBackup := true }) brokenOffDesk =
        (.error (.temporary false .cut), after) ∧
      after.file? ["home", "out.tmp"] = some [] ∧
      after.read? (.ofName "/home/out.json") = some [1] := by
  constructor
  · have hsaved := Tree.nil.save_spares_others "out.json" { createBackup := true } desk
    have hok : (on (Tree.nil.save "out.json" { createBackup := true }) desk).1 = .ok () := rfl
    generalize on (Tree.nil.save "out.json" { createBackup := true }) desk = result at hsaved hok
    obtain ⟨r, after⟩ := result
    subst hok
    have hfree : desk.read? (Place.ofName "out.json").temporary = none := rfl
    have hnot : ¬desk.AskedToWrite { createBackup := true } (.ofName "out.json")
        ["home", "out.json.tmp"] := by
      have htarget : desk.folders.filePath? (.ofName "out.json") = some ["home", "out.json"] := rfl
      have hbackup : desk.backupPath? (.ofName "out.json") = some ["home", "out.json.bak"] := rfl
      rintro (h | ⟨_, _, h⟩)
      · simp [htarget] at h
      · simp [hbackup] at h
    exact ⟨after, rfl, hsaved.target, hsaved.spared_iff.mpr (.inl hfree) _ hnot,
      hsaved.backup rfl [1] rfl⟩
  · have hunsaved :=
      Tree.nil.save_spares_others "/home/out.json" { createBackup := true } brokenOffDesk
    have hresult : on (Tree.nil.save "/home/out.json" { createBackup := true }) brokenOffDesk =
        (.error (.temporary false .cut),
          (on (Tree.nil.save "/home/out.json" { createBackup := true }) brokenOffDesk).2) := rfl
    have hpart : (on (Tree.nil.save "/home/out.json" { createBackup := true })
        brokenOffDesk).2.file? ["home", "out.tmp"] = some [] := rfl
    rw [hresult] at hunsaved
    exact ⟨_, hresult, hpart, (hunsaved.target (.inl (by decide))).trans rfl⟩

/-- A file beside the document that has the name under which the document is written first. -/
def crowdedDesk : Directory where
  folders := ⟨[], ["home"]⟩
  files := [(["home", "out.tmp"], [110])]
  mishaps := []

/-- A file that saving is not asked to write is lost if it has the first name. -/
theorem save_loses_neighbour :
    (on (Tree.nil.save "out.json" {}) crowdedDesk).1 = .ok () ∧
      ¬crowdedDesk.AskedToWrite {} (.ofName "out.json") ["home", "out.tmp"] ∧
      crowdedDesk.file? ["home", "out.tmp"] = some [110] ∧
      (on (Tree.nil.save "out.json" {}) crowdedDesk).2.file? ["home", "out.tmp"] = none := by
  refine ⟨rfl, ?_, rfl, rfl⟩
  have htarget : crowdedDesk.folders.filePath? (.ofName "out.json") =
      some ["home", "out.json"] := rfl
  rintro (h | ⟨h, _⟩)
  · simp [htarget] at h
  · cases h

/-- A file that has the first name itself holds what has passed when its writing breaks off. -/
theorem save_cut_short (t : Tree) {name : String} {settings : Settings} {d : Directory}
    {path : List String} {format : Format} {count : Nat} {isLast : Bool}
    (hself : (Place.ofName name).temporary = .ofName name)
    (hpath : d.folders.filePath? (.ofName name) = some path)
    (hformat : fileFormat name settings = .ok format) (hbackup : settings.createBackup = false)
    (hmishap : d.mishap? = some (.cut count isLast)) :
    ∃ e after, on (t.save name settings) d = (.error e, after) ∧
      after.read? (.ofName name) =
        some ((t.fileContents (.ofName name) format settings).take count) := by
  have hplace : d.next.folders.filePath? (.ofName name) = some path := hpath
  have hwrite : ∀ contents, d.next.write d.mishap? (Place.ofName name).temporary contents =
      (.error (if isLast then .unfinished else .cut),
        d.next.setFile path (contents.take count)) := by
    intro contents
    rw [hself, hmishap]
    unfold Directory.write
    rw [hplace]
  refine ⟨.temporary (Place.ofName name).isCompressed (if isLast then .unfinished else .cut),
    d.next.setFile path ((t.fileContents (.ofName name) format settings).take count), ?_, ?_⟩
  · unfold save
    rw [on_bind, on_liftExcept, hformat]
    dsimp only [Except.mapError]
    rw [hbackup, if_neg Bool.false_ne_true, on_bind, on_writeFirst, hwrite]
    rfl
  · have hfolders : (d.next.setFile path
        ((t.fileContents (.ofName name) format settings).take count)).folders =
          d.next.folders := rfl
    rw [Directory.read?, hfolders, hplace, Option.bind_some, Directory.file?_setFile]

end Tree

end Quill
