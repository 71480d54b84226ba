import Quill.Files.Directory
import Quill.Files.Document

/-!
# Operations in a directory

An operation on files answers with a result or an error and leaves a directory behind.  Here stands
what sequencing does to both, and which operations change no file.

A change of a file leaves every folder alone, so a place leads to the same path before and after it.
The paths of a place and of the places of other names beside it differ in the last part only.
-/

namespace Quill

namespace Directory

/-! ### Directories with the same files -/

/-- The second directory has the files and folders of the first. -/
structure SameFiles (d d' : Directory) : Prop where
  files : d'.files = d.files
  folders : d'.folders = d.folders

/-- What operations leave that change no file. -/
structure Looked (d d' : Directory) : Prop extends SameFiles d d' where
  mishaps : d'.mishaps <:+ d.mishaps

/-- Nothing befalls the operations to come. -/
def IsCalm (d : Directory) : Prop :=
  ∀ mishap ∈ d.mishaps, mishap = none

variable {d d' d'' : Directory}

theorem SameFiles.refl (d : Directory) : SameFiles d d := ⟨rfl, rfl⟩

theorem SameFiles.trans (h : SameFiles d d') (h' : SameFiles d' d'') : SameFiles d d'' :=
  ⟨h'.files.trans h.files, h'.folders.trans h.folders⟩

theorem SameFiles.file? (h : SameFiles d d') (path : List String) :
    d'.file? path = d.file? path := by
  rw [Directory.file?, h.files, ← Directory.file?]

theorem SameFiles.read? (h : SameFiles d d') (p : Place) : d'.read? p = d.read? p := by
  unfold Directory.read?
  rw [h.folders]
  exact congrArg (Option.bind _) (funext h.file?)

theorem Looked.refl (d : Directory) : Looked d d := ⟨.refl d, List.suffix_refl _⟩

theorem Looked.trans (h : Looked d d') (h' : Looked d' d'') : Looked d d'' :=
  ⟨h.toSameFiles.trans h'.toSameFiles, h'.mishaps.trans h.mishaps⟩

theorem looked_next (d : Directory) : Looked d d.next := ⟨⟨rfl, rfl⟩, List.tail_suffix _⟩

theorem IsCalm.of_suffix (h : d.IsCalm) (hsuffix : d'.mishaps <:+ d.mishaps) : d'.IsCalm :=
  fun mishap hmishap => h mishap (hsuffix.subset hmishap)

theorem IsCalm.mishap?_eq_none (h : d.IsCalm) : d.mishap? = none := by
  unfold mishap?
  cases hmishaps : d.mishaps with
  | nil => rfl
  | cons mishap rest =>
      obtain rfl : mishap = none := h mishap (hmishaps ▸ List.mem_cons_self)
      rfl

/-! ### What an operation can do -/

variable (mishap : Option Mishap) (d : Directory) {p q : Place}

/-- A file is written as a whole, or in part, or not at all. -/
theorem write_cases (p : Place) (bytes : List UInt8) :
    (∃ path, d.folders.filePath? p = some path ∧ mishap = none ∧
        d.write mishap p bytes = (.ok (), d.setFile path bytes)) ∨
      (∃ path part e, d.folders.filePath? p = some path ∧ mishap ≠ none ∧
        d.write mishap p bytes = (.error e, d.setFile path part)) ∨
      ∃ e, d.write mishap p bytes = (.error e, d) := by
  unfold write
  cases hpath : d.folders.filePath? p with
  | none => exact .inr (.inr ⟨_, rfl⟩)
  | some path =>
      match mishap with
      | none => exact .inl ⟨path, rfl, rfl, rfl⟩
      | some .refused => exact .inr (.inr ⟨_, rfl⟩)
      | some (.cut count isLast) => exact .inr (.inl ⟨path, _, _, rfl, by simp, rfl⟩)

/-- Contents are copied as a whole, or in part, or not at all. -/
theorem copy_cases (p q : Place) :
    (∃ bytes path, d.read? p = some bytes ∧ d.folders.filePath? q = some path ∧
        d.copy mishap p q = (true, d.setFile path bytes)) ∨
      (∃ path part, (d.read? p).isSome ∧ d.folders.filePath? q = some path ∧
        d.copy mishap p q = (false, d.setFile path part)) ∨
      d.copy mishap p q = (false, d) := by
  unfold copy
  cases hbytes : d.read? p with
  | none => exact .inr (.inr rfl)
  | some bytes =>
      dsimp only
      rcases d.write_cases mishap q bytes with
        ⟨path, hpath, _, hwrite⟩ | ⟨path, part, e, hpath, _, hwrite⟩ | ⟨e, hwrite⟩
      · exact .inl ⟨bytes, path, rfl, hpath, by rw [hwrite]; rfl⟩
      · exact .inr (.inl ⟨path, part, rfl, hpath, by rw [hwrite]; rfl⟩)
      · exact .inr (.inr (by rw [hwrite]; rfl))

/-- A file is moved where that can be done and nothing befalls it, or it stays. -/
theorem rename_cases (p q : Place) :
    (∃ d', d.rename? p q = some d' ∧ d.rename mishap p q = (true, d')) ∨
      (mishap ≠ none ∨ d.rename? p q = none) ∧ d.rename mishap p q = (false, d) := by
  unfold rename
  match mishap, d.rename? p q with
  | none, some d' => exact .inl ⟨d', rfl, rfl⟩
  | none, none => exact .inr ⟨.inr rfl, rfl⟩
  | some _, none => exact .inr ⟨.inr rfl, rfl⟩
  | some _, some _ => exact .inr ⟨.inl (by simp), rfl⟩

end Directory

/-- An operation on the files of a directory that may fail. -/
abbrev FileOperation (ε : Type) := ExceptT ε (StateM Directory)

namespace FileOperation

variable {ε ε' α β : Type}

/-- What an operation answers in a directory, and the directory it leaves behind. -/
def on (x : FileOperation ε α) (d : Directory) : Except ε α × Directory :=
  x.run.run d

/-! ### Sequencing -/

theorem on_bind (x : FileOperation ε α) (f : α → FileOperation ε β) (d : Directory) :
    on (x >>= f) d =
      match on x d with
      | (.ok a, d') => on (f a) d'
      | (.error e, d') => (.error e, d') := by
  unfold on
  rw [ExceptT.run_bind, StateT.run_bind]
  cases hx : x.run.run d with
  | mk r d' =>
      cases r with
      | ok a => rfl
      | error e => rfl

theorem on_liftM (x : StateM Directory α) (d : Directory) :
    on (liftM x : FileOperation ε α) d = (.ok (x.run d).1, (x.run d).2) := rfl

theorem on_liftExcept (r : Except ε α) (d : Directory) :
    on (liftExcept r : FileOperation ε α) d = (r, d) := by
  cases r with
  | ok a => rfl
  | error e => rfl

theorem on_adapt (f : ε → ε') (x : FileOperation ε α) (d : Directory) :
    on (x.adapt f : FileOperation ε' α) d = ((on x d).1.mapError f, (on x d).2) := rfl

/-- An attempt fails if the operation is not carried out. -/
theorem on_attempt (e : SaveError) (operation : Option Mishap → Directory → Bool × Directory)
    (d : Directory) :
    on (Tree.attempt e (Directory.perform operation)) d =
      match operation d.mishap? d.next with
      | (true, d') => (.ok (), d')
      | (false, d') => (.error e, d') := by
  unfold Tree.attempt
  rw [on_bind, on_liftM]
  have hrun : (Directory.perform operation).run d = operation d.mishap? d.next := rfl
  rw [hrun]
  match operation d.mishap? d.next with
  | (true, d') => rfl
  | (false, d') => rfl

theorem on_writeFirst (p : Place) (contents : List UInt8) (d : Directory) :
    on (Tree.writeFirst p contents) d =
      match d.next.write d.mishap? p.temporary contents with
      | (r, d') => (r.mapError (SaveError.temporary p.isCompressed), d') := by
  unfold Tree.writeFirst
  rw [on_bind, on_liftM]
  dsimp only
  rw [on_liftExcept]
  rfl

/-! ### Operations that change nothing -/

/-- An operation changes no file, whether it fails or not. -/
def IsReadOnly (x : FileOperation ε α) : Prop :=
  ∀ d : Directory, d.Looked (on x d).2

theorem IsReadOnly.bind {x : FileOperation ε α} {f : α → FileOperation ε β} (hx : IsReadOnly x)
    (hf : ∀ a, IsReadOnly (f a)) : IsReadOnly (x >>= f) := by
  intro d
  have hd := hx d
  rw [on_bind]
  cases hr : on x d with
  | mk r d' =>
      rw [hr] at hd
      cases r with
      | ok a => exact hd.trans (hf a d')
      | error e => exact hd

theorem IsReadOnly.adapt {x : FileOperation ε α} (hx : IsReadOnly x) (f : ε → ε') :
    IsReadOnly (x.adapt f : FileOperation ε' α) :=
  hx

end FileOperation

/-! ### What a change of a file leaves alone -/

namespace Directory

theorem file?_eraseFile (d : Directory) (path other : List String) :
    (d.eraseFile path).file? other = if other = path then none else d.file? other := by
  unfold file? eraseFile
  induction d.files with
  | nil => simp
  | cons e rest ih =>
      obtain ⟨name, bytes⟩ := e
      by_cases hname : name = path
      · subst hname
        rw [List.filter_cons_of_neg (by simp), ih]
        by_cases hother : other = name
        · rw [if_pos hother, if_pos hother]
        · rw [if_neg hother, if_neg hother, List.lookup_cons, beq_false_of_ne hother]
      · rw [List.filter_cons_of_pos (by simpa using hname), List.lookup_cons, List.lookup_cons, ih]
        by_cases hother : other = name
        · subst hother
          simp [hname]
        · simp [beq_false_of_ne hother]

theorem file?_setFile_eq (d : Directory) (path other : List String) (bytes : List UInt8) :
    (d.setFile path bytes).file? other = if other = path then some bytes else d.file? other := by
  by_cases h : other = path
  · rw [if_pos h, h, file?_setFile]
  · have herase := d.file?_eraseFile path other
    rw [if_neg h] at herase ⊢
    -- A file that is set stands in front of what erasing leaves.
    have hfiles : (d.setFile path bytes).files = (path, bytes) :: (d.eraseFile path).files := rfl
    rw [← herase, file?, hfiles, List.lookup_cons, beq_false_of_ne h]
    rfl

end Directory

namespace Folders

/-! ### Names beside one another -/

variable {fs : Folders} {p : Place}

/-- Parts that differ in the last one only, which is a name, lead to paths that do so. -/
theorem exists_follow?_concat (fs : Folders) (front here : List String) :
    ∃ base : Option (List String), ∀ last, last ≠ Place.above →
      fs.follow? here (front ++ [last]) = base.map (· ++ [last]) := by
  induction front generalizing here with
  | nil =>
      refine ⟨some here, fun last h => ?_⟩
      simp [follow?, h]
  | cons part rest ih =>
      by_cases habove : part = Place.above
      · obtain ⟨base, hbase⟩ := ih here.dropLast
        exact ⟨base, fun last h => by simp [follow?, habove, hbase last h]⟩
      · by_cases hfolder : fs.contains (here ++ [part])
        · obtain ⟨base, hbase⟩ := ih (here ++ [part])
          exact ⟨base, fun last h => by simp [follow?, habove, hfolder, hbase last h]⟩
        · exact ⟨none, fun last _ => by simp [follow?, habove, hfolder]⟩

theorem exists_path?_withFileName (fs : Folders) (p : Place) : ∃ base : Option (List String),
    ∀ x, x ≠ Place.above → fs.path? (p.withFileName x) = base.map (· ++ [x]) :=
  fs.exists_follow?_concat p.folder (fs.start p)

/-- Different names beside one another lead to different files. -/
theorem eq_of_filePath?_withFileName {x y : String} (hx : x ≠ Place.above) (hy : y ≠ Place.above)
    {path : List String} (h : fs.filePath? (p.withFileName x) = some path)
    (h' : fs.filePath? (p.withFileName y) = some path) : x = y := by
  obtain ⟨base, hbase⟩ := fs.exists_path?_withFileName p
  have hends : ∀ z, z ≠ Place.above → fs.filePath? (p.withFileName z) = some path →
      path.getLast? = some z := by
    intro z hz hpath
    have hpath : (fs.path? (p.withFileName z)).filter (!fs.contains ·) = some path := hpath
    rw [hbase z hz] at hpath
    obtain ⟨hpath, _⟩ := Option.filter_eq_some_iff.mp hpath
    obtain ⟨front, _, hfront⟩ := Option.map_eq_some_iff.mp hpath
    rw [← hfront, List.getLast?_concat]
  have hlast := (hends x hx h).symm.trans (hends y hy h')
  exact Option.some.inj hlast

end Folders

end Quill
