/-!
# Blank characters

The characters with the Unicode property `White_Space`, and trimming by them.
-/

namespace Quill.Text

/-- The twenty-five characters with the property `White_Space`, in code order. -/
def blanks : List Char :=
  ['\t', '\n', '\x0b', '\x0c', '\r', ' ', '\x85', '\xa0', '\u1680',
   '\u2000', '\u2001', '\u2002', '\u2003', '\u2004', '\u2005', '\u2006',
   '\u2007', '\u2008', '\u2009', '\u200a', '\u2028', '\u2029', '\u202f',
   '\u205f', '\u3000']

/-- Whether `c` is white space. -/
def isBlank (c : Char) : Bool :=
  blanks.contains c

variable {α : Type}

/-- Drop the longest run of elements satisfying `p` at the end. -/
def trimEndBy (p : α → Bool) (xs : List α) : List α :=
  (xs.reverse.dropWhile p).reverse

/-- Drop the longest runs of elements satisfying `p` at both ends. -/
def trimBy (p : α → Bool) (xs : List α) : List α :=
  trimEndBy p (xs.dropWhile p)

/-- No element satisfying `p` stands at either end. -/
def IsBare (p : α → Bool) (xs : List α) : Prop :=
  (∀ x ∈ xs.head?, p x = false) ∧ ∀ x ∈ xs.getLast?, p x = false

/-- `core` is `xs` without elements satisfying `p` at its ends, and no other one is missing. -/
def IsTrimOf (p : α → Bool) (core xs : List α) : Prop :=
  ∃ before after, xs = before ++ core ++ after ∧ (∀ x ∈ before ++ after, p x = true) ∧
    IsBare p core

theorem exists_trimEndBy (p : α → Bool) (xs : List α) :
    ∃ after, xs = trimEndBy p xs ++ after ∧ ∀ x ∈ after, p x = true := by
  refine ⟨(xs.reverse.takeWhile p).reverse, ?_, fun x hx => ?_⟩
  · rw [trimEndBy, ← List.reverse_append, List.takeWhile_append_dropWhile, List.reverse_reverse]
  · exact List.all_eq_true.mp List.all_takeWhile x (List.mem_reverse.mp hx)

theorem isBare_trimBy (p : α → Bool) (xs : List α) : IsBare p (trimBy p xs) := by
  constructor
  · intro x hx
    -- What is left after the end is trimmed begins as the list did before that.
    obtain ⟨after, hafter, _⟩ := exists_trimEndBy p (xs.dropWhile p)
    have hnot := List.head?_dropWhile_not p xs
    rw [trimBy] at hx
    rw [hafter, List.head?_append, hx] at hnot
    exact hnot
  · intro x hx
    have hnot := List.head?_dropWhile_not p (xs.dropWhile p).reverse
    rw [trimBy, trimEndBy, List.getLast?_reverse] at hx
    rw [hx] at hnot
    exact hnot

theorem isTrimOf_trimBy (p : α → Bool) (xs : List α) : IsTrimOf p (trimBy p xs) xs := by
  obtain ⟨after, hafter, hall⟩ := exists_trimEndBy p (xs.dropWhile p)
  refine ⟨xs.takeWhile p, after, ?_, fun x hx => ?_, isBare_trimBy p xs⟩
  · rw [trimBy, List.append_assoc, ← hafter, List.takeWhile_append_dropWhile]
  · rcases List.mem_append.mp hx with hx | hx
    · exact List.all_eq_true.mp List.all_takeWhile x hx
    · exact hall x hx

theorem dropWhile_eq_self {p : α → Bool} {xs : List α} (h : ∀ x ∈ xs.head?, p x = false) :
    xs.dropWhile p = xs := by
  cases xs with
  | nil => rfl
  | cons x rest => simp [h x rfl]

/-- Dropping at the ends goes as far as the bare list between them, and not into it. -/
theorem IsTrimOf.eq_trimBy {p : α → Bool} {core xs : List α} (h : IsTrimOf p core xs) :
    core = trimBy p xs := by
  obtain ⟨before, after, rfl, hall, hhead, hlast⟩ := h
  have hbefore : ∀ x ∈ before, p x = true := fun x hx => hall x (List.mem_append_left _ hx)
  have hafter : ∀ x ∈ after.reverse, p x = true := fun x hx =>
    hall x (List.mem_append_right _ (List.mem_reverse.mp hx))
  rw [trimBy, trimEndBy, List.append_assoc, List.dropWhile_append_of_pos hbefore]
  cases core with
  | nil =>
      have hnone : (after ++ []).dropWhile p = [].dropWhile p :=
        List.dropWhile_append_of_pos fun x hx => hafter x (List.mem_reverse.mpr hx)
      rw [List.append_nil] at hnone
      rw [List.nil_append, hnone]
      rfl
  | cons c core =>
      have hfront : ((c :: core) ++ after).dropWhile p = (c :: core) ++ after :=
        dropWhile_eq_self hhead
      have hback : (c :: core).reverse.dropWhile p = (c :: core).reverse := by
        refine dropWhile_eq_self fun x hx => hlast x ?_
        rwa [List.head?_reverse] at hx
      rw [hfront, List.reverse_append, List.dropWhile_append_of_pos hafter, hback,
        List.reverse_reverse]

/-- Nothing is dropped from a list exactly when it is bare at both ends. -/
theorem trimBy_eq_self_iff {p : α → Bool} {xs : List α} : trimBy p xs = xs ↔ IsBare p xs := by
  constructor
  · intro h
    rw [← h]
    exact isBare_trimBy p xs
  · intro h
    have htrim : IsTrimOf p xs xs := ⟨[], [], by simp, by simp, h⟩
    exact htrim.eq_trimBy.symm

theorem trimBy_map {β : Type} (p : β → Bool) (f : α → β) (xs : List α) :
    trimBy p (xs.map f) = (trimBy (p ∘ f) xs).map f := by
  simp only [trimBy, trimEndBy, List.dropWhile_map, ← List.map_reverse]

/-- Drop the white space at the end of a text. -/
def trimEnd (s : List Char) : List Char :=
  trimEndBy isBlank s

/-- Drop the white space at both ends of a text. -/
def trim (s : List Char) : List Char :=
  trimBy isBlank s

end Quill.Text
