import Quill.Proofs.Reading.Slicing

/-!
# Reading a plain key

A plain key is a key as it stands, so it need not be read.  Read it can be nonetheless, with any
separator: every character is a token of itself, a backslash too, since nothing that it could take
hold of stands behind it.  What the two ways differ in is the white space at the ends of the key.
Reading drops it, and where nothing is left the path is empty.
-/

namespace Quill.Path

variable {separator : List Char}

/-- A text in which neither the separator nor a reserved character stands anywhere. -/
def IsPlainText (separator s : List Char) : Prop :=
  (separator = [] ∨ ¬separator <:+: s) ∧ ∀ c ∈ s, c ∉ reserved

theorem isPlainKey_iff (separator s : String) :
    isPlainKey separator s = true ↔ s.toList ≠ [] ∧ IsPlainText separator.toList s.toList := by
  have hoccurs : Text.occurs separator.toList s.toList = false ↔
      ¬separator.toList <:+: s.toList := by
    rw [← Text.occurs_iff, Bool.not_eq_true]
  simp [isPlainKey, IsPlainText, hoccurs, and_assoc]

/-! ### The tokens of a plain text -/

theorem IsPlainText.tail {c : Char} {s : List Char} (h : IsPlainText separator (c :: s)) :
    IsPlainText separator s := by
  refine ⟨?_, fun d hd => h.2 d (List.mem_cons_of_mem c hd)⟩
  exact h.1.imp_right fun hnone hinfix => hnone (List.infix_cons hinfix)

theorem IsPlainText.not_separatorAt {s : List Char} (h : IsPlainText separator s) :
    ¬SeparatorAt separator s := by
  rintro ⟨hne, hstarts⟩
  exact (h.1.resolve_left hne) hstarts.isInfix

theorem IsPlainText.not_escapeAt {s : List Char} (h : IsPlainText separator s) :
    ¬EscapeAt separator s := by
  rintro ⟨rest, rfl, hsep | ⟨d, hd, hstarts⟩⟩
  · exact h.tail.not_separatorAt hsep
  · exact h.tail.2 d (hstarts.subset (List.mem_singleton_self d)) hd

theorem IsPlainText.scan_eq {s : List Char} (h : IsPlainText separator s) :
    scan separator s = s.map .char := by
  induction s with
  | nil => rfl
  | cons c s ih => rw [scan_char h.not_escapeAt h.not_separatorAt, ih h.tail, List.map_cons]

/-! ### The path of a plain text -/

theorem isText_map_char {s : List Char} (h : ∀ c ∈ s, c ∉ reserved) (inGroup : Bool) :
    IsText inGroup (s.map .char) := by
  intro t ht
  obtain ⟨c, hc, rfl⟩ := List.mem_map.mp ht
  exact isText_char (h c hc) inGroup _ (List.mem_singleton_self _)

theorem keyChars_map_char (s : List Char) : keyChars (s.map .char) = Text.trim s := by
  have hblank : Token.isBlank ∘ .char = Text.isBlank := rfl
  have hchar : Token.char? ∘ .char = some := rfl
  rw [keyChars, Text.trimBy_map, hblank, List.filterMap_map, hchar, List.filterMap_some, Text.trim]

/-- A plain text denotes the one key that is left of it without the white space at its ends, or the
empty path. -/
theorem IsPlainText.ofText_eq {separator s : String}
    (h : IsPlainText separator.toList s.toList) :
    ofText separator s = .ok (if Text.trim s.toList = [] then .nil
      else .key (String.ofList (Text.trim s.toList)) .nil) := by
  have hderives : Derives false (s.toList.map .char) (ofKeyTokens (s.toList.map .char)) :=
    .last (.text (isText_map_char h.2 false))
  rw [ofText_eq_ok_iff, h.scan_eq]
  rwa [ofKeyTokens, keyChars_map_char] at hderives

end Quill.Path
