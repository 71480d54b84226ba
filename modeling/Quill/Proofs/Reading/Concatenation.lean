import Quill.Proofs.Reading.Rendering
import Quill.Proofs.Reading.Slicing

/-!
# Reading what was joined

Two expressions with a separator between them denote the path of the first one with the path of the
second one behind it.  This takes a separator of one character that is not the backslash; it may be
a reserved character, which then separates and does nothing else.

Only a backslash looks at what stands behind it.  So an expression that does not end in one is cut
into the same tokens whatever is written behind it, and the grammar puts two derivations together at
a separator.
-/

namespace Quill.Path

variable {separator : Char}

/-! ### Tokens -/

/-- Whether a backslash takes hold is settled by the one character behind it. -/
theorem not_escapeAt_append {c : Char} {s : List Char} (h : ¬EscapeAt [separator] (c :: s))
    (hlast : (c :: s).getLast? ≠ some '\\') (rest : List Char) :
    ¬EscapeAt [separator] (c :: (s ++ rest)) := by
  cases s with
  | nil =>
      refine not_escapeAt_of_ne ?_ rest
      rintro rfl
      exact hlast rfl
  | cons d s =>
      rintro ⟨tail, htail, hcase⟩
      obtain ⟨rfl, rfl⟩ := List.cons.inj htail
      refine h ⟨d :: s, rfl, ?_⟩
      simpa [SeparatorAt] using hcase

/-- An expression that does not end in a backslash is cut into its tokens with anything behind
it. -/
theorem Scans.spelled (h : separator ≠ '\\') {s : List Char} {ts : List Token}
    (hs : Scans [separator] s ts) (hlast : s.getLast? ≠ some '\\') : Spelled separator s ts := by
  -- Along the cutting: each of its tokens stands on what the text itself holds, not on its rest.
  induction hs with
  | nil => exact spelled_nil separator
  | escapedSeparator hne htail ih =>
      have hescaped : needsEscape separator separator = true :=
        (needsEscape_iff separator).mpr (.inl rfl)
      have htaillast := getLast?_ne_of_append (s := ['\\', separator]) hlast
      exact (spelled_escaped hescaped).append (ih htaillast)
  | @escapedReserved d s ts hd hsep htail ih =>
      have hescaped : needsEscape separator d = true := (needsEscape_iff d).mpr (.inr hd)
      have htaillast := getLast?_ne_of_append (s := ['\\', d]) hlast
      exact (spelled_escaped hescaped).append (ih htaillast)
  | separator hne hesc htail ih =>
      exact (spelled_separator h).append (ih (getLast?_ne_of_append hlast))
  | @char c s ts hesc hsep htail ih =>
      intro rest
      have hbehind := ih (getLast?_ne_of_append (s := [c]) hlast) rest
      -- The separator is one character, so whether it stands here does not depend on the rest.
      rw [separatorAt_singleton, ← separatorAt_singleton c (s ++ rest)] at hsep
      rw [List.cons_append, scan_char (not_escapeAt_append hesc hlast rest) hsep, hbehind,
        List.cons_append]

theorem scan_append_separator (h : separator ≠ '\\') {s : List Char}
    (hlast : s.getLast? ≠ some '\\') (rest : List Char) :
    scan [separator] (s ++ separator :: rest) =
      scan [separator] s ++ .separator :: scan [separator] rest := by
  have hfirst : Spelled separator s (scan [separator] s) :=
    ((scans_iff _ _ _).mpr rfl).spelled h hlast
  have hseparator := spelled_separator h rest
  rw [hfirst]
  exact congrArg _ hseparator

/-! ### Derivations -/

/-- Segments behind the segments of a path. -/
theorem Derives.append {inGroup : Bool} {ts us : List Token} {p q : Path} :
    Derives inGroup ts p → Derives inGroup us q →
    Derives inGroup (ts ++ .separator :: us) (p ++ q)
  | .last segment, hq => .cons segment hq
  | .cons segment others, hq => by
      rw [List.append_assoc, List.cons_append, append_assoc]
      exact .cons segment (others.append hq)

/-! ### Expressions -/

/-- Reading takes joining with a separator to putting paths behind one another.  The first of the
two expressions must not end in a backslash, which would make the separator literal. -/
theorem ofText_append (h : separator ≠ '\\') {a b : String}
    (hlast : a.toList.getLast? ≠ some '\\') {p q : Path}
    (ha : ofText (String.singleton separator) a = .ok p)
    (hb : ofText (String.singleton separator) b = .ok q) :
    ofText (String.singleton separator) (a ++ String.singleton separator ++ b) = .ok (p ++ q) := by
  rw [ofText_eq_ok_iff] at ha hb ⊢
  have hscan := scan_append_separator h hlast b.toList
  simp only [String.toList_singleton, String.toList_append, List.append_assoc,
    List.singleton_append] at ha hb ⊢
  rw [hscan]
  exact ha.append hb

/-- A reserved character as the separator: a group with a path in it, and a key with a separator. -/
theorem ofText_append_starSample :
    '*' ≠ '\\' ∧ "a* [b,c*d] ".toList.getLast? ≠ some '\\' ∧
      ofText (String.singleton '*') "a* [b,c*d] " =
        .ok (.key "a" (.group (.key "b" (.path (ofKeys ["c", "d"]) .nil)) .nil)) ∧
      ofText (String.singleton '*') "\\*e**f" = .ok (ofKeys ["*e", "f"]) ∧
      ofText (String.singleton '*') "a* [b,c*d] *\\*e**f" =
        .ok (.key "a"
          (.group (.key "b" (.path (ofKeys ["c", "d"]) .nil)) (ofKeys ["*e", "f"]))) := by
  have h : '*' ≠ '\\' := by decide
  have hlast : "a* [b,c*d] ".toList.getLast? ≠ some '\\' := by decide
  have ha : ofText (String.singleton '*') "a* [b,c*d] " =
      .ok (.key "a" (.group (.key "b" (.path (ofKeys ["c", "d"]) .nil)) .nil)) := rfl
  have hb : ofText (String.singleton '*') "\\*e**f" = .ok (ofKeys ["*e", "f"]) := rfl
  exact ⟨h, hlast, ha, hb, ofText_append h hlast ha hb⟩

end Quill.Path
