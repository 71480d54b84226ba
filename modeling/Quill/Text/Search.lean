/-!
# Searching and replacing in texts

Substring search over lists of characters: occurrence, the last occurrence, and
replacement of every occurrence from left to right.
-/

namespace Quill.Text

/-- Whether `needle` occurs somewhere in the text.  The empty text occurs in every text. -/
def occurs (needle : List Char) : List Char → Bool
  | [] => needle.isEmpty
  | c :: rest => needle.isPrefixOf (c :: rest) || occurs needle rest

theorem occurs_iff (needle s : List Char) : occurs needle s = true ↔ needle <:+: s := by
  induction s with
  | nil => simp [occurs]
  | cons c rest ih =>
      rw [occurs, Bool.or_eq_true, ih, List.isPrefixOf_iff_prefix, List.infix_cons_iff]

/-- Split a text at the last occurrence of a needle, into what stands before and after it. -/
def splitLast? (needle : List Char) : List Char → Option (List Char × List Char)
  | [] => if needle.isEmpty then some ([], []) else none
  | c :: rest =>
      match splitLast? needle rest with
      | some (before, after) => some (c :: before, after)
      | none =>
          if needle.isPrefixOf (c :: rest) then
            some ([], (c :: rest).drop needle.length)
          else
            none

theorem splitLast?_eq_none_iff {needle : List Char} (hne : needle ≠ []) (s : List Char) :
    splitLast? needle s = none ↔ ¬needle <:+: s := by
  induction s with
  | nil => simp [splitLast?, hne]
  | cons c rest ih =>
      rw [splitLast?, List.infix_cons_iff, not_or, ← ih, ← List.isPrefixOf_iff_prefix]
      cases splitLast? needle rest with
      | some parts => simp
      | none => by_cases h : needle.isPrefixOf (c :: rest) = true <;> simp [h]

/-- Behind the last occurrence there is none. -/
theorem not_infix_of_splitLast? {needle s before after : List Char} (hne : needle ≠ [])
    (h : splitLast? needle s = some (before, after)) : ¬needle <:+: after := by
  induction s generalizing before with
  | nil => simp [splitLast?, hne] at h
  | cons c rest ih =>
      rw [splitLast?] at h
      cases hrest : splitLast? needle rest with
      | some parts =>
          obtain ⟨inner, behind⟩ := parts
          simp only [hrest, Option.some.injEq, Prod.mk.injEq] at h
          obtain ⟨_, rfl⟩ := h
          exact ih hrest
      | none =>
          rw [splitLast?_eq_none_iff hne] at hrest
          by_cases hstarts : needle.isPrefixOf (c :: rest) = true
          · simp only [(splitLast?_eq_none_iff hne rest).mpr hrest, hstarts, if_true,
              Option.some.injEq, Prod.mk.injEq] at h
            -- The needle has a first character, so what is behind it is an end of the rest.
            obtain ⟨d, ds, rfl⟩ := List.exists_cons_of_ne_nil hne
            rw [List.length_cons, List.drop_succ_cons] at h
            intro hinfix
            apply hrest
            rw [← h.2] at hinfix
            exact hinfix.trans (List.drop_suffix _ _).isInfix
          · simp [(splitLast?_eq_none_iff hne rest).mpr hrest, hstarts] at h

/-- Replace the occurrences of `needle` from left to right; the first `skip` characters
belong to an occurrence already replaced.  `needle` is meant to be non-empty. -/
def replaceFrom (needle by_ : List Char) : Nat → List Char → List Char
  | _, [] => []
  | skip + 1, _ :: rest => replaceFrom needle by_ skip rest
  | 0, c :: rest =>
      if needle.isPrefixOf (c :: rest) then
        by_ ++ replaceFrom needle by_ (needle.length - 1) rest
      else
        c :: replaceFrom needle by_ 0 rest

/-- Replace every occurrence of `needle`.  The empty needle occurs before every character
and at the end. -/
def replace (needle by_ s : List Char) : List Char :=
  if needle.isEmpty then
    s.foldr (fun c acc => by_ ++ c :: acc) by_
  else
    replaceFrom needle by_ 0 s

/-- Join texts with a separator between neighbours. -/
def join (separator : List Char) : List (List Char) → List Char
  | [] => []
  | [s] => s
  | s :: t :: rest => s ++ separator ++ join separator (t :: rest)

/-- The ASCII lower-case form of a text; characters outside ASCII stay. -/
def asciiLower (s : List Char) : List Char :=
  s.map Char.toLower

end Quill.Text
