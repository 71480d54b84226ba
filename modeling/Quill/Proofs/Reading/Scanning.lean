import Quill.Path.Token

/-!
# The tokens of an expression

The rule by which an expression is cut into tokens, as a relation: a backslash directly before the
separator or a reserved character makes it literal; what is not taken by a backslash is a separator
where the separator stands, and a plain character elsewhere.  The scanner counts down the
characters of a token that it has made already; the relation has no such counter.

Main statement: the scanner answers the one list of tokens that the rule allows.
-/

namespace Quill.Path

/-- The separator stands at the head of a text.  The empty separator stands nowhere. -/
def SeparatorAt (separator s : List Char) : Prop :=
  separator ≠ [] ∧ separator <+: s

/-- A backslash that makes what follows it literal stands at the head of a text. -/
def EscapeAt (separator s : List Char) : Prop :=
  ∃ rest, s = '\\' :: rest ∧ (SeparatorAt separator rest ∨ ∃ d ∈ reserved, [d] <+: rest)

/-- The tokens into which a text is cut. -/
inductive Scans (separator : List Char) : List Char → List Token → Prop
  | nil : Scans separator [] []
  | escapedSeparator {rest : List Char} {ts : List Token} (hne : separator ≠ [])
      (htail : Scans separator rest ts) :
      Scans separator ('\\' :: (separator ++ rest)) (separator.map .escaped ++ ts)
  | escapedReserved {d : Char} {rest : List Char} {ts : List Token} (hd : d ∈ reserved)
      (hsep : ¬SeparatorAt separator (d :: rest)) (htail : Scans separator rest ts) :
      Scans separator ('\\' :: d :: rest) (.escaped d :: ts)
  | separator {rest : List Char} {ts : List Token} (hne : separator ≠ [])
      (hesc : ¬EscapeAt separator (separator ++ rest)) (htail : Scans separator rest ts) :
      Scans separator (separator ++ rest) (.separator :: ts)
  | char {c : Char} {rest : List Char} {ts : List Token}
      (hesc : ¬EscapeAt separator (c :: rest)) (hsep : ¬SeparatorAt separator (c :: rest))
      (htail : Scans separator rest ts) :
      Scans separator (c :: rest) (.char c :: ts)

/-! ### The tests of the scanner -/

theorem atSeparator_iff (separator s : List Char) :
    atSeparator separator s = true ↔ SeparatorAt separator s := by
  simp [atSeparator, SeparatorAt]

theorem reservedHead?_eq_some_iff (s : List Char) (d : Char) :
    reservedHead? s = some d ↔ d ∈ reserved ∧ [d] <+: s := by
  cases s with
  | nil => simp [reservedHead?]
  | cons c rest =>
      by_cases hc : reserved.contains c = true
      · simp only [reservedHead?, hc, if_true, Option.some.injEq, List.cons_prefix_cons,
          List.nil_prefix, and_true]
        constructor
        · rintro rfl
          exact ⟨List.contains_iff_mem.mp hc, rfl⟩
        · rintro ⟨_, rfl⟩
          rfl
      · simp only [reservedHead?, hc, List.cons_prefix_cons, List.nil_prefix, and_true]
        constructor
        · intro h
          cases h
        · rintro ⟨hd, rfl⟩
          exact absurd (List.contains_iff_mem.mpr hd) hc

/-! ### The scanner without its counter -/

theorem scanFrom_drop (separator : List Char) (skip : Nat) (s : List Char) :
    scanFrom separator skip s = scan separator (s.drop skip) := by
  induction s generalizing skip with
  | nil => cases skip <;> rfl
  | cons c rest ih =>
      cases skip with
      | zero => rfl
      | succ skip => exact ih skip

@[simp] theorem scan_nil (separator : List Char) : scan separator [] = [] := rfl

theorem scan_escapedSeparator {separator : List Char} (hne : separator ≠ []) (rest : List Char) :
    scan separator ('\\' :: (separator ++ rest)) =
      separator.map .escaped ++ scan separator rest := by
  have hat : atSeparator separator (separator ++ rest) = true :=
    (atSeparator_iff _ _).mpr ⟨hne, List.prefix_append _ _⟩
  rw [scan, scanFrom, if_pos ⟨rfl, hat⟩, scanFrom_drop, List.drop_left]

theorem scan_escapedReserved {separator : List Char} {d : Char} {rest : List Char}
    (hd : d ∈ reserved) (hsep : ¬SeparatorAt separator (d :: rest)) :
    scan separator ('\\' :: d :: rest) = .escaped d :: scan separator rest := by
  have hat : ¬atSeparator separator (d :: rest) = true := by
    rw [atSeparator_iff]
    exact hsep
  have hhead : reservedHead? (d :: rest) = some d :=
    (reservedHead?_eq_some_iff _ _).mpr ⟨hd, by simp⟩
  rw [scan, scanFrom, if_neg (fun h => hat h.2), if_pos rfl, hhead]
  simp only [scanFrom_drop, List.drop_one, List.tail_cons]

/-- Where no backslash takes hold, the scanner comes to its test for the separator. -/
theorem scan_of_not_escapeAt {separator : List Char} {c : Char} {rest : List Char}
    (hesc : ¬EscapeAt separator (c :: rest)) :
    scan separator (c :: rest) =
      if atSeparator separator (c :: rest) then
        .separator :: scanFrom separator (separator.length - 1) rest
      else .char c :: scan separator rest := by
  have hsep : ¬(c = '\\' ∧ atSeparator separator rest = true) := by
    rintro ⟨rfl, h⟩
    exact hesc ⟨rest, rfl, .inl ((atSeparator_iff _ _).mp h)⟩
  have hhead : (if c = '\\' then reservedHead? rest else none) = none := by
    by_cases hc : c = '\\'
    · rw [if_pos hc]
      cases h : reservedHead? rest with
      | none => rfl
      | some d =>
          obtain ⟨hd, hp⟩ := (reservedHead?_eq_some_iff _ _).mp h
          exact absurd ⟨rest, by rw [hc], .inr ⟨d, hd, hp⟩⟩ hesc
    · rw [if_neg hc]
  rw [scan, scanFrom, if_neg hsep, hhead]
  rfl

theorem scan_separator {separator rest : List Char} (hne : separator ≠ [])
    (hesc : ¬EscapeAt separator (separator ++ rest)) :
    scan separator (separator ++ rest) = .separator :: scan separator rest := by
  have hat : atSeparator separator (separator ++ rest) = true :=
    (atSeparator_iff _ _).mpr ⟨hne, List.prefix_append _ _⟩
  cases separator with
  | nil => exact absurd rfl hne
  | cons c cs =>
      rw [List.cons_append] at hesc hat ⊢
      rw [scan_of_not_escapeAt hesc, if_pos hat, scanFrom_drop, List.length_cons,
        Nat.add_sub_cancel, List.drop_left]

theorem scan_char {separator : List Char} {c : Char} {rest : List Char}
    (hesc : ¬EscapeAt separator (c :: rest)) (hsep : ¬SeparatorAt separator (c :: rest)) :
    scan separator (c :: rest) = .char c :: scan separator rest := by
  have hat : ¬atSeparator separator (c :: rest) = true := by
    rw [atSeparator_iff]
    exact hsep
  rw [scan_of_not_escapeAt hesc, if_neg hat]

/-! ### The scanner against the rule -/

/-- The rule allows only what the scanner answers. -/
theorem Scans.eq_scan {separator s : List Char} {ts : List Token} (h : Scans separator s ts) :
    ts = scan separator s := by
  induction h with
  | nil => rfl
  | escapedSeparator hne _ ih => rw [scan_escapedSeparator hne, ih]
  | escapedReserved hd hsep _ ih => rw [scan_escapedReserved hd hsep, ih]
  | separator hne hesc _ ih => rw [scan_separator hne hesc, ih]
  | char hesc hsep _ ih => rw [scan_char hesc hsep, ih]

/-- The rule cuts every text: at each place one of its cases applies, and what is left is
shorter. -/
theorem exists_scans (separator s : List Char) : ∃ ts, Scans separator s ts := by
  -- On the length: a token may take several characters, and the separator is of any length.
  induction hlength : s.length using Nat.strongRecOn generalizing s with
  | ind n ih =>
      subst hlength
      cases s with
      | nil => exact ⟨[], .nil⟩
      | cons c rest =>
          by_cases hesc : EscapeAt separator (c :: rest)
          · obtain ⟨tail, htail, hcase⟩ := hesc
            obtain ⟨rfl, rfl⟩ := List.cons.inj htail
            by_cases hsep : SeparatorAt separator rest
            · obtain ⟨hne, behind, rfl⟩ := hsep
              have hshort : behind.length < ('\\' :: (separator ++ behind)).length := by
                rw [List.length_cons, List.length_append]
                omega
              obtain ⟨ts, hts⟩ := ih behind.length hshort behind rfl
              exact ⟨_, .escapedSeparator hne hts⟩
            · obtain ⟨d, hd, behind, rfl⟩ := hcase.resolve_left hsep
              have hshort : behind.length < ('\\' :: ([d] ++ behind)).length := by
                rw [List.length_cons, List.length_append]
                omega
              obtain ⟨ts, hts⟩ := ih behind.length hshort behind rfl
              exact ⟨_, .escapedReserved hd hsep hts⟩
          · by_cases hsep : SeparatorAt separator (c :: rest)
            · obtain ⟨hne, behind, hbehind⟩ := hsep
              have hshort : behind.length < (c :: rest).length := by
                have hpos := List.length_pos_iff.mpr hne
                rw [← hbehind, List.length_append]
                omega
              obtain ⟨ts, hts⟩ := ih behind.length hshort behind rfl
              rw [← hbehind] at hesc ⊢
              exact ⟨_, .separator hne hesc hts⟩
            · obtain ⟨ts, hts⟩ := ih rest.length (by simp) rest rfl
              exact ⟨_, .char hesc hsep hts⟩

theorem scans_iff (separator s : List Char) (ts : List Token) :
    Scans separator s ts ↔ ts = scan separator s := by
  constructor
  · exact Scans.eq_scan
  · rintro rfl
    obtain ⟨ts, hts⟩ := exists_scans separator s
    rw [← hts.eq_scan]
    exact hts

/-- A separator token comes from a separator in the text. -/
theorem Scans.infix_of_mem {separator s : List Char} {ts : List Token} (h : Scans separator s ts)
    (hmem : .separator ∈ ts) : separator <:+: s := by
  induction h with
  | nil => cases hmem
  | @escapedSeparator rest ts _ _ ih =>
      have htail : .separator ∈ ts := by simpa using hmem
      exact (ih htail).trans ((List.suffix_append separator rest).isInfix.trans
        (List.suffix_cons _ _).isInfix)
  | escapedReserved _ _ _ ih =>
      have htail := (List.mem_cons.mp hmem).resolve_left (by simp)
      exact List.infix_cons (List.infix_cons (ih htail))
  | separator _ _ _ _ => exact (List.prefix_append _ _).isInfix
  | char _ _ _ ih =>
      have htail := (List.mem_cons.mp hmem).resolve_left (by simp)
      exact List.infix_cons (ih htail)

end Quill.Path
