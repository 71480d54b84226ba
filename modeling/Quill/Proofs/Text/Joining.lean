import Quill.Text.Items

/-!
# Cutting joined texts apart

A separator inside of a text gets a backslash in front of it before the text is joined to others, so
that cutting at the separators gives the texts back.  The mark does not say where a text ends.  A
backslash at its end takes hold of the separator behind it, and a beginning of the separator at its
end may form a separator with what follows, earlier than the one that was put there.

Main statement: without a backslash in the separator, cutting undoes marking and joining when every
text but the last ends in neither.  The separator may be longer than one character.
-/

namespace Quill.Text

/-- A text with a backslash in front of every separator. -/
def marked (separator s : List Char) : List Char :=
  replace separator ('\\' :: separator) s

/-- The end of a text is told from a separator behind it: the text ends neither in a backslash nor
in a beginning of the separator behind which the separator could go on with its own beginning. -/
def EndsClear (separator s : List Char) : Prop :=
  s.getLast? ≠ some '\\' ∧ ∀ n < separator.length, 0 < n →
    separator.drop n <+: separator → ¬separator.take n <:+ s

instance (separator s : List Char) : Decidable (EndsClear separator s) :=
  inferInstanceAs (Decidable (_ ∧ _))

/-- In front of a separator of one character only a backslash could be mistaken. -/
theorem endsClear_singleton {separator : Char} {s : List Char} (h : s.getLast? ≠ some '\\') :
    EndsClear [separator] s := by
  refine ⟨h, fun n hn hpos => ?_⟩
  rw [List.length_singleton] at hn
  omega

variable {separator : List Char}

/-- A text is empty, begins with the separator, or begins with some other character. -/
@[elab_as_elim]
theorem separatorInduction {motive : List Char → Prop} (hne : separator ≠ []) (nil : motive [])
    (here : ∀ s, motive s → motive (separator ++ s))
    (other : ∀ c s, ¬separator <+: c :: s → motive s → motive (c :: s)) (s : List Char) :
    motive s := by
  induction hlength : s.length using Nat.strongRecOn generalizing s with
  | ind n ih =>
      subst hlength
      cases s with
      | nil => exact nil
      | cons c rest =>
          by_cases hsep : separator <+: c :: rest
          · obtain ⟨behind, hbehind⟩ := hsep
            rw [← hbehind]
            have hpos := List.length_pos_iff.mpr hne
            have hshort : behind.length < (c :: rest).length := by
              rw [← hbehind, List.length_append]
              omega
            exact here behind (ih _ hshort behind rfl)
          · exact other c rest hsep (ih _ (by simp) rest rfl)

/-! ### Marking, without the counter -/

theorem replaceFrom_drop (needle by_ : List Char) (skip : Nat) (s : List Char) :
    replaceFrom needle by_ skip s = replaceFrom needle by_ 0 (s.drop skip) := by
  induction s generalizing skip with
  | nil => cases skip <;> rfl
  | cons c rest ih =>
      cases skip with
      | zero => rfl
      | succ skip => exact ih skip

theorem marked_eq (hne : separator ≠ []) (s : List Char) :
    marked separator s = replaceFrom separator ('\\' :: separator) 0 s := by
  rw [marked, replace, List.isEmpty_eq_false_iff.mpr hne, if_neg Bool.false_ne_true]

theorem marked_nil (hne : separator ≠ []) : marked separator [] = [] := by
  rw [marked_eq hne]
  rfl

theorem marked_separator (hne : separator ≠ []) (s : List Char) :
    marked separator (separator ++ s) = '\\' :: (separator ++ marked separator s) := by
  rw [marked_eq hne, marked_eq hne]
  cases separator with
  | nil => exact absurd rfl hne
  | cons d ds =>
      have hat : (d :: ds).isPrefixOf (d :: (ds ++ s)) = true := by simp
      rw [List.cons_append, replaceFrom, if_pos hat, replaceFrom_drop, List.length_cons,
        Nat.add_sub_cancel, List.drop_left]
      simp

theorem marked_cons {c : Char} {s : List Char} (h : ¬separator <+: c :: s) :
    marked separator (c :: s) = c :: marked separator s := by
  have hne : separator ≠ [] := by
    rintro rfl
    exact h List.nil_prefix
  rw [marked_eq hne, marked_eq hne, replaceFrom, if_neg]
  rwa [List.isPrefixOf_iff_prefix]

/-- Marking takes no character out of a text. -/
theorem sublist_marked {separator : List Char} (hne : separator ≠ []) (s : List Char) :
    s.Sublist (marked separator s) := by
  induction s using separatorInduction hne with
  | nil => exact List.nil_sublist _
  | here s ih =>
      rw [marked_separator hne]
      exact ((List.Sublist.refl separator).append ih).cons _
  | other c s hc ih =>
      rw [marked_cons hc]
      exact ih.cons_cons c

/-- A text without separators has no marks. -/
theorem marked_of_not_mem {separator : Char} {s : List Char} (h : separator ∉ s) :
    marked [separator] s = s := by
  induction s with
  | nil => exact marked_nil (List.cons_ne_nil _ _)
  | cons c s ih =>
      rw [List.mem_cons, not_or] at h
      rw [marked_cons (by simpa [List.cons_prefix_cons] using h.1), ih h.2]

/-! ### Cutting, without the counter -/

theorem cutFrom_drop (separator : List Char) (skip : Nat) (s : List Char) :
    cutFrom separator skip s = cutFrom separator 0 (s.drop skip) := by
  induction s generalizing skip with
  | nil => cases skip <;> rfl
  | cons c rest ih =>
      cases skip with
      | zero => rfl
      | succ skip => exact ih skip

theorem cut_marked_separator (s : List Char) :
    cutFrom separator 0 ('\\' :: (separator ++ s)) =
      (separator ++ (cutFrom separator 0 s).1, (cutFrom separator 0 s).2) := by
  have hat : ('\\' :: separator).isPrefixOf ('\\' :: (separator ++ s)) = true := by simp
  rw [cutFrom, if_pos hat, cutFrom_drop, List.drop_left]

theorem cut_separator (hne : separator ≠ []) (hslash : '\\' ∉ separator) (s : List Char) :
    cutFrom separator 0 (separator ++ s) =
      ([], (cutFrom separator 0 s).1 :: (cutFrom separator 0 s).2) := by
  cases separator with
  | nil => exact absurd rfl hne
  | cons d ds =>
      have hmark : ¬('\\' :: d :: ds).isPrefixOf (d :: (ds ++ s)) = true := by
        rw [List.isPrefixOf_iff_prefix, List.cons_prefix_cons]
        rintro ⟨rfl, _⟩
        exact hslash List.mem_cons_self
      have hat : (d :: ds).isPrefixOf (d :: (ds ++ s)) = true := by simp
      rw [List.cons_append, cutFrom, if_neg hmark, if_pos hat, cutFrom_drop, List.length_cons,
        Nat.add_sub_cancel, List.drop_left]

theorem cut_cons {c : Char} {s : List Char} (hmark : ¬('\\' :: separator <+: c :: s))
    (h : ¬separator <+: c :: s) :
    cutFrom separator 0 (c :: s) =
      (c :: (cutFrom separator 0 s).1, (cutFrom separator 0 s).2) := by
  rw [← List.isPrefixOf_iff_prefix] at hmark h
  rw [cutFrom, if_neg hmark, if_neg h]

/-! ### Cutting what was joined -/

/-- A text without a backslash that begins a marked text begins the text itself, or goes on behind
it: up to its first mark a marked text is the text. -/
theorem prefix_of_prefix_marked (hne : separator ≠ []) {p s behind : List Char} (hp : '\\' ∉ p)
    (h : p <+: marked separator s ++ behind) : p <+: s ∨ ∃ v, p = s ++ v ∧ v <+: behind := by
  induction s using separatorInduction hne generalizing p with
  | nil =>
      rw [marked_nil hne] at h
      exact .inr ⟨p, rfl, h⟩
  | here s ih =>
      rw [marked_separator hne] at h
      cases p with
      | nil => exact .inl List.nil_prefix
      | cons d p =>
          obtain ⟨rfl, _⟩ := List.cons_prefix_cons.mp h
          exact absurd List.mem_cons_self hp
  | other c s hc ih =>
      rw [marked_cons hc] at h
      cases p with
      | nil => exact .inl List.nil_prefix
      | cons d p =>
          obtain ⟨rfl, htail⟩ := List.cons_prefix_cons.mp h
          rcases ih (fun hmem => hp (List.mem_cons_of_mem _ hmem)) htail with hin | ⟨v, rfl, hv⟩
          · exact .inl (List.cons_prefix_cons.mpr ⟨rfl, hin⟩)
          · exact .inr ⟨v, rfl, hv⟩

/-- A separator at the head of a marked text, with a separator behind that, overlaps both. -/
theorem overlap_of_prefix_marked (hne : separator ≠ []) (hslash : '\\' ∉ separator)
    {s behind : List Char} (hs : s ≠ []) (hbehind : behind = [] ∨ separator <+: behind)
    (h : separator <+: marked separator s ++ behind) :
    ∃ v, v ≠ [] ∧ separator = s ++ v ∧ v <+: separator ∧ behind ≠ [] := by
  have hnot : ¬separator <+: s := by
    -- In a marked text a backslash stands where the separator would.
    rintro ⟨rest, rfl⟩
    rw [marked_separator hne] at h
    cases separator with
    | nil => exact hne rfl
    | cons d ds =>
        obtain ⟨rfl, _⟩ := List.cons_prefix_cons.mp h
        exact hslash List.mem_cons_self
  obtain ⟨v, hsplit, hv⟩ := (prefix_of_prefix_marked hne hslash h).resolve_left hnot
  have hvne : v ≠ [] := by
    rintro rfl
    rw [List.append_nil] at hsplit
    exact hnot (hsplit ▸ List.prefix_rfl)
  have hbne : behind ≠ [] := by
    rintro rfl
    exact hvne (List.prefix_nil.mp hv)
  have hlength : v.length ≤ separator.length := by
    rw [hsplit, List.length_append]
    omega
  have hborder : v <+: separator :=
    List.prefix_of_prefix_length_le hv (hbehind.resolve_left hbne) hlength
  exact ⟨v, hvne, hsplit, hborder, hbne⟩

/-- A text that ends clear does not end in what overlaps a separator. -/
theorem EndsClear.not_suffix_of_overlap {s u v : List Char} (h : EndsClear separator s)
    (hu : u ≠ []) (hv : v ≠ []) (hsplit : separator = u ++ v) (hborder : v <+: separator) :
    ¬u <:+ s := by
  have hupos := List.length_pos_iff.mpr hu
  have hvpos := List.length_pos_iff.mpr hv
  have hlt : u.length < separator.length := by
    rw [hsplit, List.length_append]
    omega
  have hdrop : separator.drop u.length <+: separator := by
    have hrest : separator.drop u.length = v := by rw [hsplit, List.drop_left]
    rwa [hrest]
  have htake : separator.take u.length = u := by rw [hsplit, List.take_left]
  have hnot := h.2 u.length hlt hupos hdrop
  rwa [htake] at hnot

theorem EndsClear.of_suffix {s s' : List Char} (h : EndsClear separator s) (hsuffix : s' <:+ s) :
    EndsClear separator s' := by
  refine ⟨fun hlast => h.1 ?_, fun n hn hpos hborder hend => ?_⟩
  · obtain ⟨front, rfl⟩ := hsuffix
    rw [List.getLast?_append, hlast]
    rfl
  · exact h.2 n hn hpos hborder (hend.trans hsuffix)

/-- Cutting goes through a marked text and gives it back in front of what is cut off behind it. -/
theorem cut_marked_append (hne : separator ≠ []) (hslash : '\\' ∉ separator) {s behind : List Char}
    (h : behind = [] ∨ separator <+: behind ∧ EndsClear separator s) :
    cutFrom separator 0 (marked separator s ++ behind) =
      (s ++ (cutFrom separator 0 behind).1, (cutFrom separator 0 behind).2) := by
  induction s using separatorInduction hne with
  | nil => rw [marked_nil hne, List.nil_append, List.nil_append]
  | here s ih =>
      have hrest := ih (h.imp_right fun ⟨hat, hclear⟩ =>
        ⟨hat, hclear.of_suffix (List.suffix_append _ _)⟩)
      rw [marked_separator hne, List.cons_append, List.append_assoc, cut_marked_separator, hrest,
        List.append_assoc]
  | other c s hc ih =>
      have hrest := ih (h.imp_right fun ⟨hat, hclear⟩ =>
        ⟨hat, hclear.of_suffix (List.suffix_cons _ _)⟩)
      have hbehind : behind = [] ∨ separator <+: behind := h.imp_right And.left
      -- Neither a separator nor a marked one begins here: it would overlap the end of the text.
      have hat : ¬separator <+: c :: (marked separator s ++ behind) := by
        intro hat
        rw [← List.cons_append, ← marked_cons hc] at hat
        obtain ⟨v, hv, hsplit, hborder, hbne⟩ :=
          overlap_of_prefix_marked hne hslash (List.cons_ne_nil c s) hbehind hat
        obtain ⟨_, hclear⟩ := h.resolve_left hbne
        exact hclear.not_suffix_of_overlap (List.cons_ne_nil c s) hv hsplit hborder
          List.suffix_rfl
      have hmark : ¬('\\' :: separator <+: c :: (marked separator s ++ behind)) := by
        intro hmark
        obtain ⟨rfl, hnext⟩ := List.cons_prefix_cons.mp hmark
        cases s with
        | nil =>
            rw [marked_nil hne, List.nil_append] at hnext
            have hbne : behind ≠ [] := by
              rintro rfl
              exact hne (List.prefix_nil.mp hnext)
            obtain ⟨_, hclear⟩ := h.resolve_left hbne
            exact hclear.1 rfl
        | cons d s =>
            obtain ⟨v, hv, hsplit, hborder, hbne⟩ :=
              overlap_of_prefix_marked hne hslash (List.cons_ne_nil d s) hbehind hnext
            obtain ⟨_, hclear⟩ := h.resolve_left hbne
            exact hclear.not_suffix_of_overlap (List.cons_ne_nil d s) hv hsplit hborder
              (List.suffix_cons _ _)
      rw [marked_cons hc, List.cons_append, cut_cons hmark hat, hrest, List.cons_append]

theorem join_cons (separator s : List Char) {rest : List (List Char)} (h : rest ≠ []) :
    join separator (s :: rest) = s ++ (separator ++ join separator rest) := by
  cases rest with
  | nil => exact absurd rfl h
  | cons s' rest => rw [join, List.append_assoc]

/-- Cutting undoes marking and joining. -/
theorem cut_join_marked (hne : separator ≠ []) (hslash : '\\' ∉ separator) {s : List Char}
    {rest : List (List Char)} (h : ∀ s' ∈ (s :: rest).dropLast, EndsClear separator s') :
    cutFrom separator 0 (join separator ((s :: rest).map (marked separator))) = (s, rest) := by
  induction rest generalizing s with
  | nil =>
      have hcut := cut_marked_append (s := s) hne hslash (.inl rfl)
      rw [List.append_nil] at hcut
      rw [List.map_singleton, join, hcut, cutFrom, List.append_nil]
  | cons s' rest ih =>
      rw [List.dropLast_cons_cons, List.forall_mem_cons] at h
      rw [List.map_cons, join_cons _ _ (by simp),
        cut_marked_append hne hslash (.inr ⟨List.prefix_append _ _, h.1⟩),
        cut_separator hne hslash, ih h.2, List.append_nil]

/-- Lists of texts with one joined text are the same. -/
theorem eq_of_join_marked_eq (hne : separator ≠ []) (hslash : '\\' ∉ separator)
    {ss ss' : List (List Char)} (hss : ss ≠ []) (hss' : ss' ≠ [])
    (h : ∀ s ∈ ss.dropLast, EndsClear separator s)
    (h' : ∀ s ∈ ss'.dropLast, EndsClear separator s)
    (heq : join separator (ss.map (marked separator)) =
      join separator (ss'.map (marked separator))) : ss = ss' := by
  obtain ⟨s, rest, rfl⟩ := List.exists_cons_of_ne_nil hss
  obtain ⟨s', rest', rfl⟩ := List.exists_cons_of_ne_nil hss'
  have hcut := cut_join_marked hne hslash h
  rw [heq, cut_join_marked hne hslash h', Prod.mk.injEq] at hcut
  rw [hcut.1, hcut.2]

end Quill.Text
