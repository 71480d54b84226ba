import Quill.Path.Brackets

/-!
# Balanced brackets

Brackets that were not made literal balance when no first part of the tokens closes more groups
than it opens and the whole opens as many as it closes.  This is stated by counting, while nesting
builds the groups from the last token to the first.

Main statements: nesting succeeds on balanced tokens and nowhere else, its result spells the tokens
it was made from, and of its two errors the one for a closing bracket is reported exactly when some
first part closes too much.
-/

namespace Quill.Path

/-- The number of groups that tokens open. -/
def openings (ts : List Token) : Nat :=
  ts.count (.char '[')

/-- The number of groups that tokens close. -/
def closings (ts : List Token) : Nat :=
  ts.count (.char ']')

/-- No first part of the tokens closes more groups than it opens. -/
def NoStrayClosing (ts : List Token) : Prop :=
  ∀ us, us <+: ts → closings us ≤ openings us

/-- Every group is opened before it is closed, and all are closed. -/
def IsBalanced (ts : List Token) : Prop :=
  NoStrayClosing ts ∧ openings ts = closings ts

namespace Brackets

/-- The tokens that a nesting was made from. -/
def tokens : Brackets → List Token
  | .nil => []
  | .token t rest => t :: rest.tokens
  | .group inner rest => .char '[' :: (inner.tokens ++ .char ']' :: rest.tokens)

/-- No bracket stands in a nesting as a token. -/
def IsProper : Brackets → Prop
  | .nil => True
  | .token t rest => t ≠ .char '[' ∧ t ≠ .char ']' ∧ rest.IsProper
  | .group inner rest => inner.IsProper ∧ rest.IsProper

/-- One nesting behind another. -/
def append : Brackets → Brackets → Brackets
  | .nil, b => b
  | .token t rest, b => .token t (rest.append b)
  | .group inner rest, b => .group inner (rest.append b)

@[simp] theorem append_nil (b : Brackets) : b.append .nil = b := by
  induction b with
  | nil => rfl
  | token t rest ih => rw [append, ih]
  | group inner rest _ ih => rw [append, ih]

@[simp] theorem tokens_append (b c : Brackets) : (b.append c).tokens = b.tokens ++ c.tokens := by
  induction b with
  | nil => rfl
  | token t rest ih => simp [append, tokens, ih]
  | group inner rest _ ih => simp [append, tokens, ih]

theorem isProper_append {b c : Brackets} (hb : b.IsProper) (hc : c.IsProper) :
    (b.append c).IsProper := by
  induction b with
  | nil => exact hc
  | token t rest ih => exact ⟨hb.1, hb.2.1, ih hb.2.2⟩
  | group inner rest _ ih => exact ⟨hb.1, ih hb.2⟩

end Brackets

/-! ### Counting -/

theorem openings_cons (t : Token) (ts : List Token) :
    openings (t :: ts) = openings ts + if t = .char '[' then 1 else 0 := by
  by_cases h : t = .char '['
  · simp [openings, h]
  · simp [openings, h, List.count_cons_of_ne]

theorem closings_cons (t : Token) (ts : List Token) :
    closings (t :: ts) = closings ts + if t = .char ']' then 1 else 0 := by
  by_cases h : t = .char ']'
  · simp [closings, h]
  · simp [closings, h, List.count_cons_of_ne]

namespace Levels

/-- The levels of a list of tokens. -/
def ofTokens (ts : List Token) : Levels :=
  ts.foldr push start

theorem push_closing (l : Levels) :
    l.push (.char ']') = ⟨.nil, l.inner :: l.outer, l.unclosed⟩ := by
  simp [push]

theorem push_opening_of_nil {l : Levels} (h : l.outer = []) :
    l.push (.char '[') = ⟨l.inner, [], true⟩ := by
  simp [push, h]

theorem push_opening_of_cons {l : Levels} {next : Brackets} {outer : List Brackets}
    (h : l.outer = next :: outer) :
    l.push (.char '[') = ⟨.group l.inner next, outer, l.unclosed⟩ := by
  simp [push, h]

theorem push_other {t : Token} (hopen : t ≠ .char '[') (hclose : t ≠ .char ']') (l : Levels) :
    l.push t = ⟨.token t l.inner, l.outer, l.unclosed⟩ := by
  simp [push, hopen, hclose]

/-- The tokens of the levels from the innermost outwards, a closing bracket before each further
one. -/
def tokens (l : Levels) : List Token :=
  l.inner.tokens ++ l.outer.flatMap fun b => .char ']' :: b.tokens

/-- No level holds a bracket as a token. -/
def IsProper (l : Levels) : Prop :=
  l.inner.IsProper ∧ ∀ b ∈ l.outer, b.IsProper

/-- What the levels of a list of tokens say about it.  The open levels are the closing brackets
that found no opening one: `n` of them and one more are open exactly when some first part closes
more than `n` groups too many.  Unless an opening bracket was lost, the levels spell the tokens. -/
structure Track (ts : List Token) (l : Levels) : Prop where
  stray : ∀ n, n < l.outer.length ↔ ∃ us, us <+: ts ∧ openings us + n < closings us
  closed : l.unclosed = false → openings ts + l.outer.length = closings ts
  lost : l.unclosed = true → closings ts < openings ts + l.outer.length
  spell : l.unclosed = false → l.tokens = ts ∧ l.IsProper

theorem track_start : Track [] start where
  stray n := by simp [start, openings, closings]
  closed _ := rfl
  lost h := by simp [start] at h
  spell _ := ⟨rfl, trivial, by simp [start]⟩

/-- The first parts of a longer list are the empty one and those of the shorter list behind its
first token. -/
theorem exists_prefix_cons {t : Token} {ts : List Token} {P : List Token → Prop} (hnil : ¬P []) :
    (∃ us, us <+: t :: ts ∧ P us) ↔ ∃ us, us <+: ts ∧ P (t :: us) := by
  constructor
  · rintro ⟨us, hus, hP⟩
    cases us with
    | nil => exact absurd hP hnil
    | cons u us =>
        obtain ⟨rfl, htail⟩ := List.cons_prefix_cons.mp hus
        exact ⟨us, htail, hP⟩
  · rintro ⟨us, hus, hP⟩
    exact ⟨t :: us, List.cons_prefix_cons.mpr ⟨rfl, hus⟩, hP⟩

/-- Some first part closes more than `n` groups too many, told by what stands behind the first
token. -/
theorem stray_cons (t : Token) (ts : List Token) (n : Nat) :
    (∃ us, us <+: t :: ts ∧ openings us + n < closings us) ↔
      ∃ us, us <+: ts ∧ openings (t :: us) + n < closings (t :: us) :=
  exists_prefix_cons (by simp [openings, closings])

/-- A closing bracket opens a level. -/
theorem Track.closing {ts : List Token} {l : Levels} (h : Track ts l) :
    Track (.char ']' :: ts) (l.push (.char ']')) := by
  have hcount : ∀ us, openings (.char ']' :: us) = openings us ∧
      closings (.char ']' :: us) = closings us + 1 := by
    intro us
    simp [openings_cons, closings_cons]
  rw [push_closing]
  refine ⟨fun n => ?_, fun hu => ?_, fun hu => ?_, fun hu => ?_⟩
  · rw [stray_cons]
    simp only [hcount, List.length_cons]
    cases n with
    | zero =>
        -- The bracket alone is the first part that closes too much.
        refine ⟨fun _ => ⟨[], List.nil_prefix, ?_⟩, fun _ => by omega⟩
        simp [openings, closings]
    | succ n =>
        simp only [← Nat.add_assoc, Nat.add_lt_add_iff_right]
        exact h.stray n
  · have := h.closed hu
    simp only [hcount, List.length_cons]
    omega
  · have := h.lost hu
    simp only [hcount, List.length_cons]
    omega
  · obtain ⟨hspell, hinner, houters⟩ := h.spell hu
    refine ⟨?_, trivial, List.forall_mem_cons.mpr ⟨hinner, houters⟩⟩
    rw [← hspell]
    simp [tokens, Brackets.tokens]

/-- An opening bracket that finds no level to close is lost. -/
theorem Track.lostOpening {ts : List Token} {l : Levels} (h : Track ts l) (houter : l.outer = []) :
    Track (.char '[' :: ts) (l.push (.char '[')) := by
  have hcount : ∀ us, openings (.char '[' :: us) = openings us + 1 ∧
      closings (.char '[' :: us) = closings us := by
    intro us
    simp [openings_cons, closings_cons]
  rw [push_opening_of_nil houter]
  refine ⟨fun n => ?_, fun hu => ?_, fun _ => ?_, fun hu => ?_⟩
  · rw [stray_cons]
    simp only [hcount, List.length_nil, Nat.not_lt_zero, false_iff]
    rintro ⟨us, hus, hlt⟩
    -- Without the lost bracket such a part would close even more, and a level would be open.
    have hstray := (h.stray n).mpr ⟨us, hus, by omega⟩
    simp [houter] at hstray
  · simp at hu
  · have hlength : l.outer.length = 0 := by simp [houter]
    simp only [hcount, List.length_nil]
    cases hu : l.unclosed with
    | true =>
        have := h.lost hu
        omega
    | false =>
        have := h.closed hu
        omega
  · simp at hu

/-- An opening bracket closes the innermost level. -/
theorem Track.opening {ts : List Token} {l : Levels} (h : Track ts l) {next : Brackets}
    {outer : List Brackets} (houter : l.outer = next :: outer) :
    Track (.char '[' :: ts) (l.push (.char '[')) := by
  have hcount : ∀ us, openings (.char '[' :: us) = openings us + 1 ∧
      closings (.char '[' :: us) = closings us := by
    intro us
    simp [openings_cons, closings_cons]
  have hlength : l.outer.length = outer.length + 1 := by simp [houter]
  rw [push_opening_of_cons houter]
  refine ⟨fun n => ?_, fun hu => ?_, fun hu => ?_, fun hu => ?_⟩
  · have hstray := h.stray (n + 1)
    rw [stray_cons]
    simp only [hlength, Nat.add_lt_add_iff_right] at hstray
    simp only [hcount, Nat.add_assoc, Nat.add_comm 1 n]
    exact hstray
  · have := h.closed hu
    simp only [hcount]
    omega
  · have := h.lost hu
    simp only [hcount]
    omega
  · obtain ⟨hspell, hinner, houters⟩ := h.spell hu
    rw [houter] at houters
    obtain ⟨hnext, houters⟩ := List.forall_mem_cons.mp houters
    refine ⟨?_, ⟨hinner, hnext⟩, houters⟩
    rw [← hspell]
    simp [tokens, Brackets.tokens, houter]

/-- Any other token joins the innermost level. -/
theorem Track.other {ts : List Token} {l : Levels} (h : Track ts l) {t : Token}
    (hopen : t ≠ .char '[') (hclose : t ≠ .char ']') : Track (t :: ts) (l.push t) := by
  have hcount : ∀ us, openings (t :: us) = openings us ∧ closings (t :: us) = closings us := by
    intro us
    simp [openings_cons, closings_cons, hopen, hclose]
  rw [push_other hopen hclose]
  refine ⟨fun n => ?_, fun hu => ?_, fun hu => ?_, fun hu => ?_⟩
  · rw [stray_cons]
    simp only [hcount]
    exact h.stray n
  · simp only [hcount]
    exact h.closed hu
  · simp only [hcount]
    exact h.lost hu
  · obtain ⟨hspell, hinner, houters⟩ := h.spell hu
    refine ⟨?_, ⟨hopen, hclose, hinner⟩, houters⟩
    rw [← hspell]
    simp [tokens, Brackets.tokens]

/-- One more token keeps the track. -/
theorem Track.push {ts : List Token} {l : Levels} (h : Track ts l) (t : Token) :
    Track (t :: ts) (l.push t) := by
  by_cases hclose : t = .char ']'
  · subst hclose
    exact h.closing
  · by_cases hopen : t = .char '['
    · subst hopen
      cases houter : l.outer with
      | nil => exact h.lostOpening houter
      | cons next outer => exact h.opening houter
    · exact h.other hopen hclose

/-- The levels of a list of tokens keep track of it. -/
theorem track_ofTokens (ts : List Token) : Track ts (ofTokens ts) := by
  induction ts with
  | nil => exact track_start
  | cons t rest ih => exact ih.push t

/-- The tokens of a nesting put the nesting in front of the innermost level. -/
theorem foldr_push_tokens {b : Brackets} (hb : b.IsProper) (l : Levels) :
    b.tokens.foldr push l = ⟨b.append l.inner, l.outer, l.unclosed⟩ := by
  induction b generalizing l with
  | nil => rfl
  | token t rest ih =>
      obtain ⟨hopen, hclose, hrest⟩ := hb
      rw [Brackets.tokens, List.foldr_cons, ih hrest, push_other hopen hclose, Brackets.append]
  | group inner rest ihInner ihRest =>
      obtain ⟨hinner, hrest⟩ := hb
      rw [Brackets.tokens, List.foldr_cons, List.foldr_append, List.foldr_cons, ihRest hrest,
        push_closing, ihInner hinner, push_opening_of_cons rfl, Brackets.append_nil,
        Brackets.append]

end Levels

/-! ### Nesting -/

theorem noStrayClosing_iff (ts : List Token) :
    NoStrayClosing ts ↔ (Levels.ofTokens ts).outer = [] := by
  have hstray := (Levels.track_ofTokens ts).stray 0
  constructor
  · intro h
    cases houter : (Levels.ofTokens ts).outer with
    | nil => rfl
    | cons next outer =>
        obtain ⟨us, hus, hlt⟩ := hstray.mp (by simp [houter])
        have := h us hus
        omega
  · intro houter us hus
    refine Nat.le_of_not_lt fun hlt => ?_
    have := hstray.mpr ⟨us, hus, by omega⟩
    simp [houter] at this

/-- What nesting answers, told by the levels. -/
theorem nest_eq (ts : List Token) :
    nest ts =
      if !(Levels.ofTokens ts).outer.isEmpty then .error .unexpectedClosing
      else if (Levels.ofTokens ts).unclosed then .error .unclosed
      else .ok (Levels.ofTokens ts).inner := rfl

/-- A closing bracket too many is reported first. -/
theorem nest_of_stray {ts : List Token} (h : ¬NoStrayClosing ts) :
    nest ts = .error .unexpectedClosing := by
  rw [noStrayClosing_iff] at h
  rw [nest_eq, if_pos (by simpa using h)]

/-- Without one the only fault is a group that stays open. -/
theorem nest_of_unclosed {ts : List Token} (h : NoStrayClosing ts)
    (hcount : openings ts ≠ closings ts) : nest ts = .error .unclosed := by
  have houter := (noStrayClosing_iff ts).mp h
  have hlength : (Levels.ofTokens ts).outer.length = 0 := by simp [houter]
  cases hu : (Levels.ofTokens ts).unclosed with
  | false =>
      have := (Levels.track_ofTokens ts).closed hu
      omega
  | true => simp [nest_eq, houter, hu]

/-- Balanced tokens have a nesting, which spells them. -/
theorem nest_of_isBalanced {ts : List Token} (h : IsBalanced ts) :
    ∃ b : Brackets, nest ts = .ok b ∧ b.IsProper ∧ b.tokens = ts := by
  have htrack := Levels.track_ofTokens ts
  have houter := (noStrayClosing_iff ts).mp h.1
  have hlength : (Levels.ofTokens ts).outer.length = 0 := by simp [houter]
  cases hu : (Levels.ofTokens ts).unclosed with
  | true =>
      -- A lost opening bracket would leave fewer closings than openings.
      have := htrack.lost hu
      have := h.2
      omega
  | false =>
      obtain ⟨hspell, hproper, _⟩ := htrack.spell hu
      refine ⟨(Levels.ofTokens ts).inner, by simp [nest_eq, houter, hu], hproper, ?_⟩
      rw [Levels.tokens, houter] at hspell
      simpa using hspell

/-- Nesting takes the tokens of a nesting back to it. -/
theorem nest_tokens {b : Brackets} (hb : b.IsProper) : nest b.tokens = .ok b := by
  have hlevels : Levels.ofTokens b.tokens = ⟨b, [], false⟩ := by
    rw [Levels.ofTokens, Levels.foldr_push_tokens hb, Levels.start, Brackets.append_nil]
  rw [nest_eq, hlevels]
  rfl

end Quill.Path
