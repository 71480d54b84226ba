import Mathlib.Algebra.GroupWithZero.Nat
import Quill.Proofs.Reading.Derivation
import Quill.Proofs.Reading.Scanning

/-!
# Reading from the left

Paths can also be read the way one reads them by eye: from the first token on, with the bracket
that closes a group looked up when the group opens, the tokens between the brackets cut at their
commas, and every slice read on its own.  A count of the open groups comes first and refuses
brackets that do not balance.

Main statements: this gives the same answer as reading the nesting from the last token to the
first, and once the count has passed, no slice at any depth meets a bracket without a partner.
-/

namespace Quill.Path

open Brackets hiding append

/-! ### Counting and cutting -/

/-- The number of groups open behind a token. -/
def levelAfter (depth : Nat) (t : Token) : Nat :=
  if t = .char '[' then depth + 1 else if t = .char ']' then depth - 1 else depth

/-- Count the open groups from the first token on. -/
def checkBalance : Nat → List Token → Except PathFlaw Unit
  | depth, [] => if depth = 0 then .ok () else .error .unclosed
  | depth, t :: rest =>
      if t = .char ']' ∧ depth = 0 then .error .unexpectedClosing
      else checkBalance (levelAfter depth t) rest

/-- The tokens inside of a group and those behind it, told apart by the bracket that closes the
group; none if it stays open. -/
def cutGroup : Nat → List Token → Option (List Token × List Token)
  | _, [] => none
  | depth, t :: rest =>
      if t = .char ']' ∧ depth = 0 then some ([], rest)
      else (cutGroup (levelAfter depth t) rest).map fun x => (t :: x.1, x.2)

/-- The slices between the commas that stand outside of the groups. -/
def cutMembers : Nat → List Token → List (List Token)
  | _, [] => [[]]
  | depth, t :: rest =>
      if t = .char ',' ∧ depth = 0 then [] :: cutMembers 0 rest
      else (cutMembers (levelAfter depth t) rest).modifyHead (t :: ·)

theorem length_cutGroup {depth : Nat} {ts inner behind : List Token}
    (h : cutGroup depth ts = some (inner, behind)) : inner.length + behind.length < ts.length := by
  induction ts generalizing depth inner with
  | nil => simp [cutGroup] at h
  | cons t rest ih =>
      rw [cutGroup] at h
      by_cases hclose : t = .char ']' ∧ depth = 0
      · rw [if_pos hclose] at h
        obtain ⟨rfl, rfl⟩ : [] = inner ∧ rest = behind := by simpa using h
        simp
      · rw [if_neg hclose, Option.map_eq_some_iff] at h
        obtain ⟨x, hx, hcons⟩ := h
        obtain ⟨rfl, rfl⟩ : t :: x.1 = inner ∧ x.2 = behind := by simpa using hcons
        have := ih hx
        simp only [List.length_cons]
        omega

/-- The slices hold all tokens but the commas between them. -/
theorem length_cutMembers (depth : Nat) (ts : List Token) :
    ∃ us others, cutMembers depth ts = us :: others ∧
      us.length + (others.map fun vs => vs.length + 1).sum = ts.length := by
  induction ts generalizing depth with
  | nil => exact ⟨[], [], rfl, rfl⟩
  | cons t rest ih =>
      rw [cutMembers]
      by_cases hcomma : t = .char ',' ∧ depth = 0
      · obtain ⟨us, others, hcut, hsum⟩ := ih 0
        refine ⟨[], us :: others, by rw [if_pos hcomma, hcut], ?_⟩
        simp only [List.length_nil, List.map_cons, List.sum_cons, List.length_cons]
        omega
      · obtain ⟨us, others, hcut, hsum⟩ := ih (levelAfter depth t)
        refine ⟨t :: us, others, by rw [if_neg hcomma, hcut]; rfl, ?_⟩
        simp only [List.length_cons]
        omega

/-! ### Reading -/

namespace Pending

/-- Whether nothing but white space has been read of the segment. -/
def isBlank : Pending → Bool
  | .text ts => ts.all Token.isBlank
  | .group _ => false

/-- The segment that two parts of it form, if they form one. -/
def join : Pending → Pending → Option Pending
  | .text ts, .text us => some (.text (ts ++ us))
  | .text ts, .group ms => if ts.all Token.isBlank then some (.group ms) else none
  | .group ms, .text us => if us.all Token.isBlank then some (.group ms) else none
  | .group _, .group _ => none

end Pending

mutual

/-- The path that tokens denote, behind a segment of which a first part has been read. -/
def sliceSegments (first : Pending) : List Token → Except PathFlaw Path
  | [] => .ok (first.close .nil)
  | t :: rest =>
      if t = .separator then (sliceSegments (.text []) rest).map first.close
      else if t = .char '[' then
        if first.isBlank then
          match _hcut : cutGroup 0 rest with
          | none => .error .unclosed
          | some (inner, behind) =>
              match sliceMembers (cutMembers 0 inner) with
              | .error flaw => .error flaw
              | .ok ms => sliceSegments (.group ms) behind
        else .error .partialSegment
      else if t = .char ']' then .error .unexpectedClosing
      else
        match first.join (.text [t]) with
        | some first => sliceSegments first rest
        | none => .error .partialSegment
termination_by ts => ts.length
decreasing_by
  · simp
  · -- The slices of a group count one more than its tokens, the brackets two more.
    obtain ⟨us, others, hcut, hsum⟩ := length_cutMembers 0 inner
    have hlength := length_cutGroup _hcut
    simp only [hcut, List.map_cons, List.sum_cons, List.length_cons]
    omega
  · have hlength := length_cutGroup _hcut
    simp only [List.length_cons]
    omega
  · simp

/-- The members that slices denote: a path where a separator or a group stands, else a key. -/
def sliceMembers : List (List Token) → Except PathFlaw Members
  | [] => .ok .nil
  | ts :: others =>
      if .separator ∈ ts ∨ .char '[' ∈ ts then
        match sliceSegments (.text []) ts with
        | .error flaw => .error flaw
        | .ok p => (sliceMembers others).map (Members.ofPath p ++ ·)
      else (sliceMembers others).map (Members.ofKeyTokens ts ++ ·)
termination_by slices => (slices.map fun ts => ts.length + 1).sum

end

/-- The path that tokens denote, read from the left. -/
def sliceTokens (ts : List Token) : Except PathFlaw Path :=
  match checkBalance 0 ts with
  | .error flaw => .error flaw
  | .ok () => sliceSegments (.text []) ts

/-! ### Balance -/

theorem levelAfter_opening (depth : Nat) : levelAfter depth (.char '[') = depth + 1 := by
  simp [levelAfter]

theorem levelAfter_closing (depth : Nat) : levelAfter (depth + 1) (.char ']') = depth := by
  simp [levelAfter]

theorem levelAfter_other {t : Token} (hopen : t ≠ .char '[') (hclose : t ≠ .char ']')
    (depth : Nat) : levelAfter depth t = depth := by
  simp [levelAfter, hopen, hclose]

/-- Counting goes on behind tokens that balance as it stood before them. -/
theorem checkBalance_tokens_append {b : Brackets} (hb : b.IsProper) (depth : Nat)
    (us : List Token) : checkBalance depth (b.tokens ++ us) = checkBalance depth us := by
  induction b generalizing depth us with
  | nil => rfl
  | token t rest ih =>
      obtain ⟨hopen, hclose, hrest⟩ := hb
      rw [Brackets.tokens, List.cons_append, checkBalance, if_neg (by simp [hclose]),
        levelAfter_other hopen hclose, ih hrest]
  | group inner rest ihInner ihRest =>
      obtain ⟨hinner, hrest⟩ := hb
      rw [Brackets.tokens, List.cons_append, checkBalance, if_neg (by simp), levelAfter_opening,
        List.append_assoc, ihInner hinner, List.cons_append, checkBalance, if_neg (by simp),
        levelAfter_closing, ihRest hrest]

/-- A token that the count takes moves the level by what it opens and closes. -/
theorem levelAfter_count {t : Token} {depth : Nat} (h : ¬(t = .char ']' ∧ depth = 0))
    (us : List Token) :
    openings (t :: us) + depth + closings us =
      openings us + levelAfter depth t + closings (t :: us) := by
  rw [openings_cons, closings_cons]
  by_cases hopen : t = .char '['
  · subst hopen
    rw [levelAfter_opening, if_pos rfl, if_neg (by simp)]
    omega
  · by_cases hclose : t = .char ']'
    · subst hclose
      obtain ⟨level, rfl⟩ : ∃ level, depth = level + 1 :=
        Nat.exists_eq_succ_of_ne_zero fun hd => h ⟨rfl, hd⟩
      rw [levelAfter_closing, if_neg hopen, if_pos rfl]
      omega
    · rw [levelAfter_other hopen hclose, if_neg hopen, if_neg hclose]
      omega

/-- A first part that closes too much is found. -/
theorem checkBalance_of_stray {depth : Nat} {ts us : List Token} (hus : us <+: ts)
    (hlt : openings us + depth < closings us) :
    checkBalance depth ts = .error .unexpectedClosing := by
  induction ts generalizing depth us with
  | nil =>
      rw [List.prefix_nil] at hus
      subst hus
      simp [closings] at hlt
  | cons t rest ih =>
      rw [checkBalance]
      by_cases hclose : t = .char ']' ∧ depth = 0
      · rw [if_pos hclose]
      · rw [if_neg hclose]
        cases us with
        | nil => simp [closings] at hlt
        | cons u us =>
            obtain ⟨rfl, hbehind⟩ := List.cons_prefix_cons.mp hus
            have hcount := levelAfter_count hclose us
            refine ih hbehind ?_
            omega

/-- With none, a group that stays open is found. -/
theorem checkBalance_of_unclosed {depth : Nat} {ts : List Token}
    (hstray : ∀ us, us <+: ts → closings us ≤ openings us + depth)
    (hne : openings ts + depth ≠ closings ts) : checkBalance depth ts = .error .unclosed := by
  induction ts generalizing depth with
  | nil =>
      have hdepth : depth ≠ 0 := by simpa [openings, closings] using hne
      rw [checkBalance, if_neg hdepth]
  | cons t rest ih =>
      -- The count cannot stop here: this one token would be a first part that closes too much.
      have hclose : ¬(t = .char ']' ∧ depth = 0) := by
        rintro ⟨rfl, rfl⟩
        have := hstray [.char ']'] (by simp)
        simp [openings, closings] at this
      rw [checkBalance, if_neg hclose]
      refine ih (fun us hus => ?_) ?_
      · have hcount := levelAfter_count hclose us
        have := hstray (t :: us) (List.cons_prefix_cons.mpr ⟨rfl, hus⟩)
        omega
      · have hcount := levelAfter_count hclose rest
        omega

/-! ### Cutting nested tokens -/

/-- The bracket that closes a group is not looked for inside of other groups. -/
theorem cutGroup_tokens_append {b : Brackets} (hb : b.IsProper) (depth : Nat) (us : List Token) :
    cutGroup depth (b.tokens ++ us) =
      (cutGroup depth us).map fun x => (b.tokens ++ x.1, x.2) := by
  induction b generalizing depth us with
  | nil => simp [Brackets.tokens]
  | token t rest ih =>
      obtain ⟨hopen, hclose, hrest⟩ := hb
      rw [Brackets.tokens, List.cons_append, cutGroup, if_neg (by simp [hclose]),
        levelAfter_other hopen hclose, ih hrest, Option.map_map]
      rfl
  | group inner rest ihInner ihRest =>
      obtain ⟨hinner, hrest⟩ := hb
      rw [Brackets.tokens, List.cons_append, cutGroup, if_neg (by simp), levelAfter_opening,
        List.append_assoc, ihInner hinner, List.cons_append, cutGroup, if_neg (by simp),
        levelAfter_closing, ihRest hrest, Option.map_map, Option.map_map, Option.map_map]
      congr 1
      funext x
      simp

/-- A group is cut at its own bracket. -/
theorem cutGroup_tokens {b : Brackets} (hb : b.IsProper) (behind : List Token) :
    cutGroup 0 (b.tokens ++ .char ']' :: behind) = some (b.tokens, behind) := by
  rw [cutGroup_tokens_append hb, cutGroup, if_pos ⟨rfl, rfl⟩]
  simp

/-- Tokens are cut at the commas of their own level alone. -/
theorem cutMembers_tokens_append {b : Brackets} (hb : b.IsProper) (depth : Nat)
    (hcomma : depth = 0 → b.NoComma) (us : List Token) :
    cutMembers depth (b.tokens ++ us) = (cutMembers depth us).modifyHead (b.tokens ++ ·) := by
  induction b generalizing depth us with
  | nil =>
      change cutMembers depth us = List.modifyHead id (cutMembers depth us)
      rw [List.modifyHead_id, id]
  | token t rest ih =>
      obtain ⟨hopen, hclose, hrest⟩ := hb
      have ht : ¬(t = .char ',' ∧ depth = 0) := fun h => (hcomma h.2).1 h.1
      rw [Brackets.tokens, List.cons_append, cutMembers, if_neg ht,
        levelAfter_other hopen hclose, ih hrest depth (fun h => (hcomma h).2),
        List.modifyHead_modifyHead]
      rfl
  | group inner rest ihInner ihRest =>
      obtain ⟨hinner, hrest⟩ := hb
      rw [Brackets.tokens, List.cons_append, cutMembers, if_neg (by simp), levelAfter_opening,
        List.append_assoc, ihInner hinner (depth + 1) (by simp), List.cons_append, cutMembers,
        if_neg (by simp), levelAfter_closing, ihRest hrest depth hcomma,
        List.modifyHead_modifyHead, List.modifyHead_modifyHead, List.modifyHead_modifyHead]
      congr 1
      funext x
      simp

/-- Without commas there is one slice. -/
theorem cutMembers_of_noComma {b : Brackets} (hb : b.IsProper) (hcomma : b.NoComma) :
    cutMembers 0 b.tokens = [b.tokens] := by
  have h := cutMembers_tokens_append hb 0 (fun _ => hcomma) []
  simpa [cutMembers] using h

/-- The first comma ends the first slice. -/
theorem cutMembers_append {b c : Brackets} (hb : b.IsProper) (hcomma : b.NoComma) :
    cutMembers 0 (b.append (.token (.char ',') c)).tokens = b.tokens :: cutMembers 0 c.tokens := by
  rw [tokens_append, cutMembers_tokens_append hb 0 (fun _ => hcomma), Brackets.tokens, cutMembers,
    if_pos ⟨rfl, rfl⟩]
  simp

/-- Nested tokens hold no comma of their own level, or a first one. -/
theorem noComma_or_append {b : Brackets} (hb : b.IsProper) :
    b.NoComma ∨ ∃ c d : Brackets, b = c.append (.token (.char ',') d) ∧ c.IsProper ∧ c.NoComma ∧
      d.IsProper := by
  induction b with
  | nil => exact .inl trivial
  | token t rest ih =>
      obtain ⟨hopen, hclose, hrest⟩ := hb
      by_cases ht : t = .char ','
      · subst ht
        exact .inr ⟨.nil, rest, rfl, trivial, trivial, hrest⟩
      · rcases ih hrest with hcomma | ⟨c, d, rfl, hc, hcomma, hd⟩
        · exact .inl ⟨ht, hcomma⟩
        · exact .inr ⟨.token t c, d, rfl, ⟨hopen, hclose, hc⟩, ⟨ht, hcomma⟩, hd⟩
  | group inner rest _ ih =>
      obtain ⟨hinner, hrest⟩ := hb
      rcases ih hrest with hcomma | ⟨c, d, rfl, hc, hcomma, hd⟩
      · exact .inl hcomma
      · exact .inr ⟨.group inner c, d, rfl, ⟨hinner, hc⟩, hcomma, hd⟩

/-! ### Parts of a segment -/

namespace Pending

@[simp] theorem join_start (x : Pending) : (Pending.text []).join x = some x := by
  cases x with
  | text ts => rfl
  | group ms => rfl

@[simp] theorem join_nil (x : Pending) : x.join (.text []) = some x := by
  cases x with
  | text ts => simp [join]
  | group ms => rfl

theorem join_token (t : Token) (x : Pending) : (Pending.text [t]).join x = x.pushToken t := by
  cases x with
  | text ts => rfl
  | group ms => simp [join, pushToken]

theorem join_group (ms : Members) (x : Pending) : (Pending.group ms).join x = x.pushGroup ms := by
  cases x with
  | text ts => rfl
  | group ns => rfl

theorem join_text (ts us : List Token) :
    (Pending.text ts).join (.text us) = some (.text (ts ++ us)) := rfl

theorem isBlank_text_append (ts us : List Token) :
    (Pending.text (ts ++ us)).isBlank = ((Pending.text ts).isBlank && (Pending.text us).isBlank) :=
  List.all_append

theorem isBlank_group (ms : Members) : (Pending.group ms).isBlank = false := rfl

/-- A group goes behind white space alone. -/
theorem join_group_right (x : Pending) (ms : Members) :
    x.join (.group ms) = if x.isBlank then some (.group ms) else none := by
  cases x with
  | text ts => rfl
  | group ns => rfl

/-- White space alone goes behind a group. -/
theorem join_group_left (ms : Members) (x : Pending) :
    (Pending.group ms).join x = if x.isBlank then some (.group ms) else none := by
  cases x with
  | text ts => rfl
  | group ns => rfl

/-- It does not matter which two of three parts are put together first. -/
theorem join_assoc (a b c : Pending) :
    ((a.join b).bind fun x => x.join c) = (b.join c).bind fun x => a.join x := by
  cases b with
  | group ms =>
      -- A group in the middle wants white space on both sides, in either order.
      rw [join_group_right, join_group_left]
      cases ha : a.isBlank <;> cases hc : c.isBlank <;>
        simp [join_group_right, join_group_left, ha, hc]
  | text us =>
      cases a with
      | group ms =>
          cases c with
          | group ns =>
              rw [join_group_right, join_group_left]
              cases (Pending.text us).isBlank <;> simp [join_group_left, isBlank_group]
          | text vs =>
              rw [join_group_left, join_text]
              cases hus : (Pending.text us).isBlank <;>
                simp [join_group_left, isBlank_text_append, hus]
      | text ts =>
          cases c with
          | group ns =>
              rw [join_text, join_group_right]
              cases hus : (Pending.text us).isBlank <;>
                simp [join_group_right, isBlank_text_append, hus]
          | text vs => simp [join_text]

end Pending

/-! ### Nested tokens -/

theorem segments_of_not_isCompound {b : Brackets} (h : b.isCompound = false) :
    segments b = some (.text b.tokens, .nil) := by
  induction b with
  | nil => rfl
  | token t rest ih =>
      obtain ⟨hsep, hrest⟩ : t ≠ .separator ∧ rest.isCompound = false := by
        simpa [isCompound] using h
      rw [segments_token hsep, ih hrest]
      rfl
  | group inner rest _ _ => simp [isCompound] at h

/-- One slice of a group is read as a path where a separator or a group stands, else as a key. -/
theorem members?_of_noComma {b : Brackets} (hb : b.IsProper) (hcomma : b.NoComma) :
    members? b =
      if .separator ∈ b.tokens ∨ .char '[' ∈ b.tokens then (path? b).map Members.ofPath
      else some (Members.ofKeyTokens b.tokens) := by
  rw [members?, members_of_noComma hcomma]
  by_cases hcompound : b.isCompound = true
  · rw [if_pos ((isCompound_iff b hb).mp hcompound), path?]
    cases segments b with
    | none => rfl
    | some x => simp [hcompound, PendingMember.close_path]
  · have hflat : b.isCompound = false := by simpa using hcompound
    rw [if_neg fun h => hcompound ((isCompound_iff b hb).mpr h),
      segments_of_not_isCompound hflat, hflat]
    simp [PendingMember.close_key]

/-- What reading from the right makes of nested tokens, behind a segment of which a first part has
been read. -/
def Brackets.pathBehind? (first : Pending) (b : Brackets) : Option Path :=
  (segments b).bind fun x => (first.join x.1).map fun segment => segment.close x.2

theorem pathBehind?_start (b : Brackets) : b.pathBehind? (.text []) = path? b := by
  rw [pathBehind?, path?]
  cases segments b with
  | none => rfl
  | some x => simp

theorem pathBehind?_separator (first : Pending) (rest : Brackets) :
    (Brackets.token .separator rest).pathBehind? first = (path? rest).map first.close := by
  rw [pathBehind?, segments_separator]
  cases path? rest with
  | none => rfl
  | some p => simp

theorem pathBehind?_token {t : Token} (h : t ≠ .separator) (first : Pending) (rest : Brackets) :
    (Brackets.token t rest).pathBehind? first =
      (first.join (.text [t])).bind fun segment => rest.pathBehind? segment := by
  rw [pathBehind?, segments_token h]
  cases hrest : segments rest with
  | none => cases first.join (.text [t]) <;> simp [pathBehind?, hrest]
  | some x =>
      have hassoc := Pending.join_assoc first (.text [t]) x.1
      have hpush : (((x.1.pushToken t).map fun y => (y, x.2)).bind fun y =>
          (first.join y.1).map fun segment => segment.close y.2) =
          ((x.1.pushToken t).bind fun y => first.join y).map fun segment => segment.close x.2 := by
        cases x.1.pushToken t <;> rfl
      rw [Option.bind_some, hpush, ← Pending.join_token, ← hassoc]
      cases first.join (.text [t]) with
      | none => rfl
      | some segment => simp [pathBehind?, hrest]

/-- A group is put together with white space alone on both sides. -/
theorem pathBehind?_group (first : Pending) (inner rest : Brackets) :
    (Brackets.group inner rest).pathBehind? first =
      if first.isBlank then (members? inner).bind fun ms => rest.pathBehind? (.group ms)
      else none := by
  rw [pathBehind?, segments_group]
  cases hrest : segments rest with
  | none => cases members? inner <;> simp [pathBehind?, hrest]
  | some x =>
      cases members? inner with
      | none => simp
      | some ms =>
          rw [Option.bind_some, Option.bind_some, ← Pending.join_group, Pending.join_group_left]
          cases hblank : x.1.isBlank <;> cases hfirst : first.isBlank <;>
            simp [pathBehind?, hrest, Pending.join_group_left, Pending.join_group_right, hblank,
              hfirst]

/-! ### Left against right -/

/-- Behind white space a group is read of its own slices, once its own bracket is found. -/
theorem sliceSegments_group {first : Pending} (hblank : first.isBlank = true)
    {rest inner behind : List Token} (hcut : cutGroup 0 rest = some (inner, behind)) :
    sliceSegments first (.char '[' :: rest) =
      match sliceMembers (cutMembers 0 inner) with
      | .error flaw => .error flaw
      | .ok ms => sliceSegments (.group ms) behind := by
  rw [sliceSegments, if_neg (by simp), if_pos rfl, if_pos hblank]
  split
  · next hnone => simp [hcut] at hnone
  · next inner' behind' hsome =>
      obtain ⟨rfl, rfl⟩ : inner = inner' ∧ behind = behind' := by simpa [hcut] using hsome
      rfl

mutual

/-- Reading nested tokens from the left comes to what reading from the right makes of them. -/
theorem sliceSegments_tokens (first : Pending) : ∀ b : Brackets, b.IsProper →
    sliceSegments first b.tokens = orPartial (b.pathBehind? first)
  | .nil, _ => by simp [tokens, sliceSegments, pathBehind?, segments]
  | .token t rest, hb => by
      obtain ⟨hopen, hclose, hrest⟩ := hb
      rw [tokens, sliceSegments]
      by_cases hsep : t = .separator
      · subst hsep
        rw [if_pos rfl, sliceSegments_tokens (.text []) rest hrest, pathBehind?_start,
          pathBehind?_separator]
        cases path? rest <;> rfl
      · rw [if_neg hsep, if_neg hopen, if_neg hclose, pathBehind?_token hsep]
        cases first.join (.text [t]) with
        | none => rfl
        | some segment => exact sliceSegments_tokens segment rest hrest
  | .group inner rest, hb => by
      obtain ⟨hinner, hrest⟩ := hb
      rw [tokens, pathBehind?_group]
      by_cases hblank : first.isBlank = true
      · rw [if_pos hblank, sliceSegments_group hblank (cutGroup_tokens hinner rest.tokens),
          sliceMembers_tokens inner hinner]
        cases members? inner with
        | none => rfl
        | some ms => exact sliceSegments_tokens (.group ms) rest hrest
      · rw [if_neg hblank, sliceSegments, if_neg (by simp), if_pos rfl, if_neg hblank]
        rfl
termination_by b => (b.tokens.length, 0)
decreasing_by
  all_goals simp only [tokens, List.length_cons, List.length_append, Prod.lex_def]
  all_goals omega

/-- The slices of a group, each read on its own, come to the members of the group. -/
theorem sliceMembers_tokens (b : Brackets) (hb : b.IsProper) :
    sliceMembers (cutMembers 0 b.tokens) = orPartial (members? b) := by
  rcases noComma_or_append hb with hcomma | ⟨c, d, hsplit, hc, hcomma, hd⟩
  · -- The one slice is as long as the group, so the measure tells the two theorems apart.
    rw [cutMembers_of_noComma hb hcomma, members?_of_noComma hb hcomma, sliceMembers]
    split
    · rw [sliceSegments_tokens (.text []) b hb, pathBehind?_start]
      cases path? b with
      | none => rfl
      | some p => simp [sliceMembers, Except.map]
    · simp [sliceMembers, Except.map]
  · have hlength : b.tokens.length = c.tokens.length + (d.tokens.length + 1) := by
      rw [hsplit, tokens_append, tokens, List.length_append, List.length_cons]
    rw [hsplit, cutMembers_append hc hcomma, members?_append, members?_of_noComma hc hcomma,
      sliceMembers, sliceMembers_tokens d hd]
    split
    · rw [sliceSegments_tokens (.text []) c hc, pathBehind?_start]
      cases path? c with
      | none => cases members? d <;> rfl
      | some p => cases members? d <;> rfl
    · cases members? d <;> rfl
termination_by (b.tokens.length, 1)
decreasing_by
  · exact Prod.Lex.right _ (by omega)
  · exact Prod.Lex.left _ _ (by omega)
  · exact Prod.Lex.left _ _ (by omega)

end

/-! ### Lists of tokens -/

/-- Reading from the left and reading the nesting from the last token to the first give the same
answer: the same path, or the same flaw. -/
theorem sliceTokens_eq_ofTokens (ts : List Token) : sliceTokens ts = ofTokens ts := by
  rw [sliceTokens]
  by_cases hstray : NoStrayClosing ts
  · by_cases hcount : openings ts = closings ts
    · obtain ⟨b, hproper, rfl, hread⟩ := ofTokens_of_isBalanced ⟨hstray, hcount⟩
      have hchecked : checkBalance 0 b.tokens = .ok () := by
        have h := checkBalance_tokens_append hproper 0 []
        rwa [List.append_nil] at h
      rw [hread, hchecked, ← pathBehind?_start]
      exact sliceSegments_tokens (.text []) b hproper
    · have hopen : checkBalance 0 ts = .error .unclosed :=
        checkBalance_of_unclosed (fun us hus => hstray us hus) hcount
      rw [ofTokens_of_unclosed hstray hcount, hopen]
  · obtain ⟨us, hus, hlt⟩ : ∃ us, us <+: ts ∧ openings us < closings us := by
      simpa [NoStrayClosing] using hstray
    rw [ofTokens_of_stray hstray, checkBalance_of_stray hus hlt]

/-- Of balanced tokens no slice at any depth holds a bracket without a partner. -/
theorem sliceSegments_of_isBalanced {ts : List Token} (h : IsBalanced ts) :
    ∃ read : Option Path, sliceSegments (.text []) ts = orPartial read := by
  obtain ⟨b, hproper, rfl, _⟩ := ofTokens_of_isBalanced h
  exact ⟨_, sliceSegments_tokens (.text []) b hproper⟩

/-! ### Expressions -/

theorem not_isBalanced_iff (ts : List Token) :
    ¬IsBalanced ts ↔ HasFlaw ts .unclosed ∨ HasFlaw ts .unexpectedClosing := by
  by_cases hstray : NoStrayClosing ts
  · simp [IsBalanced, HasFlaw, hstray]
  · simp [IsBalanced, HasFlaw, hstray]

theorem ofText_eq_ok_iff (separator s : String) (p : Path) :
    ofText separator s = .ok p ↔ Derives false (scan separator.toList s.toList) p := by
  rw [← ofTokens_eq_ok_iff, ofText]
  cases ofTokens (scan separator.toList s.toList) with
  | error flaw =>
      show Except.error (PathError.malformed s flaw) = .ok p ↔ Except.error flaw = .ok p
      simp
  | ok q =>
      show (Except.ok q : Except PathError Path) = .ok p ↔
        (Except.ok q : Except PathFlaw Path) = .ok p
      simp

theorem ofText_eq_error_iff (separator s : String) (e : PathError) :
    ofText separator s = .error e ↔
      ∃ flaw, e = .malformed s flaw ∧ HasFlaw (scan separator.toList s.toList) flaw := by
  simp only [← ofTokens_eq_error_iff]
  rw [ofText]
  cases ofTokens (scan separator.toList s.toList) with
  | error flaw =>
      show (Except.error (PathError.malformed s flaw) : Except PathError Path) = .error e ↔ _
      simp [eq_comm]
  | ok q =>
      show (Except.ok q : Except PathError Path) = .error e ↔ _
      simp

/-- What reading an expression answers.  The expression has one list of tokens.  The answer is the
path that the grammar derives from them; when it derives none, the error carries the expression, and
it is about a bracket without a partner exactly when the brackets do not balance.  Reading from the
left answers the same, and with balanced brackets it meets no bracket without a partner. -/
theorem ofText_spec (separator s : String) :
    ∃ ts, (∀ us, Scans separator.toList s.toList us ↔ us = ts) ∧
      (∀ p, ofText separator s = .ok p ↔ Derives false ts p) ∧
      (∀ e, ofText separator s = .error e ↔ ∃ flaw, e = .malformed s flaw ∧ HasFlaw ts flaw) ∧
      ((∃ flaw, (flaw = .unclosed ∨ flaw = .unexpectedClosing) ∧
        ofText separator s = .error (.malformed s flaw)) ↔ ¬IsBalanced ts) ∧
      ofText separator s = (sliceTokens ts).mapError (.malformed s) ∧
      (IsBalanced ts → ∀ flaw, sliceSegments (.text []) ts = .error flaw →
        flaw = .partialSegment) := by
  refine ⟨scan separator.toList s.toList, scans_iff _ _, ofText_eq_ok_iff separator s,
    ofText_eq_error_iff separator s, ?_, ?_, ?_⟩
  · rw [not_isBalanced_iff]
    simp only [ofText_eq_error_iff, PathError.malformed.injEq, true_and]
    constructor
    · rintro ⟨_, rfl | rfl, _, rfl, hflaw⟩
      · exact .inl hflaw
      · exact .inr hflaw
    · rintro (hflaw | hflaw)
      · exact ⟨.unclosed, .inl rfl, .unclosed, rfl, hflaw⟩
      · exact ⟨.unexpectedClosing, .inr rfl, .unexpectedClosing, rfl, hflaw⟩
  · rw [sliceTokens_eq_ofTokens]
    rfl
  · intro hbalanced flaw hread
    obtain ⟨read, hslices⟩ := sliceSegments_of_isBalanced hbalanced
    rw [hslices] at hread
    cases read with
    | none => exact (Except.error.inj hread).symm
    | some p => cases hread

end Quill.Path
