import Quill.Proofs.Reading.Balance
import Quill.Proofs.Reading.Grammar

/-!
# Reading against the grammar

Reading goes over nested tokens from the last to the first and keeps the segment, or the member,
that it is in the middle of.  The grammar splits the same tokens at separators, commas and brackets.

Completeness is shown along derivations: what is read of two parts with a separator or a comma
between them is put together from what is read of each.  Soundness is shown along the nesting: at
every token what has been read is a first segment that a derivation may begin with, and a derived
rest behind it.
-/

namespace Quill.Path

namespace Brackets

/-- The path that nested tokens denote, if they denote one. -/
def path? (b : Brackets) : Option Path :=
  (segments b).map fun (first, rest) => first.close rest

/-- The members that nested tokens denote, if they denote any. -/
def members? (b : Brackets) : Option Members :=
  (members b).map fun (member, others) => member.close others

/-- No comma stands outside of the groups. -/
def NoComma : Brackets → Prop
  | .nil => True
  | .token t rest => t ≠ .char ',' ∧ rest.NoComma
  | .group _ rest => rest.NoComma

/-- A separator or a group stands at this level. -/
def isCompound : Brackets → Bool
  | .nil => false
  | .token t rest => t = .separator || rest.isCompound
  | .group _ _ => true

/-- Tokens without groups. -/
def flat : List Token → Brackets
  | [] => .nil
  | t :: rest => .token t (flat rest)

end Brackets

open Brackets hiding append

/-! ### What is read of one more token or group -/

theorem segments_separator (rest : Brackets) :
    segments (.token .separator rest) = (path? rest).map fun p => (.text [], p) := by
  rw [segments, path?]
  cases segments rest with
  | none => rfl
  | some x => rfl

theorem segments_token {t : Token} (h : t ≠ .separator) (rest : Brackets) :
    segments (.token t rest) =
      (segments rest).bind fun x => (x.1.pushToken t).map fun first => (first, x.2) := by
  rw [segments]
  cases segments rest with
  | none => rfl
  | some x =>
      simp only [bind, Option.bind, if_neg h]
      cases x.1.pushToken t with
      | none => rfl
      | some first => rfl

theorem segments_group (inner rest : Brackets) :
    segments (.group inner rest) =
      (segments rest).bind fun x => (members? inner).bind fun ms =>
        (x.1.pushGroup ms).map fun first => (first, x.2) := by
  rw [segments, members?]
  cases segments rest with
  | none => rfl
  | some x =>
      cases members inner with
      | none => rfl
      | some y =>
          simp only [bind, Option.bind, Option.map]
          cases x.1.pushGroup (y.1.close y.2) with
          | none => rfl
          | some first => rfl

theorem members_comma (rest : Brackets) :
    members (.token (.char ',') rest) = (members? rest).map fun ms => (.start, ms) := by
  rw [members, members?]
  cases members rest with
  | none => rfl
  | some x => rfl

theorem members_separator (rest : Brackets) :
    members (.token .separator rest) =
      (members rest).map fun x => (⟨.text [], x.1.first.close x.1.rest, true⟩, x.2) := by
  rw [members]
  cases members rest with
  | none => rfl
  | some x => rfl

theorem members_token {t : Token} (hcomma : t ≠ .char ',') (hsep : t ≠ .separator)
    (rest : Brackets) :
    members (.token t rest) =
      (members rest).bind fun x =>
        (x.1.first.pushToken t).map fun first => ({ x.1 with first := first }, x.2) := by
  rw [members]
  cases members rest with
  | none => rfl
  | some x =>
      simp only [bind, Option.bind, if_neg hcomma, if_neg hsep]
      cases x.1.first.pushToken t with
      | none => rfl
      | some first => rfl

theorem members_group (inner rest : Brackets) :
    members (.group inner rest) =
      (members rest).bind fun x => (members? inner).bind fun ms =>
        (x.1.first.pushGroup ms).map fun first =>
          ({ x.1 with first := first, isPath := true }, x.2) := by
  rw [members, members?]
  cases members rest with
  | none => rfl
  | some x =>
      cases members inner with
      | none => rfl
      | some y =>
          simp only [bind, Option.bind, Option.map]
          cases x.1.first.pushGroup (y.1.close y.2) with
          | none => rfl
          | some first => rfl

/-! ### Parts with a separator or a comma between them -/

theorem segments_append {b c : Brackets} {x : Pending × Path} {q : Path}
    (hb : segments b = some x) (hc : path? c = some q) :
    segments (b.append (.token .separator c)) = some (x.1, x.2 ++ q) := by
  -- Reading starts at the last token, so the second part is done when the first one begins.
  induction b generalizing x with
  | nil =>
      simp only [segments, Option.some.injEq] at hb
      subst hb
      rw [Brackets.append, segments_separator, hc]
      rfl
  | token t rest ih =>
      by_cases ht : t = .separator
      · subst ht
        rw [segments_separator, path?, Option.map_map, Option.map_eq_some_iff] at hb
        obtain ⟨y, hy, rfl⟩ := hb
        rw [Brackets.append, segments_separator, path?, ih hy]
        simp [Pending.close_append]
      · rw [segments_token ht, Option.bind_eq_some_iff] at hb
        obtain ⟨y, hy, hpush⟩ := hb
        obtain ⟨first, hfirst, rfl⟩ := Option.map_eq_some_iff.mp hpush
        rw [Brackets.append, segments_token ht, ih hy]
        simp [hfirst]
  | group inner rest _ ih =>
      rw [segments_group, Option.bind_eq_some_iff] at hb
      obtain ⟨y, hy, hpush⟩ := hb
      obtain ⟨ms, hms, hpush⟩ := Option.bind_eq_some_iff.mp hpush
      obtain ⟨first, hfirst, rfl⟩ := Option.map_eq_some_iff.mp hpush
      rw [Brackets.append, segments_group, ih hy]
      simp [hms, hfirst]

theorem path?_append {b c : Brackets} {p q : Path} (hb : path? b = some p)
    (hc : path? c = some q) : path? (b.append (.token .separator c)) = some (p ++ q) := by
  obtain ⟨x, hx, rfl⟩ := Option.map_eq_some_iff.mp hb
  rw [path?, segments_append hx hc]
  simp [Pending.close_append]

/-- What stands behind a member stays behind it. -/
theorem PendingMember.close_append (m : PendingMember) (ms ns : Members) :
    m.close (ms ++ ns) = m.close ms ++ ns := by
  unfold close
  cases m.isPath with
  | true => cases m.first.close m.rest <;> rfl
  | false => cases m.first.close m.rest <;> rfl

theorem members_append (b c : Brackets) :
    members (b.append (.token (.char ',') c)) =
      (members? c).bind fun ns => (members b).map fun x => (x.1, x.2 ++ ns) := by
  induction b with
  | nil =>
      rw [Brackets.append, members_comma]
      cases members? c with
      | none => rfl
      | some ns => rfl
  | token t rest ih =>
      by_cases hcomma : t = .char ','
      · subst hcomma
        rw [Brackets.append, members_comma, members_comma]
        simp only [members?] at ih ⊢
        rw [ih]
        cases members c with
        | none => rfl
        | some y => cases members rest <;> simp [PendingMember.close_append]
      · by_cases hsep : t = .separator
        · subst hsep
          rw [Brackets.append, members_separator, members_separator, ih]
          cases members? c with
          | none => rfl
          | some ns => cases members rest <;> rfl
        · rw [Brackets.append, members_token hcomma hsep, members_token hcomma hsep, ih]
          cases members? c with
          | none => rfl
          | some ns =>
              cases members rest with
              | none => rfl
              | some x => cases h : x.1.first.pushToken t <;> simp [h]
  | group inner rest _ ih =>
      rw [Brackets.append, members_group, members_group, ih]
      cases members? c with
      | none => rfl
      | some ns =>
          cases members rest with
          | none => rfl
          | some x =>
              cases members? inner with
              | none => rfl
              | some ms => cases h : x.1.first.pushGroup ms <;> simp [h]

theorem members?_append (b c : Brackets) :
    members? (b.append (.token (.char ',') c)) =
      (members? c).bind fun ns => (members? b).map (· ++ ns) := by
  rw [members?, members_append]
  cases members? c with
  | none => rfl
  | some ns =>
      rw [members?]
      cases members b with
      | none => rfl
      | some x => simp [PendingMember.close_append]

/-- A member without commas is read like a path; a separator or a group marks it as one. -/
theorem members_of_noComma {b : Brackets} (hb : b.NoComma) :
    members b = (segments b).map fun x => (⟨x.1, x.2, b.isCompound⟩, .nil) := by
  induction b with
  | nil => rfl
  | token t rest ih =>
      obtain ⟨hcomma, hrest⟩ := hb
      by_cases hsep : t = .separator
      · subst hsep
        rw [members_separator, segments_separator, ih hrest, path?]
        cases segments rest with
        | none => rfl
        | some x => rfl
      · rw [members_token hcomma hsep, segments_token hsep, ih hrest]
        cases segments rest with
        | none => rfl
        | some x => cases h : x.1.pushToken t <;> simp [isCompound, hsep, h]
  | group inner rest _ ih =>
      rw [members_group, segments_group, ih hb]
      cases segments rest with
      | none => rfl
      | some x =>
          cases members? inner with
          | none => rfl
          | some ms => cases h : x.1.pushGroup ms <;> simp [isCompound, h]

/-! ### Tokens without groups -/

@[simp] theorem tokens_flat (ts : List Token) : (flat ts).tokens = ts := by
  induction ts with
  | nil => rfl
  | cons t rest ih => rw [flat, tokens, ih]

theorem isText_cons (inGroup : Bool) (t : Token) (ts : List Token) :
    IsText inGroup (t :: ts) ↔
      (t ≠ .separator ∧ t ≠ .char '[' ∧ t ≠ .char ']' ∧ (inGroup = true → t ≠ .char ',')) ∧
        IsText inGroup ts :=
  List.forall_mem_cons

theorem isProper_flat {inGroup : Bool} {ts : List Token} (h : IsText inGroup ts) :
    (flat ts).IsProper := by
  induction ts with
  | nil => trivial
  | cons t rest ih =>
      obtain ⟨⟨_, hopen, hclose, _⟩, hrest⟩ := (isText_cons _ _ _).mp h
      exact ⟨hopen, hclose, ih hrest⟩

theorem noComma_flat {ts : List Token} (h : IsText true ts) : (flat ts).NoComma := by
  induction ts with
  | nil => trivial
  | cons t rest ih =>
      obtain ⟨⟨_, _, _, hcomma⟩, hrest⟩ := (isText_cons _ _ _).mp h
      exact ⟨hcomma rfl, ih hrest⟩

theorem isCompound_flat {inGroup : Bool} {ts : List Token} (h : IsText inGroup ts) :
    (flat ts).isCompound = false := by
  induction ts with
  | nil => rfl
  | cons t rest ih =>
      obtain ⟨⟨hsep, _, _, _⟩, hrest⟩ := (isText_cons _ _ _).mp h
      simp [flat, isCompound, hsep, ih hrest]

theorem segments_flat {inGroup : Bool} {ts : List Token} (h : IsText inGroup ts) :
    segments (flat ts) = some (.text ts, .nil) := by
  induction ts with
  | nil => rfl
  | cons t rest ih =>
      obtain ⟨⟨hsep, _, _, _⟩, hrest⟩ := (isText_cons _ _ _).mp h
      rw [flat, segments_token hsep, ih hrest]
      rfl

/-- White space is a text everywhere. -/
theorem IsBlankText.isText {ts : List Token} (h : IsBlankText ts) (inGroup : Bool) :
    IsText inGroup ts := by
  intro t ht
  have hblank := h t ht
  refine ⟨?_, ?_, ?_, fun _ => ?_⟩
  · rintro rfl
    simp [Token.isBlank] at hblank
  · rintro rfl
    revert hblank
    decide
  · rintro rfl
    revert hblank
    decide
  · rintro rfl
    revert hblank
    decide

/-- White space before a group leaves the group. -/
theorem segments_blank_append {ts : List Token} (hts : IsBlankText ts) {b : Brackets}
    {ms : Members} {p : Path} (hb : segments b = some (.group ms, p)) :
    segments ((flat ts).append b) = some (.group ms, p) := by
  induction ts with
  | nil => exact hb
  | cons t rest ih =>
      obtain ⟨hblank, hrest⟩ := List.forall_mem_cons.mp hts
      obtain ⟨hsep, _, _, _⟩ := (hts.isText false) t (by simp)
      rw [flat, Brackets.append, segments_token hsep, ih hrest]
      simp [Pending.pushToken, hblank]

/-- White space behind a group leaves the group. -/
theorem segments_group_blank {ts : List Token} {inner : Brackets} {ms : Members}
    (hinner : members? inner = some ms) (hts : IsBlankText ts) :
    segments (.group inner (flat ts)) = some (.group ms, .nil) := by
  have hall : ts.all Token.isBlank = true := List.all_eq_true.mpr hts
  rw [segments_group, segments_flat (hts.isText false), hinner]
  simp only [Option.bind_some, Option.map_some, Pending.pushGroup, hall, if_true]

/-! ### Completeness -/

/-- Nested tokens that spell a list of tokens; in a group without loose commas. -/
structure Spells (inGroup : Bool) (ts : List Token) (b : Brackets) : Prop where
  proper : b.IsProper
  tokens_eq : b.tokens = ts
  noComma : inGroup = true → b.NoComma

theorem noComma_append {b c : Brackets} (hb : b.NoComma) (hc : c.NoComma) :
    (b.append c).NoComma := by
  induction b with
  | nil => exact hc
  | token t rest ih => exact ⟨hb.1, ih hb.2⟩
  | group inner rest _ ih => exact ih hb

theorem spells_flat {inGroup : Bool} {ts : List Token} (h : IsText inGroup ts) :
    Spells inGroup ts (flat ts) := by
  refine ⟨isProper_flat h, tokens_flat ts, fun hgroup => ?_⟩
  subst hgroup
  exact noComma_flat h

/-- The nesting of two parts with a separator between them. -/
theorem Spells.separated {inGroup : Bool} {ts us : List Token} {b c : Brackets}
    (hb : Spells inGroup ts b) (hc : Spells inGroup us c) :
    Spells inGroup (ts ++ .separator :: us) (b.append (.token .separator c)) := by
  refine ⟨isProper_append hb.proper ⟨by simp, by simp, hc.proper⟩, ?_, fun hgroup => ?_⟩
  · rw [tokens_append, tokens, hb.tokens_eq, hc.tokens_eq]
  · exact noComma_append (hb.noComma hgroup) ⟨by simp, hc.noComma hgroup⟩

/-- The nesting of a group with white space beside it. -/
theorem spells_group {inGroup : Bool} {before ts after : List Token} {c : Brackets}
    (hbefore : IsBlankText before) (hc : Spells false ts c) (hafter : IsBlankText after) :
    Spells inGroup (before ++ .char '[' :: (ts ++ .char ']' :: after))
      ((flat before).append (.group c (flat after))) := by
  refine ⟨?_, ?_, fun _ => ?_⟩
  · exact isProper_append (isProper_flat (hbefore.isText false))
      ⟨hc.proper, isProper_flat (hafter.isText false)⟩
  · rw [tokens_append, tokens, tokens_flat, tokens_flat, hc.tokens_eq]
  · exact noComma_append (noComma_flat (hbefore.isText true)) (noComma_flat (hafter.isText true))

/-- Whether a separator or a group stands at this level shows in the tokens. -/
theorem isCompound_iff (b : Brackets) (hb : b.IsProper) :
    b.isCompound = true ↔ .separator ∈ b.tokens ∨ .char '[' ∈ b.tokens := by
  induction b with
  | nil => simp [isCompound, tokens]
  | token t rest ih =>
      obtain ⟨hopen, _, hrest⟩ := hb
      by_cases hsep : t = .separator
      · simp [isCompound, tokens, hsep]
      · simp [isCompound, tokens, hsep, Ne.symm hsep, Ne.symm hopen, ih hrest]
  | group inner rest _ _ => simp [isCompound, tokens]

mutual

/-- What the grammar derives as a path is read as this path. -/
theorem Derives.exists_path? {inGroup : Bool} {ts : List Token} {p : Path} :
    Derives inGroup ts p → ∃ b, Spells inGroup ts b ∧ path? b = some p
  | .last segment => segment.exists_path?
  | .cons segment others => by
      obtain ⟨b, hb, hpb⟩ := segment.exists_path?
      obtain ⟨c, hc, hpc⟩ := others.exists_path?
      exact ⟨_, hb.separated hc, path?_append hpb hpc⟩

theorem DerivesSegment.exists_path? {inGroup : Bool} {ts : List Token} {p : Path} :
    DerivesSegment inGroup ts p → ∃ b, Spells inGroup ts b ∧ path? b = some p
  | .text text => by
      refine ⟨_, spells_flat text, ?_⟩
      rw [path?, segments_flat text]
      simp [Pending.close_text]
  | .group before_blank members after_blank => by
      obtain ⟨c, hc, hms⟩ := members.exists_members?
      refine ⟨_, spells_group before_blank hc after_blank, ?_⟩
      rw [path?, segments_blank_append before_blank (segments_group_blank hms after_blank)]
      simp [Pending.close_group]

theorem DerivesMembers.exists_members? {ts : List Token} {ms : Members} :
    DerivesMembers ts ms → ∃ b, Spells false ts b ∧ members? b = some ms
  | .last member => by
      obtain ⟨b, hb, hms⟩ := member.exists_members?
      exact ⟨b, ⟨hb.proper, hb.tokens_eq, by simp⟩, hms⟩
  | .cons member others => by
      obtain ⟨b, hb, hmb⟩ := member.exists_members?
      obtain ⟨c, hc, hmc⟩ := others.exists_members?
      refine ⟨b.append (.token (.char ',') c), ⟨?_, ?_, by simp⟩, ?_⟩
      · exact isProper_append hb.proper ⟨by simp, by simp, hc.proper⟩
      · rw [tokens_append, tokens, hb.tokens_eq, hc.tokens_eq]
      · rw [members?_append, hmb, hmc]
        rfl

theorem DerivesMember.exists_members? {ts : List Token} {ms : Members} :
    DerivesMember ts ms → ∃ b, Spells true ts b ∧ members? b = some ms
  | .key text => by
      refine ⟨_, spells_flat text, ?_⟩
      rw [members?, members_of_noComma (noComma_flat text), segments_flat text,
        isCompound_flat text]
      simp [PendingMember.close_key]
  | .path segments compound => by
      obtain ⟨b, hb, hp⟩ := segments.exists_path?
      obtain ⟨x, hx, rfl⟩ := Option.map_eq_some_iff.mp hp
      -- Without this the member would be closed as a key.
      have hcompound : b.isCompound = true := by
        rw [isCompound_iff b hb.proper, hb.tokens_eq]
        exact compound
      refine ⟨b, hb, ?_⟩
      rw [members?, members_of_noComma (hb.noComma rfl), hx, hcompound]
      simp [PendingMember.close_path]

end

/-! ### Soundness -/

/-- Tokens that a derivation may begin with and the segment that is being read of them. -/
inductive Begins (inGroup : Bool) : List Token → Pending → Prop
  | text {ts : List Token} (text : IsText inGroup ts) : Begins inGroup ts (.text ts)
  | group {before ts after : List Token} {ms : Members} (before_blank : IsBlankText before)
      (members : DerivesMembers ts ms) (after_blank : IsBlankText after) :
      Begins inGroup (before ++ .char '[' :: (ts ++ .char ']' :: after)) (.group ms)

/-- Tokens behind a segment and the path they denote: none, or a separator and a path. -/
inductive Follows (inGroup : Bool) : List Token → Path → Prop
  | nil : Follows inGroup [] .nil
  | cons {ts : List Token} {p : Path} (segments : Derives inGroup ts p) :
      Follows inGroup (.separator :: ts) p

/-- Tokens behind a member and the members they denote: none, or a comma and members. -/
inductive OthersFollow : List Token → Members → Prop
  | nil : OthersFollow [] .nil
  | cons {ts : List Token} {ms : Members} (members : DerivesMembers ts ms) :
      OthersFollow (.char ',' :: ts) ms

/-- A first segment and what follows it form a path. -/
theorem Begins.close {inGroup : Bool} {us vs : List Token} {first : Pending} {p : Path}
    (hus : Begins inGroup us first) (hvs : Follows inGroup vs p) :
    Derives inGroup (us ++ vs) (first.close p) := by
  have hsegment : DerivesSegment inGroup us (first.close .nil) := by
    cases hus with
    | text text =>
        rw [Pending.close_text, append_nil]
        exact .text text
    | group before_blank members after_blank =>
        rw [Pending.close_group, append_nil]
        exact .group before_blank members after_blank
  cases hvs with
  | nil =>
      rw [List.append_nil]
      exact .last hsegment
  | cons segments =>
      rw [← nil_append p, Pending.close_append]
      exact .cons hsegment segments

/-- One more token of a text joins the first segment. -/
theorem Begins.pushToken {inGroup : Bool} {us : List Token} {first first' : Pending} {t : Token}
    (hus : Begins inGroup us first) (ht : IsText inGroup [t])
    (hpush : first.pushToken t = some first') : Begins inGroup (t :: us) first' := by
  cases hus with
  | text text =>
      simp only [Pending.pushToken, Option.some.injEq] at hpush
      subst hpush
      exact .text ((isText_cons _ _ _).mpr ⟨ht t (by simp), text⟩)
  | @group before ts after ms before_blank members after_blank =>
      by_cases hblank : t.isBlank = true
      · simp only [Pending.pushToken, hblank, if_true, Option.some.injEq] at hpush
        subst hpush
        have hbefore : IsBlankText (t :: before) := List.forall_mem_cons.mpr ⟨hblank, before_blank⟩
        exact .group hbefore members after_blank
      · simp [Pending.pushToken, hblank] at hpush

/-- A group before white space is a first segment of its own. -/
theorem Begins.pushGroup {inGroup : Bool} {us ts : List Token} {first first' : Pending}
    {ms : Members} (hus : Begins inGroup us first) (hts : DerivesMembers ts ms)
    (hpush : first.pushGroup ms = some first') :
    Begins inGroup (.char '[' :: (ts ++ .char ']' :: us)) first' := by
  cases hus with
  | text text =>
      by_cases hall : us.all Token.isBlank = true
      · simp only [Pending.pushGroup, hall, if_true, Option.some.injEq] at hpush
        subst hpush
        have hnone : IsBlankText [] := by simp [IsBlankText]
        exact @Begins.group inGroup [] ts us ms hnone hts (List.all_eq_true.mp hall)
      · simp [Pending.pushGroup, hall] at hpush
  | group before_blank members after_blank => simp [Pending.pushGroup] at hpush

/-- What has been read of a path: its first segment and the path behind that. -/
def Reads (inGroup : Bool) (ts : List Token) (first : Pending) (rest : Path) : Prop :=
  ∃ us vs, ts = us ++ vs ∧ Begins inGroup us first ∧ Follows inGroup vs rest

/-- What has been read of the members of a group: the first member, of which a separator or a
group shows in its tokens, and the others. -/
def ReadsMembers (ts : List Token) (m : PendingMember) (others : Members) : Prop :=
  ∃ us vs, ts = us ++ vs ∧ Reads true us m.first m.rest ∧
    (m.isPath = true ↔ .separator ∈ us ∨ .char '[' ∈ us) ∧ OthersFollow vs others

theorem Reads.close {inGroup : Bool} {ts : List Token} {first : Pending} {rest : Path}
    (h : Reads inGroup ts first rest) : Derives inGroup ts (first.close rest) := by
  obtain ⟨us, vs, rfl, hus, hvs⟩ := h
  exact hus.close hvs

/-- Without a separator and without a group a member is one text. -/
theorem Reads.member_of_text {us : List Token} {first : Pending} {rest : Path}
    (h : Reads true us first rest) (hnone : ¬(.separator ∈ us ∨ .char '[' ∈ us)) :
    DerivesMember us (PendingMember.close ⟨first, rest, false⟩ .nil) := by
  obtain ⟨ts, ws, rfl, hts, hws⟩ := h
  cases hws with
  | cons segments => exact absurd (.inl (by simp)) hnone
  | nil =>
      cases hts with
      | group before_blank members after_blank => exact absurd (.inr (by simp)) hnone
      | text text =>
          rw [PendingMember.close_key, Members.append_nil, List.append_nil]
          exact .key text

/-- A first member and the others form the members of a group. -/
theorem ReadsMembers.close {ts : List Token} {m : PendingMember} {others : Members}
    (h : ReadsMembers ts m others) : DerivesMembers ts (m.close others) := by
  obtain ⟨us, vs, rfl, hus, hpath, hvs⟩ := h
  have hmember : DerivesMember us (m.close .nil) := by
    cases hp : m.isPath with
    | true =>
        rw [PendingMember.close_path hp, Members.append_nil]
        exact .path hus.close (hpath.mp hp)
    | false =>
        obtain ⟨first, rest, isPath⟩ := m
        simp only at hp hus hpath
        subst hp
        exact hus.member_of_text fun h => by simpa using hpath.mpr h
  cases hvs with
  | nil =>
      rw [List.append_nil]
      exact .last hmember
  | @cons us others members =>
      rw [← Members.nil_append others, PendingMember.close_append]
      exact .cons hmember members

/-- Before a separator a new segment begins. -/
theorem Reads.separator {inGroup : Bool} {ts : List Token} {first : Pending} {rest : Path}
    (h : Reads inGroup ts first rest) :
    Reads inGroup (.separator :: ts) (.text []) (first.close rest) :=
  ⟨[], _, rfl, .text (by simp [IsText]), .cons h.close⟩

theorem Reads.pushToken {inGroup : Bool} {ts : List Token} {first first' : Pending} {rest : Path}
    {t : Token} (h : Reads inGroup ts first rest) (ht : IsText inGroup [t])
    (hpush : first.pushToken t = some first') : Reads inGroup (t :: ts) first' rest := by
  obtain ⟨us, vs, rfl, hus, hvs⟩ := h
  exact ⟨t :: us, vs, rfl, hus.pushToken ht hpush, hvs⟩

theorem Reads.pushGroup {inGroup : Bool} {ts us : List Token} {first first' : Pending}
    {rest : Path} {ms : Members} (h : Reads inGroup ts first rest) (hus : DerivesMembers us ms)
    (hpush : first.pushGroup ms = some first') :
    Reads inGroup (.char '[' :: (us ++ .char ']' :: ts)) first' rest := by
  obtain ⟨ts, vs, rfl, hts, hvs⟩ := h
  exact ⟨_, vs, by simp, hts.pushGroup hus hpush, hvs⟩

/-- Before a comma a new member begins. -/
theorem ReadsMembers.comma {ts : List Token} {m : PendingMember} {others : Members}
    (h : ReadsMembers ts m others) :
    ReadsMembers (.char ',' :: ts) .start (m.close others) := by
  refine ⟨[], _, rfl, ?_, ?_, .cons h.close⟩
  · exact ⟨[], [], rfl, .text (by simp [IsText]), .nil⟩
  · simp [PendingMember.start]

theorem ReadsMembers.separator {ts : List Token} {m : PendingMember} {others : Members}
    (h : ReadsMembers ts m others) :
    ReadsMembers (.separator :: ts) ⟨.text [], m.first.close m.rest, true⟩ others := by
  obtain ⟨us, vs, rfl, hus, _, hvs⟩ := h
  exact ⟨.separator :: us, vs, rfl, hus.separator, by simp, hvs⟩

theorem ReadsMembers.pushToken {ts : List Token} {m : PendingMember} {others : Members}
    {first : Pending} {t : Token} (h : ReadsMembers ts m others) (ht : IsText true [t])
    (hpush : m.first.pushToken t = some first) :
    ReadsMembers (t :: ts) { m with first := first } others := by
  obtain ⟨us, vs, rfl, hus, hpath, hvs⟩ := h
  obtain ⟨hsep, hopen, _, _⟩ := ht t (by simp)
  refine ⟨t :: us, vs, rfl, hus.pushToken ht hpush, ?_, hvs⟩
  simpa [Ne.symm hsep, Ne.symm hopen] using hpath

theorem ReadsMembers.pushGroup {ts inner : List Token} {m : PendingMember} {others ms : Members}
    {first : Pending} (h : ReadsMembers ts m others) (hinner : DerivesMembers inner ms)
    (hpush : m.first.pushGroup ms = some first) :
    ReadsMembers (.char '[' :: (inner ++ .char ']' :: ts))
      { m with first := first, isPath := true } others := by
  obtain ⟨us, vs, rfl, hus, _, hvs⟩ := h
  exact ⟨_, vs, by simp, hus.pushGroup hinner hpush, by simp, hvs⟩

/-- What is read of nested tokens is derived by the grammar, both as a path and as the members of
a group: at every token the part behind it has been read already. -/
theorem reads_of_brackets {b : Brackets} (hb : b.IsProper) :
    (∀ inGroup x, (inGroup = true → b.NoComma) → segments b = some x →
      Reads inGroup b.tokens x.1 x.2) ∧
    (∀ y, members b = some y → ReadsMembers b.tokens y.1 y.2) := by
  -- Both readings at once: a group of a path is read as members, whose groups are read so again.
  induction b with
  | nil =>
      refine ⟨fun inGroup x _ hx => ?_, fun y hy => ?_⟩
      · rw [segments, Option.some.injEq] at hx
        subst hx
        exact ⟨[], [], rfl, .text (by simp [IsText]), .nil⟩
      · rw [members, Option.some.injEq] at hy
        subst hy
        exact ⟨[], [], rfl, ⟨[], [], rfl, .text (by simp [IsText]), .nil⟩,
          by simp [PendingMember.start], .nil⟩
  | token t rest ih =>
      obtain ⟨hopen, hclose, hrest⟩ := hb
      obtain ⟨ihSegments, ihMembers⟩ := ih hrest
      refine ⟨fun inGroup x hcomma hx => ?_, fun y hy => ?_⟩
      · by_cases hsep : t = .separator
        · subst hsep
          rw [segments_separator, path?, Option.map_map, Option.map_eq_some_iff] at hx
          obtain ⟨z, hz, rfl⟩ := hx
          exact (ihSegments inGroup z (fun h => (hcomma h).2) hz).separator
        · rw [segments_token hsep, Option.bind_eq_some_iff] at hx
          obtain ⟨z, hz, hpush⟩ := hx
          obtain ⟨first, hfirst, rfl⟩ := Option.map_eq_some_iff.mp hpush
          have ht : IsText inGroup [t] := by
            simpa [IsText] using ⟨hsep, hopen, hclose, fun h => (hcomma h).1⟩
          exact (ihSegments inGroup z (fun h => (hcomma h).2) hz).pushToken ht hfirst
      · by_cases hcomma : t = .char ','
        · subst hcomma
          rw [members_comma, members?, Option.map_map, Option.map_eq_some_iff] at hy
          obtain ⟨z, hz, rfl⟩ := hy
          exact (ihMembers z hz).comma
        · by_cases hsep : t = .separator
          · subst hsep
            rw [members_separator, Option.map_eq_some_iff] at hy
            obtain ⟨z, hz, rfl⟩ := hy
            exact (ihMembers z hz).separator
          · rw [members_token hcomma hsep, Option.bind_eq_some_iff] at hy
            obtain ⟨z, hz, hpush⟩ := hy
            obtain ⟨first, hfirst, rfl⟩ := Option.map_eq_some_iff.mp hpush
            have ht : IsText true [t] := by
              simpa [IsText] using ⟨hsep, hopen, hclose, hcomma⟩
            exact (ihMembers z hz).pushToken ht hfirst
  | group inner rest ihInner ihRest =>
      obtain ⟨hinner, hrest⟩ := hb
      obtain ⟨ihSegments, ihMembers⟩ := ihRest hrest
      have hmembers : ∀ ms, members? inner = some ms → DerivesMembers inner.tokens ms := by
        intro ms hms
        obtain ⟨z, hz, rfl⟩ := Option.map_eq_some_iff.mp hms
        exact ((ihInner hinner).2 z hz).close
      refine ⟨fun inGroup x hcomma hx => ?_, fun y hy => ?_⟩
      · rw [segments_group, Option.bind_eq_some_iff] at hx
        obtain ⟨z, hz, hpush⟩ := hx
        obtain ⟨ms, hms, hpush⟩ := Option.bind_eq_some_iff.mp hpush
        obtain ⟨first, hfirst, rfl⟩ := Option.map_eq_some_iff.mp hpush
        exact (ihSegments inGroup z hcomma hz).pushGroup (hmembers ms hms) hfirst
      · rw [members_group, Option.bind_eq_some_iff] at hy
        obtain ⟨z, hz, hpush⟩ := hy
        obtain ⟨ms, hms, hpush⟩ := Option.bind_eq_some_iff.mp hpush
        obtain ⟨first, hfirst, rfl⟩ := Option.map_eq_some_iff.mp hpush
        exact (ihMembers z hz).pushGroup (hmembers ms hms) hfirst

/-! ### Lists of tokens -/

/-- What was read, or the one flaw that balanced tokens can have. -/
def orPartial {α : Type} : Option α → Except PathFlaw α
  | some a => .ok a
  | none => .error .partialSegment

@[simp] theorem orPartial_some {α : Type} (a : α) : orPartial (some a) = .ok a := rfl

@[simp] theorem orPartial_none {α : Type} :
    orPartial (none : Option α) = .error .partialSegment := rfl

theorem ofBrackets_eq (b : Brackets) : ofBrackets b = orPartial (path? b) := by
  rw [ofBrackets, path?]
  cases segments b with
  | none => rfl
  | some x => rfl

theorem ofTokens_of_stray {ts : List Token} (h : ¬NoStrayClosing ts) :
    ofTokens ts = .error .unexpectedClosing := by
  rw [ofTokens, nest_of_stray h]
  rfl

theorem ofTokens_of_unclosed {ts : List Token} (h : NoStrayClosing ts)
    (hcount : openings ts ≠ closings ts) : ofTokens ts = .error .unclosed := by
  rw [ofTokens, nest_of_unclosed h hcount]
  rfl

/-- With balanced brackets reading comes to the nesting. -/
theorem ofTokens_of_isBalanced {ts : List Token} (h : IsBalanced ts) :
    ∃ b : Brackets, b.IsProper ∧ b.tokens = ts ∧ ofTokens ts = orPartial (path? b) := by
  obtain ⟨b, hnest, hproper, htokens⟩ := nest_of_isBalanced h
  refine ⟨b, hproper, htokens, ?_⟩
  rw [ofTokens, hnest, ← ofBrackets_eq]
  rfl

/-- A list of tokens denotes exactly the path that the grammar derives from it. -/
theorem ofTokens_eq_ok_iff (ts : List Token) (p : Path) :
    ofTokens ts = .ok p ↔ Derives false ts p := by
  constructor
  · intro h
    by_cases hstray : NoStrayClosing ts
    · by_cases hcount : openings ts = closings ts
      · obtain ⟨b, hproper, rfl, hread⟩ := ofTokens_of_isBalanced ⟨hstray, hcount⟩
        rw [hread] at h
        cases hp : path? b with
        | none => simp [hp] at h
        | some q =>
            rw [hp] at h
            obtain rfl : q = p := by simpa using h
            obtain ⟨x, hx, rfl⟩ := Option.map_eq_some_iff.mp hp
            exact ((reads_of_brackets hproper).1 false x (by simp) hx).close
      · rw [ofTokens_of_unclosed hstray hcount] at h
        cases h
    · rw [ofTokens_of_stray hstray] at h
      cases h
  · intro h
    obtain ⟨b, hb, hp⟩ := h.exists_path?
    rw [ofTokens, ← hb.tokens_eq, nest_tokens hb.proper]
    change ofBrackets b = _
    rw [ofBrackets_eq, hp, orPartial_some]

/-- Why a list of tokens denotes no path: a closing bracket too many, else a group that stays open,
else a group beside other text, which the grammar does not derive. -/
def HasFlaw (ts : List Token) : PathFlaw → Prop
  | .unexpectedClosing => ¬NoStrayClosing ts
  | .unclosed => NoStrayClosing ts ∧ openings ts ≠ closings ts
  | .partialSegment => IsBalanced ts ∧ ¬∃ p, Derives false ts p
  | .emptySubPath => False

theorem ofTokens_eq_error_iff (ts : List Token) (flaw : PathFlaw) :
    ofTokens ts = .error flaw ↔ HasFlaw ts flaw := by
  by_cases hstray : NoStrayClosing ts
  · by_cases hcount : openings ts = closings ts
    · have hbalanced : IsBalanced ts := ⟨hstray, hcount⟩
      have hderives := ofTokens_eq_ok_iff ts
      obtain ⟨b, _, _, hread⟩ := ofTokens_of_isBalanced hbalanced
      cases hp : path? b with
      | some p =>
          rw [hp, orPartial_some] at hread
          cases flaw <;> simp [HasFlaw, ← hderives, hread, hstray, hcount]
      | none =>
          rw [hp, orPartial_none] at hread
          cases flaw <;> simp [HasFlaw, ← hderives, hread, hstray, hcount, hbalanced]
    · have hunbalanced : ¬IsBalanced ts := fun h => hcount h.2
      rw [ofTokens_of_unclosed hstray hcount]
      cases flaw <;> simp [HasFlaw, hstray, hcount, hunbalanced]
  · have hunbalanced : ¬IsBalanced ts := fun h => hstray h.1
    rw [ofTokens_of_stray hstray]
    cases flaw <;> simp [HasFlaw, hstray, hunbalanced]

end Quill.Path
