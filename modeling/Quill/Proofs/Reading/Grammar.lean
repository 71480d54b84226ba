import Quill.Path.Reading

/-!
# The grammar of path expressions

Which tokens form a path, and the path they form.  A path is segments with separators between them;
a segment is a text, or a group in brackets with nothing but white space beside it; the members of
a group stand between commas and are keys or paths of their own.  In a group a comma that was not
made literal ends the member, so there it is no part of a text; outside of groups it is.

The grammar derives a path together with its tokens.  What is empty is derived as well and leaves
no trace in the result: a key without text, a group without members, a member without segments.
-/

namespace Quill

/-- The members of one group followed by those of another. -/
def Members.append : Members → Members → Members
  | .nil, ns => ns
  | .key text rest, ns => .key text (rest.append ns)
  | .path sub rest, ns => .path sub (rest.append ns)

instance : Append Members := ⟨Members.append⟩

/-- The group of a path that is nothing but this group; none if it has no members. -/
def Path.ofMembers : Members → Path
  | .nil => .nil
  | ms => .group ms .nil

/-- The path of the key that a text spells; none if no character is left of it. -/
def Path.ofKeyTokens (ts : List Path.Token) : Path :=
  if Path.keyChars ts = [] then .nil else .key (String.ofList (Path.keyChars ts)) .nil

/-- The member that is a path of its own; none if the path is empty. -/
def Members.ofPath : Path → Members
  | .nil => .nil
  | p => .path p .nil

/-- The member that is the key a text spells; none if no character is left of it. -/
def Members.ofKeyTokens (ts : List Path.Token) : Members :=
  if Path.keyChars ts = [] then .nil else .key (String.ofList (Path.keyChars ts)) .nil

namespace Path

/-- Tokens that are neither separators nor brackets and, in a group, no commas either. -/
def IsText (inGroup : Bool) (ts : List Token) : Prop :=
  ∀ t ∈ ts, t ≠ .separator ∧ t ≠ .char '[' ∧ t ≠ .char ']' ∧ (inGroup = true → t ≠ .char ',')

/-- Nothing but white space. -/
def IsBlankText (ts : List Token) : Prop :=
  ∀ t ∈ ts, t.isBlank = true

mutual

/-- The tokens of a path, outside of groups or in one. -/
inductive Derives : Bool → List Token → Path → Prop
  | last {inGroup : Bool} {ts : List Token} {p : Path} (segment : DerivesSegment inGroup ts p) :
      Derives inGroup ts p
  | cons {inGroup : Bool} {ts us : List Token} {p q : Path}
      (segment : DerivesSegment inGroup ts p) (others : Derives inGroup us q) :
      Derives inGroup (ts ++ .separator :: us) (p ++ q)

/-- The tokens of a segment and the path of this segment alone. -/
inductive DerivesSegment : Bool → List Token → Path → Prop
  | text {inGroup : Bool} {ts : List Token} (text : IsText inGroup ts) :
      DerivesSegment inGroup ts (ofKeyTokens ts)
  | group {inGroup : Bool} {before ts after : List Token} {ms : Members}
      (before_blank : IsBlankText before) (members : DerivesMembers ts ms)
      (after_blank : IsBlankText after) :
      DerivesSegment inGroup (before ++ .char '[' :: (ts ++ .char ']' :: after)) (ofMembers ms)

/-- The tokens between the brackets of a group. -/
inductive DerivesMembers : List Token → Members → Prop
  | last {ts : List Token} {ms : Members} (member : DerivesMember ts ms) : DerivesMembers ts ms
  | cons {ts us : List Token} {ms ns : Members} (member : DerivesMember ts ms)
      (others : DerivesMembers us ns) : DerivesMembers (ts ++ .char ',' :: us) (ms ++ ns)

/-- The tokens of a member: a key, or a path that a separator or a group tells from a key. -/
inductive DerivesMember : List Token → Members → Prop
  | key {ts : List Token} (text : IsText true ts) : DerivesMember ts (Members.ofKeyTokens ts)
  | path {ts : List Token} {p : Path} (segments : Derives true ts p)
      (compound : .separator ∈ ts ∨ .char '[' ∈ ts) : DerivesMember ts (Members.ofPath p)

end

/-- A character that is not reserved is part of a text, in a group as well. -/
theorem isText_char {c : Char} (hc : c ∉ reserved) (inGroup : Bool) : IsText inGroup [.char c] := by
  simp only [reserved, List.mem_cons, List.not_mem_nil, or_false, not_or] at hc
  simp [IsText, hc]

/-- A group without white space beside it. -/
theorem DerivesMembers.bareGroup {inGroup : Bool} {ts : List Token} {ms : Members}
    (h : DerivesMembers ts ms) :
    DerivesSegment inGroup (.char '[' :: (ts ++ [.char ']'])) (ofMembers ms) := by
  have hnone : IsBlankText [] := by simp [IsBlankText]
  exact @DerivesSegment.group inGroup [] ts [] ms hnone h hnone

/-! ### Paths without separators -/

theorem length_ofKeyTokens_le (ts : List Token) : (ofKeyTokens ts).length ≤ 1 := by
  unfold ofKeyTokens
  split <;> simp [length]

theorem length_ofMembers_le (ms : Members) : (ofMembers ms).length ≤ 1 := by
  cases ms <;> simp [ofMembers, length]

/-- Only a separator makes a path longer than one segment. -/
theorem Derives.length_le_one {inGroup : Bool} {ts : List Token} {p : Path}
    (h : Derives inGroup ts p) (hsep : .separator ∉ ts) : p.length ≤ 1 := by
  cases h with
  | cons segment others => simp at hsep
  | last segment =>
      cases segment with
      | text => exact length_ofKeyTokens_le _
      | group => exact length_ofMembers_le _

end Path

/-! ### Members behind one another -/

namespace Members

@[simp] theorem nil_append (ms : Members) : .nil ++ ms = ms := rfl

@[simp] theorem key_append (text : String) (rest ms : Members) :
    Members.key text rest ++ ms = .key text (rest ++ ms) := rfl

@[simp] theorem path_append (sub : Path) (rest ms : Members) :
    Members.path sub rest ++ ms = .path sub (rest ++ ms) := rfl

@[simp] theorem append_nil : ∀ ms : Members, ms ++ .nil = ms
  | .nil => rfl
  | .key text rest => by rw [key_append, append_nil rest]
  | .path sub rest => by rw [path_append, append_nil rest]

theorem append_assoc : ∀ ms ns os : Members, ms ++ ns ++ os = ms ++ (ns ++ os)
  | .nil, _, _ => rfl
  | .key text rest, ns, os => by simp only [key_append, append_assoc rest ns os]
  | .path sub rest, ns, os => by simp only [path_append, append_assoc rest ns os]

end Members

namespace Path

/-! ### Closing what is being read -/

theorem Pending.close_text (ts : List Token) (rest : Path) :
    (Pending.text ts).close rest = ofKeyTokens ts ++ rest := by
  unfold Pending.close ofKeyTokens
  by_cases h : keyChars ts = []
  · simp [h]
  · simp [h]

theorem Pending.close_group (ms : Members) (rest : Path) :
    (Pending.group ms).close rest = ofMembers ms ++ rest := by
  cases ms with
  | nil => rfl
  | key text others => rfl
  | path sub others => rfl

/-- What stands behind a segment stays behind it. -/
theorem Pending.close_append (first : Pending) (p q : Path) :
    first.close (p ++ q) = first.close p ++ q := by
  cases first with
  | text ts => rw [close_text, close_text, append_assoc]
  | group ms => rw [close_group, close_group, append_assoc]

/-- A member with a separator or a group is a path of its own. -/
theorem PendingMember.close_path {m : PendingMember} (h : m.isPath = true) (others : Members) :
    m.close others = Members.ofPath (m.first.close m.rest) ++ others := by
  obtain ⟨first, rest, isPath⟩ := m
  simp only at h
  subst h
  unfold close
  cases first.close rest with
  | nil => rfl
  | key text p => rfl
  | group ms p => rfl

/-- A member that is a text alone is a key. -/
theorem PendingMember.close_key (ts : List Token) (others : Members) :
    PendingMember.close ⟨.text ts, .nil, false⟩ others = Members.ofKeyTokens ts ++ others := by
  unfold close Members.ofKeyTokens
  simp only [Pending.close]
  by_cases h : keyChars ts = []
  · simp [h]
  · simp [h]

end Path

end Quill
