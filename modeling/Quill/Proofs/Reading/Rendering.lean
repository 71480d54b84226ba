import Quill.Path.Writing
import Quill.Proofs.Reading.Derivation
import Quill.Proofs.Reading.Scanning

/-!
# Reading what was written

Reading undoes writing.  The characters of a written path are scanned into tokens piece by piece:
no piece ends in a backslash, so what stands behind it does not change its tokens.  The tokens of
the pieces are then put together by the rules of the grammar, along the path.
-/

namespace Quill.Path

variable {separator : Char}

/-! ### The tokens of what is written -/

theorem getLast?_ne_of_append {s s' : List Char} {c : Char} (h : (s ++ s').getLast? ≠ some c) :
    s'.getLast? ≠ some c := by
  intro hlast
  rw [List.getLast?_append, hlast] at h
  exact h rfl

/-- The tokens of a key that is written with its backslashes. -/
def keyTokens (separator : Char) (text : List Char) : List Token :=
  text.map fun c => if needsEscape separator c then .escaped c else .char c

/-- Characters that scan into the same tokens whatever stands behind them. -/
def Spelled (separator : Char) (s : List Char) (ts : List Token) : Prop :=
  ∀ rest, scan [separator] (s ++ rest) = ts ++ scan [separator] rest

theorem Spelled.append {s s' : List Char} {ts ts' : List Token} (h : Spelled separator s ts)
    (h' : Spelled separator s' ts') : Spelled separator (s ++ s') (ts ++ ts') := by
  intro rest
  rw [List.append_assoc, h, h', List.append_assoc]

theorem spelled_nil (separator : Char) : Spelled separator [] [] := fun _ => rfl

theorem Spelled.scan_eq {s : List Char} {ts : List Token} (h : Spelled separator s ts) :
    scan [separator] s = ts := by
  have hall := h []
  rwa [List.append_nil, scan_nil, List.append_nil] at hall

theorem separatorAt_singleton (c : Char) (rest : List Char) :
    SeparatorAt [separator] (c :: rest) ↔ separator = c := by
  simp [SeparatorAt]

/-- A backslash takes hold only of the separator and of reserved characters. -/
theorem not_escapeAt_of_ne {c : Char} (hc : c ≠ '\\') (rest : List Char) :
    ¬EscapeAt [separator] (c :: rest) := by
  rintro ⟨tail, htail, _⟩
  exact hc (List.cons.inj htail).1

theorem not_escapeAt_cons {d : Char} (hsep : d ≠ separator) (hd : d ∉ reserved) (c : Char)
    (rest : List Char) : ¬EscapeAt [separator] (c :: d :: rest) := by
  rintro ⟨tail, htail, hcase⟩
  obtain ⟨_, rfl⟩ := List.cons.inj htail
  rcases hcase with hcase | ⟨e, he, hprefix⟩
  · exact hsep ((separatorAt_singleton d rest).mp hcase).symm
  · obtain ⟨rfl, _⟩ := List.cons_prefix_cons.mp hprefix
    exact hd he

theorem spelled_separator (h : separator ≠ '\\') :
    Spelled separator [separator] [.separator] := by
  intro rest
  exact scan_separator (by simp) (not_escapeAt_of_ne h rest)

/-- Brackets and commas stand for themselves. -/
theorem spelled_reserved (h : IsSeparator separator) {c : Char} (hc : c ∈ reserved) :
    Spelled separator [c] [.char c] := by
  intro rest
  have hslash : c ≠ '\\' := by
    rintro rfl
    revert hc
    decide
  refine scan_char (not_escapeAt_of_ne hslash rest) ?_
  rw [separatorAt_singleton]
  rintro rfl
  exact h.2 hc

theorem needsEscape_iff (c : Char) :
    needsEscape separator c = true ↔ c = separator ∨ c ∈ reserved := by
  simp [needsEscape]

/-- The first character of a written key is no separator and not reserved: it is a backslash where
the key begins with one of them. -/
theorem escape_cons_head (h : IsSeparator separator) (c : Char) (text : List Char) :
    ∃ d rest, escape separator (c :: text) = d :: rest ∧ d ≠ separator ∧ d ∉ reserved := by
  by_cases hc : needsEscape separator c = true
  · refine ⟨'\\', c :: escape separator text, by simp [escape, hc], Ne.symm h.1, by decide⟩
  · refine ⟨c, escape separator text, by simp [escape, hc], ?_⟩
    rw [needsEscape_iff, not_or] at hc
    exact hc

/-- An escaped character is one token. -/
theorem spelled_escaped {c : Char} (hc : needsEscape separator c = true) :
    Spelled separator ['\\', c] [.escaped c] := by
  intro rest
  by_cases hsep : c = separator
  · subst hsep
    exact scan_escapedSeparator (by simp) rest
  · have hreserved : c ∈ reserved := ((needsEscape_iff c).mp hc).resolve_left hsep
    refine scan_escapedReserved hreserved ?_
    rw [separatorAt_singleton]
    exact Ne.symm hsep

/-- A key that does not end in a backslash is scanned into its own characters.  Inside of it a
backslash stands before a character that it does not take hold of. -/
theorem spelled_key (h : IsSeparator separator) {text : List Char}
    (hlast : text.getLast? ≠ some '\\') :
    Spelled separator (escape separator text) (keyTokens separator text) := by
  induction text with
  | nil => exact spelled_nil separator
  | cons c text ih =>
      have htail : text.getLast? ≠ some '\\' := getLast?_ne_of_append (s := [c]) hlast
      by_cases hc : needsEscape separator c = true
      · have happend := (spelled_escaped hc).append (ih htail)
        simpa [escape, keyTokens, hc] using happend
      · intro rest
        have hplain := hc
        rw [needsEscape_iff, not_or] at hplain
        have hesc : ¬EscapeAt [separator] (c :: (escape separator text ++ rest)) := by
          by_cases hslash : c = '\\'
          · cases text with
            | nil => simp [hslash] at hlast
            | cons d text =>
                -- A backslash of the key itself: what is written behind it is not special.
                obtain ⟨e, behind, hhead, hsep, hreserved⟩ := escape_cons_head h d text
                rw [hhead, List.cons_append]
                exact not_escapeAt_cons hsep hreserved c _
          · exact not_escapeAt_of_ne hslash _
        have hsep : ¬SeparatorAt [separator] (c :: (escape separator text ++ rest)) := by
          rw [separatorAt_singleton]
          exact Ne.symm hplain.1
        rw [escape, if_neg hc, List.cons_append, scan_char hesc hsep, ih htail rest]
        simp [keyTokens, hc]

/-! ### The path of the tokens -/

theorem isText_keyTokens (separator : Char) (inGroup : Bool) (text : List Char) :
    IsText inGroup (keyTokens separator text) := by
  intro t ht
  obtain ⟨c, _, rfl⟩ := List.mem_map.mp ht
  by_cases hc : needsEscape separator c = true
  · simp [hc]
  · have hplain := hc
    rw [needsEscape_iff, not_or] at hplain
    simp only [if_neg hc]
    exact isText_char hplain.2 inGroup _ (List.mem_singleton_self _)

/-- A token of a character is white space at most where the character is. -/
theorem isBlank_ite_token {b : Bool} {c : Char} (hc : Text.isBlank c = false) :
    Token.isBlank (if b then .escaped c else .char c) = false := by
  cases b with
  | true => rfl
  | false => exact hc

/-- The text of tokens, some of them made literal, is the text of their characters: nothing is
dropped at its ends. -/
theorem keyChars_map_token (p : Char → Bool) {text : List Char} (htrim : Text.trim text = text) :
    keyChars (text.map fun c => if p c then .escaped c else .char c) = text := by
  obtain ⟨hhead, hlast⟩ := Text.trimBy_eq_self_iff.mp htrim
  have htokens : Text.trimBy Token.isBlank (text.map fun c => if p c then .escaped c else .char c) =
      text.map fun c => if p c then .escaped c else .char c := by
    refine Text.trimBy_eq_self_iff.mpr ⟨fun t ht => ?_, fun t ht => ?_⟩
    · rw [List.head?_map] at ht
      obtain ⟨c, hc, rfl⟩ := Option.map_eq_some_iff.mp ht
      exact isBlank_ite_token (hhead c hc)
    · rw [List.getLast?_map] at ht
      obtain ⟨c, hc, rfl⟩ := Option.map_eq_some_iff.mp ht
      exact isBlank_ite_token (hlast c hc)
  have hchar : ∀ c, Token.char? (if p c then .escaped c else .char c) = some c := by
    intro c
    cases p c with
    | true => rfl
    | false => rfl
  rw [keyChars, htokens, List.filterMap_map]
  simp only [Function.comp_def, hchar, List.filterMap_some]

theorem keyChars_keyTokens (separator : Char) {text : List Char} (htrim : Text.trim text = text) :
    keyChars (keyTokens separator text) = text :=
  keyChars_map_token (needsEscape separator) htrim

/-- The tokens of a written key denote the key. -/
theorem ofKeyTokens_keyTokens {text : String} (htext : IsKeyText text.toList) :
    ofKeyTokens (keyTokens separator text.toList) = .key text .nil := by
  obtain ⟨hne, htrim, _⟩ := htext
  simp [ofKeyTokens, keyChars_keyTokens separator htrim, hne]

/-- As a member of a group they do so too. -/
theorem member_ofKeyTokens_keyTokens {text : String} (htext : IsKeyText text.toList) :
    Members.ofKeyTokens (keyTokens separator text.toList) = .key text .nil := by
  obtain ⟨hne, htrim, _⟩ := htext
  simp [Members.ofKeyTokens, keyChars_keyTokens separator htrim, hne]

/-! ### Putting the pieces together -/

/-- Behind another member the members of a group are written as usual, with one comma in front. -/
theorem members_writeBehind_eq (separator : Char) {ms : Members} (h : ms ≠ .nil) :
    ms.writeBehind separator = ',' :: ms.write separator := by
  cases ms with
  | nil => exact absurd rfl h
  | key text rest => simp [Members.writeBehind, Members.write]
  | path sub rest => simp [Members.writeBehind, Members.write]

/-- A segment with the rest of a path behind it. -/
theorem exists_derives_behind (h : IsSeparator separator) {s : List Char} {ts : List Token}
    {p rest : Path} (hs : Spelled separator s ts)
    (hsegment : ∀ inGroup, DerivesSegment inGroup ts p)
    (hrest : ∃ us, Spelled separator (rest.write separator) us ∧
      ∀ inGroup, Derives inGroup us rest) :
    ∃ us, Spelled separator (s ++ rest.writeBehind separator) us ∧
      (∀ inGroup, Derives inGroup us (p ++ rest)) ∧
      (rest ≠ .nil → .separator ∈ us) ∧ ∀ t ∈ ts, t ∈ us := by
  by_cases hnil : rest = .nil
  · subst hnil
    refine ⟨ts, ?_, fun inGroup => ?_, fun hne => absurd rfl hne, fun t ht => ht⟩
    · rw [writeBehind, List.append_nil]
      exact hs
    · rw [append_nil]
      exact .last (hsegment inGroup)
  · obtain ⟨us, hus, hderives⟩ := hrest
    refine ⟨ts ++ .separator :: us, ?_, fun inGroup => ?_, fun _ => by simp, fun t ht => ?_⟩
    · rw [writeBehind_eq separator hnil]
      exact hs.append ((spelled_separator h.1).append hus)
    · exact .cons (hsegment inGroup) (hderives inGroup)
    · exact List.mem_append_left _ ht

/-- A member with the other members of a group behind it. -/
theorem exists_derivesMembers_behind (h : IsSeparator separator) {s : List Char} {ts : List Token}
    {m rest : Members} (hs : Spelled separator s ts) (hmember : DerivesMember ts m)
    (hrest : rest ≠ .nil →
      ∃ us, Spelled separator (rest.write separator) us ∧ DerivesMembers us rest) :
    ∃ us, Spelled separator (s ++ rest.writeBehind separator) us ∧
      DerivesMembers us (m ++ rest) := by
  by_cases hnil : rest = .nil
  · subst hnil
    refine ⟨ts, ?_, ?_⟩
    · rw [Members.writeBehind, List.append_nil]
      exact hs
    · rw [Members.append_nil]
      exact .last hmember
  · obtain ⟨us, hus, hderives⟩ := hrest hnil
    refine ⟨ts ++ .char ',' :: us, ?_, .cons hmember hderives⟩
    rw [members_writeBehind_eq separator hnil]
    exact hs.append ((spelled_reserved h (by decide)).append hus)

/-- The group of members that are not none. -/
theorem ofMembers_of_ne_nil {ms : Members} (h : ms ≠ .nil) : ofMembers ms = .group ms .nil := by
  cases ms with
  | nil => exact absurd rfl h
  | key text rest => rfl
  | path sub rest => rfl

theorem members_ofPath_of_isSubPath {sub : Path} (h : sub.IsSubPath) :
    Members.ofPath sub = .path sub .nil := by
  cases sub with
  | nil => exact h.elim
  | key text rest => rfl
  | group ms rest => rfl

mutual

/-- A writable path is written as characters whose tokens the grammar takes back to the path, in a
group as well; where the path has to be told from a key, the tokens tell it. -/
theorem exists_derives (h : IsSeparator separator) : ∀ p : Path, p.IsWritable →
    ∃ ts, Spelled separator (p.write separator) ts ∧ (∀ inGroup, Derives inGroup ts p) ∧
      (p.IsSubPath → .separator ∈ ts ∨ .char '[' ∈ ts)
  | .nil, _ => by
      refine ⟨[], spelled_nil separator, fun inGroup => .last ?_, False.elim⟩
      exact .text (by simp [IsText])
  | .key text rest, hwritable => by
      obtain ⟨htext, hrest⟩ := hwritable
      obtain ⟨us, hus, hderives, _⟩ := exists_derives h rest hrest
      have hkey := spelled_key h htext.2.2
      have hsegment : ∀ inGroup, DerivesSegment inGroup (keyTokens separator text.toList)
          (.key text .nil) := by
        intro inGroup
        rw [← ofKeyTokens_keyTokens htext]
        exact .text (isText_keyTokens separator inGroup text.toList)
      obtain ⟨ts, hts, hall, hsep, _⟩ :=
        exists_derives_behind h hkey hsegment ⟨us, hus, hderives⟩
      refine ⟨ts, ?_, hall, fun hsub => .inl (hsep hsub)⟩
      rw [write]
      exact hts
  | .group ms rest, hwritable => by
      obtain ⟨hne, hms, hrest⟩ := hwritable
      obtain ⟨inner, hinner, hmembers⟩ := exists_derivesMembers h ms hne hms
      obtain ⟨us, hus, hderives, _⟩ := exists_derives h rest hrest
      have hopen := spelled_reserved h (c := '[') (by decide)
      have hclose := spelled_reserved h (c := ']') (by decide)
      have hgroup := hopen.append (hinner.append hclose)
      have hsegment : ∀ inGroup, DerivesSegment inGroup
          ([.char '['] ++ (inner ++ [.char ']'])) (.group ms .nil) := by
        intro inGroup
        rw [← ofMembers_of_ne_nil hne]
        exact hmembers.bareGroup
      obtain ⟨ts, hts, hall, _, hmem⟩ :=
        exists_derives_behind h hgroup hsegment ⟨us, hus, hderives⟩
      refine ⟨ts, ?_, hall, fun _ => .inr (hmem _ (by simp))⟩
      rw [write]
      simpa using hts

/-- So are the members of a group. -/
theorem exists_derivesMembers (h : IsSeparator separator) : ∀ ms : Members, ms ≠ .nil →
    ms.IsWritable → ∃ ts, Spelled separator (ms.write separator) ts ∧ DerivesMembers ts ms
  | .nil, hne, _ => absurd rfl hne
  | .key text rest, _, hwritable => by
      obtain ⟨htext, hrest⟩ := hwritable
      have hmember : DerivesMember (keyTokens separator text.toList) (.key text .nil) := by
        rw [← member_ofKeyTokens_keyTokens htext]
        exact .key (isText_keyTokens separator true text.toList)
      obtain ⟨ts, hts, hall⟩ := exists_derivesMembers_behind h (spelled_key h htext.2.2) hmember
        fun hne => exists_derivesMembers h rest hne hrest
      refine ⟨ts, ?_, hall⟩
      rw [Members.write]
      exact hts
  | .path sub rest, _, hwritable => by
      obtain ⟨hsub, hwrite, hrest⟩ := hwritable
      obtain ⟨us, hus, hderives, hcompound⟩ := exists_derives h sub hwrite
      have hmember : DerivesMember us (.path sub .nil) := by
        rw [← members_ofPath_of_isSubPath hsub]
        exact .path (hderives true) (hcompound hsub)
      obtain ⟨ts, hts, hall⟩ := exists_derivesMembers_behind h hus hmember
        fun hne => exists_derivesMembers h rest hne hrest
      refine ⟨ts, ?_, hall⟩
      rw [Members.write]
      exact hts

end

/-- Reading undoes writing: with any separator that is neither the backslash nor reserved, the
expression of a writable path denotes the path, at every depth of groups within groups. -/
theorem ofText_toText {separator : Char} (h : IsSeparator separator) {p : Path}
    (hp : p.IsWritable) : ofText (String.singleton separator) (p.toText separator) = .ok p := by
  obtain ⟨ts, hts, hderives, _⟩ := exists_derives h p hp
  have hscan : scan (String.singleton separator).toList (p.toText separator).toList = ts := by
    simpa [toText] using hts.scan_eq
  have hread := (ofTokens_eq_ok_iff ts p).mpr (hderives false)
  rw [ofText, hscan, hread]
  rfl

/-- A path with a separator and a comma in its keys and with a group inside of a member. -/
def nestedSample : Path :=
  .key "a.b" (.group (.key "c," (.path (.group (.key "d" (.key "*" .nil)) (.key "\\e" .nil)) .nil))
    .nil)

theorem ofText_toText_nestedSample :
    IsSeparator '.' ∧ nestedSample.IsWritable ∧
      nestedSample.toText '.' = "a\\.b.[c\\,,[d,\\*].\\e]" ∧
      ofText (String.singleton '.') (nestedSample.toText '.') = .ok nestedSample := by
  have hseparator : IsSeparator '.' := by decide
  have hwritable : nestedSample.IsWritable := by
    simp only [nestedSample, IsWritable, Members.IsWritable, IsSubPath]
    decide
  exact ⟨hseparator, hwritable, by decide, ofText_toText hseparator hwritable⟩

end Quill.Path
