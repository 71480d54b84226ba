import Quill.Proofs.Navigation.LiteralKey
import Quill.Proofs.Tree.Flattening
import Quill.Proofs.Walk.Planting

/-!
# Undoing a flattening

The keys of a flat tree are expressions.  With a separator of one character each of them denotes the
path of the keys that were joined: a separator inside of a key has a backslash and is a character of
the key, and every other character stands for itself.  So unflattening sets the leaves of the tree
one after the other, each at the end of its own keys, and they make the tree again.

Flattening gives backslashes to separators only.  A key comes back if nothing else in its text has a
meaning in an expression, `Key.IsJoinable`.
-/

namespace Quill

/-- A key that comes back from a joined text: no character of it but a separator has a meaning
there, except for commas and asterisks beside other text, which have none outside of groups. -/
structure Key.IsJoinable (k : Key) : Prop where
  canonical : k.IsCanonical
  nonempty : k.chars ≠ []
  ne_wildcard : k.text ≠ Path.wildcard
  trimmed : Text.trim k.chars = k.chars
  no_backslash : '\\' ∉ k.chars
  no_opening : '[' ∉ k.chars
  no_closing : ']' ∉ k.chars

instance (k : Key) : Decidable k.IsJoinable :=
  decidable_of_iff
    (k.IsCanonical ∧ k.chars ≠ [] ∧ k.text ≠ Path.wildcard ∧ Text.trim k.chars = k.chars ∧
      '\\' ∉ k.chars ∧ '[' ∉ k.chars ∧ ']' ∉ k.chars)
    ⟨fun ⟨h₁, h₂, h₃, h₄, h₅, h₆, h₇⟩ => ⟨h₁, h₂, h₃, h₄, h₅, h₆, h₇⟩,
      fun ⟨h₁, h₂, h₃, h₄, h₅, h₆, h₇⟩ => ⟨h₁, h₂, h₃, h₄, h₅, h₆, h₇⟩⟩

namespace Key.IsJoinable

variable {k : Key}

theorem isLiteral (h : k.IsJoinable) : k.IsLiteral :=
  ⟨h.canonical, h.ne_wildcard⟩

theorem endsClear (h : k.IsJoinable) (separator : Char) : Text.EndsClear [separator] k.chars :=
  Text.endsClear_singleton fun hlast => h.no_backslash (List.mem_of_getLast? hlast)

end Key.IsJoinable

namespace Path

variable {separator : Char}

/-! ### The path of a joined text -/

/-- The tokens of a key in a joined text. -/
def joinedTokens (separator : Char) (text : List Char) : List Token :=
  text.map fun c => if c == separator then .escaped c else .char c

theorem spelled_marked (h : IsSeparator separator) {text : List Char} (hslash : '\\' ∉ text) :
    Spelled separator (Text.marked [separator] text) (joinedTokens separator text) := by
  induction text with
  | nil =>
      rw [Text.marked_nil (List.cons_ne_nil _ _)]
      exact spelled_nil separator
  | cons c text ih =>
      rw [List.mem_cons, not_or] at hslash
      by_cases hc : c = separator
      · subst hc
        have hescape : needsEscape c c = true := (needsEscape_iff c).mpr (.inl rfl)
        have happend := (spelled_escaped hescape).append (ih hslash.2)
        have hmarked := Text.marked_separator (List.cons_ne_nil c []) text
        rw [List.singleton_append] at hmarked
        rw [hmarked]
        simpa [joinedTokens] using happend
      · intro rest
        have hat : ¬[separator] <+: c :: text := by
          simpa [List.cons_prefix_cons] using Ne.symm hc
        have hsep : ¬SeparatorAt [separator] (c :: (Text.marked [separator] text ++ rest)) := by
          rw [separatorAt_singleton]
          exact Ne.symm hc
        rw [Text.marked_cons hat, List.cons_append,
          scan_char (not_escapeAt_of_ne (Ne.symm hslash.1) _) hsep, ih hslash.2 rest]
        simp [joinedTokens, hc]

/-- The tokens of a key denote the key. -/
theorem derivesSegment_joinedTokens {k : Key} (hk : k.IsJoinable) :
    DerivesSegment false (joinedTokens separator k.chars) (.key k.text .nil) := by
  have htext : IsText false (joinedTokens separator k.chars) := by
    intro t ht
    obtain ⟨c, hc, rfl⟩ := List.mem_map.mp ht
    have hopening : c ≠ '[' := fun heq => hk.no_opening (heq ▸ hc)
    have hclosing : c ≠ ']' := fun heq => hk.no_closing (heq ▸ hc)
    by_cases hsep : c = separator
    · simp [hsep]
    · simp [hsep, hopening, hclosing]
  have hkey : ofKeyTokens (joinedTokens separator k.chars) = .key k.text .nil := by
    have hchars := keyChars_map_token (· == separator) hk.trimmed
    rw [ofKeyTokens, joinedTokens, hchars, if_neg hk.nonempty]
    rfl
  rw [← hkey]
  exact .text htext

/-- The joined texts of keys are cut at the separators between them, into the keys. -/
theorem exists_derives_join (h : IsSeparator separator) {k : Key} {q : List Key}
    (hq : ∀ k' ∈ k :: q, k'.IsJoinable) :
    ∃ ts, Spelled separator
        (Text.join [separator] ((k :: q).map (Tree.escapedKey [separator]))) ts ∧
      Derives false ts (ofKeys ((k :: q).map Key.text)) := by
  induction q generalizing k with
  | nil =>
      have hk : k.IsJoinable := hq k List.mem_cons_self
      exact ⟨_, spelled_marked h hk.no_backslash, .last (derivesSegment_joinedTokens hk)⟩
  | cons k' q ih =>
      rw [List.forall_mem_cons] at hq
      obtain ⟨hk, hrest⟩ := hq
      obtain ⟨us, hus, hderives⟩ := ih hrest
      refine ⟨joinedTokens separator k.chars ++ .separator :: us, ?_,
        .cons (derivesSegment_joinedTokens hk) hderives⟩
      rw [List.map_cons, Text.join_cons _ _ (by simp)]
      exact (spelled_marked h hk.no_backslash).append ((spelled_separator h.1).append hus)

theorem ofText_flatKey (h : IsSeparator separator) {k : Key} {q : List Key}
    (hq : ∀ k' ∈ k :: q, k'.IsJoinable) :
    ofText (String.singleton separator) (Tree.flatKey [separator] (k :: q)).text =
      .ok (ofKeys ((k :: q).map Key.text)) := by
  obtain ⟨ts, hts, hderives⟩ := exists_derives_join h hq
  rw [ofText, String.toList_singleton, Key.text, String.toList_ofList, Tree.chars_flatKey,
    hts.scan_eq, (ofTokens_eq_ok_iff _ _).mpr hderives]
  rfl

end Path

namespace Navigator

open Quill.Path Navigation

variable {separator : Char}

theorem denote_ofKey (k : Key) (sep : String) (allowEmpty : Bool) :
    denote (.ofKey k) sep allowEmpty = readWhole k.text sep allowEmpty := by
  cases k with
  | index i => rfl
  | name s =>
      show readWhole s sep allowEmpty = _
      rw [Key.text, Key.chars, String.ofList_toList]

/-- A joined text is read into the path of its keys.  One that is taken as it stands is a single key
without separators. -/
theorem readText_flatKey (h : IsSeparator separator) {k : Key} {q : List Key}
    (hq : ∀ k' ∈ k :: q, k'.IsJoinable) :
    readText (String.singleton separator) (Tree.flatKey [separator] (k :: q)).text =
      .ok (ofKeys ((k :: q).map Key.text)) := by
  unfold readText
  by_cases hplain : isPlainKey (String.singleton separator)
      (Tree.flatKey [separator] (k :: q)).text = true
  · obtain ⟨hsep, _⟩ := not_mem_of_isPlainKey hplain
    rw [Tree.chars_flatKey] at hsep
    rw [if_pos hplain]
    cases q with
    | nil =>
        have hmarked : separator ∉ Text.marked [separator] k.chars := hsep
        have hchars : separator ∉ k.chars := fun hmem =>
          hmarked ((Text.sublist_marked (List.cons_ne_nil _ _) k.chars).mem hmem)
        have hself : Tree.escapedKey [separator] k = k.chars := Text.marked_of_not_mem hchars
        rw [Key.text, Tree.chars_flatKey, List.map_singleton, Text.join, hself]
        rfl
    | cons k' q =>
        rw [List.map_cons, Text.join_cons _ _ (by simp)] at hsep
        exact absurd (by simp) hsep
  · rw [if_neg hplain]
    exact ofText_flatKey h hq

/-- The key of a leaf in a flat tree denotes the path of the keys that lead to the leaf. -/
theorem denote_flatKey (h : IsSeparator separator) {q : List Key} (hne : q ≠ [])
    (hq : ∀ k ∈ q, k.IsJoinable) :
    denote (.ofKey (Tree.flatKey [separator] q)) (String.singleton separator) false =
      .ok (ofKeys (q.map Key.text)) := by
  obtain ⟨k, q, rfl⟩ := List.exists_cons_of_ne_nil hne
  have hsome : (Tree.flatKey [separator] (k :: q)).text.isEmpty = false := by
    rw [← Bool.not_eq_true, String.isEmpty_iff]
    intro hempty
    -- The empty text is no path of keys.
    have hofText := ofText_flatKey h hq
    rw [hempty] at hofText
    cases hofText
  rw [denote_ofKey, readWhole, hsome, if_neg Bool.false_ne_true, readText_flatKey h hq]
  rfl

/-- Unflattening the entries of leaves sets the leaves one after the other. -/
theorem unflattenInto_on (h : IsSeparator separator) {flat : Tree} {ls : List Leaf}
    (hflat : flat.toList = ls.map (Tree.flatEntry [separator]))
    (hls : ∀ l ∈ ls, l.1 ≠ [] ∧ ∀ k ∈ l.1, k.IsJoinable) {n : Navigator} (hn : n.cache.IsSound)
    (hsep : n.separator = String.singleton separator) (out : Tree) :
    ((unflattenInto out flat).on n).1 = .ok (out.plantAll ls) := by
  induction flat generalizing ls n out with
  | nil =>
      have hnone : ls = [] := List.map_eq_nil_iff.mp hflat.symm
      rw [hnone]
      rfl
  | cons key value rest ih =>
      obtain ⟨l, ls, rfl, hl, hrest⟩ := List.map_eq_cons_iff.mp hflat.symm
      obtain ⟨rfl, rfl⟩ := Prod.mk.inj hl
      rw [List.forall_mem_cons] at hls
      obtain ⟨⟨hne, hkeys⟩, hothers⟩ := hls
      have hfirst : ((set out (.ofKey (Tree.flatKey [separator] l.1)) l.2 none).on n).1 =
          .ok ((ofKeys (l.1.map Key.text)).set l.2 out) := by
        rw [set_on hn out _ none l.2]
        show (denote _ n.separator false).map _ = _
        rw [hsep, denote_flatKey h hne hkeys]
        rfl
      obtain ⟨after, hsound, hkept, hon⟩ :=
        (isSteady_set out _ l.2 none).on_bind_of_ok hn hfirst (unflattenInto · rest)
      show ((set out (.ofKey (Tree.flatKey [separator] l.1)) l.2 none >>=
        (unflattenInto · rest)).on n).1 = _
      rw [hon]
      exact ih hrest.symm hothers hsound (hkept.trans hsep) _

/-- Unflattening undoes flattening.  With any separator of one character that can separate segments,
and on any navigator that has it and a sound cache, a tree without empty maps comes back from its
flat form, the keys of every map in their order, if its keys are joinable. -/
theorem unflatten_flatten (h : IsSeparator separator) {t : Tree} (ht : t.Distinct)
    (hfull : t.EveryValue (· ≠ .map .nil)) (hkeys : t.EveryKey Key.IsJoinable) {n : Navigator}
    (hn : n.cache.IsSound) (hsep : n.separator = String.singleton separator) :
    ((unflatten (t.flatten (String.singleton separator))).on n).1 = .ok t := by
  have hslash : '\\' ∉ [separator] := by simpa using Ne.symm h.1
  have hclear : t.EveryKey fun k => Text.EndsClear [separator] k.chars :=
    hkeys.imp fun k hk => hk.endsClear separator
  have hflat : (t.flatten (String.singleton separator)).toList =
      t.leaves.map (Tree.flatEntry [separator]) := by
    rw [Tree.flatten_eq_ofList, String.toList_singleton]
    exact Tree.toList_ofList_flatEntries ht (hkeys.imp fun k hk => hk.canonical)
      (List.cons_ne_nil _ _) hslash (Tree.endsClear_of_everyKey hclear)
  have hleaves : ∀ l ∈ t.leaves, l.1 ≠ [] ∧ ∀ k ∈ l.1, k.IsJoinable := by
    intro l hl
    obtain ⟨hfound, _⟩ := (Tree.mem_leaves_iff ht l.1 l.2).mp hl
    exact ⟨Tree.ne_nil_of_mem_leaves hl, hkeys.of_at? hfound⟩
  rw [unflatten, unflattenInto_on h hflat hleaves hn hsep,
    Tree.plantAll_leaves_nil ht (hkeys.imp fun k hk => hk.isLiteral) hfull]

/-- Separators inside of a name and of a negative index, other characters that matter in
expressions, and indices out of order. -/
def dashSample : Tree :=
  .cons (.name "a-b") (.map (.cons (.index 1) (.int 1) (.cons (.index 0) .null .nil)))
    (.cons (.name "c,*") (.map (.cons (.index (-5)) (.map (.cons (.name "x y") .unset .nil)) .nil))
      (.cons (.index 7) (.bool true) .nil))

theorem unflatten_flatten_dashSample :
    IsSeparator '-' ∧ dashSample.Distinct ∧ dashSample.EveryValue (· ≠ .map .nil) ∧
      dashSample.EveryKey Key.IsJoinable ∧
      (dashSample.flatten "-").keys =
        [.name "a\\-b-1", .name "a\\-b-0", .name "c,*-\\-5-x y", .index 7] ∧
      ((unflatten (dashSample.flatten "-")).on (fresh "-" 2)).1 = .ok dashSample := by
  have h : IsSeparator '-' := by decide
  have ht : dashSample.Distinct := by
    simp [dashSample, Tree.Distinct, Value.Distinct, Tree.keys]
  have hfull : dashSample.EveryValue (· ≠ .map .nil) := by
    simp [dashSample, Tree.EveryValue, Value.Everywhere]
  have hkeys : dashSample.EveryKey Key.IsJoinable := by
    simp only [dashSample, Tree.EveryKey, Value.EveryKey]
    decide +kernel
  have hn : (fresh "-" 2).cache.IsSound := Cache.isSound_ofCapacity 2
  exact ⟨h, ht, hfull, hkeys, by decide +kernel, unflatten_flatten h ht hfull hkeys hn rfl⟩

end Navigator

end Quill
