import Mathlib.Data.List.TakeDrop
import Mathlib.Data.List.TakeWhile
import Quill.Json.Token
import Quill.Json.Writing
import Quill.Proofs.Tree.KeyText

/-!
# Scanning what was written

The text of a JSON value is cut into the tokens of this value.  A string ends at its own closing
quote and is unescaped to the text that was escaped; an integer ends where its digits do; line
breaks and indentation disappear between the tokens.  All of this holds with any text behind, so
that the text of a container can be scanned piece by piece.  Only an integer asks something of what
follows: it must not go on with the number, and after an item or a field it never does.

Doubles are left out: their digits are read with roundings of their own.
-/

namespace Quill.Json

mutual

/-- No number in a JSON value is a double. -/
def FloatFree : Json → Prop
  | .float _ => False
  | .array items => FloatFreeItems items
  | .object fields => FloatFreeFields fields
  | _ => True

/-- No number in the items of an array is a double. -/
def FloatFreeItems : List Json → Prop
  | [] => True
  | j :: rest => j.FloatFree ∧ FloatFreeItems rest

/-- No number in the fields of an object is a double. -/
def FloatFreeFields : List (String × Json) → Prop
  | [] => True
  | (_, j) :: rest => j.FloatFree ∧ FloatFreeFields rest

end

mutual

/-- The tokens of a JSON value. -/
def tokens : Json → List Token
  | .null => [.scalar .null]
  | .bool b => [.scalar (.bool b)]
  | .int i => [.scalar (.int i)]
  | .float x => [.scalar (.float x)]
  | .string s => [.string s]
  | .array [] => [.openArray, .closeArray]
  | .array (j :: rest) => .openArray :: (j.tokens ++ itemTokens rest)
  | .object [] => [.openObject, .closeObject]
  | .object ((name, j) :: rest) =>
      .openObject :: .string name :: .colon :: (j.tokens ++ fieldTokens rest)

/-- The tokens of the items behind the first, and the end of the array. -/
def itemTokens : List Json → List Token
  | [] => [.closeArray]
  | j :: rest => .comma :: (j.tokens ++ itemTokens rest)

/-- The tokens of the fields behind the first, and the end of the object. -/
def fieldTokens : List (String × Json) → List Token
  | [] => [.closeObject]
  | (name, j) :: rest => .comma :: .string name :: .colon :: (j.tokens ++ fieldTokens rest)

end

/-- A text does not go on with a number that is written in front of it. -/
def EndsNumber (rest : List Char) : Prop :=
  ∀ c ∈ rest.head?, isNumberChar c = false

/-! ### Strings -/

theorem hexDigit_spec {n : Nat} (h : n < 16) :
    Hex.digit? (hexDigit n) = some n ∧ hexDigit n ≠ '"' ∧ hexDigit n ≠ '\\' := by
  have hall : ∀ n : Fin 16, Hex.digit? (hexDigit n) = some n.val ∧ hexDigit n ≠ '"' ∧
      hexDigit n ≠ '\\' := by decide
  exact hall ⟨n, h⟩

/-- Two digits behind two zeros spell a number below 256. -/
theorem value?_hexDigits {n : Nat} (h : n < 256) :
    Hex.value? ['0', '0', hexDigit (n / 16), hexDigit (n % 16)] = some n := by
  have hhigh := (hexDigit_spec (n := n / 16) (by omega)).1
  have hlow := (hexDigit_spec (n := n % 16) (by omega)).1
  have hzero : Hex.digit? '0' = some 0 := rfl
  simp only [Hex.value?, List.foldlM_cons, List.foldlM_nil, hzero, hhigh, hlow, Option.map_some,
    bind, Option.bind, pure]
  congr 1
  omega

/-- A character is written as a backslash and a letter, as a backslash and its code, or as
itself. -/
theorem escape_cases (c : Char) :
    (∃ e, escape c = ['\\', e] ∧ e ≠ 'u' ∧ shortEscape? e = some c) ∨
    (c.toNat < 32 ∧
      escape c = ['\\', 'u', '0', '0', hexDigit (c.toNat / 16), hexDigit (c.toNat % 16)]) ∨
    (escape c = [c] ∧ c ≠ '"' ∧ c ≠ '\\' ∧ ¬c.toNat < 32) := by
  unfold escape
  split
  · next h => exact .inl ⟨'"', rfl, by decide, by rw [h]; rfl⟩
  split
  · next h => exact .inl ⟨'\\', rfl, by decide, by rw [h]; rfl⟩
  split
  · next h => exact .inl ⟨'n', rfl, by decide, by rw [h]; rfl⟩
  split
  · next h => exact .inl ⟨'r', rfl, by decide, by rw [h]; rfl⟩
  split
  · next h => exact .inl ⟨'t', rfl, by decide, by rw [h]; rfl⟩
  split
  · next h => exact .inl ⟨'b', rfl, by decide, by rw [h]; rfl⟩
  split
  · next h => exact .inl ⟨'f', rfl, by decide, by rw [h]; rfl⟩
  split
  · next h => exact .inr (.inl ⟨h, rfl⟩)
  · next hquote hslash _ _ _ _ _ h => exact .inr (.inr ⟨rfl, hquote, hslash, h⟩)

theorem cutString?_backslash (c : Char) (rest : List Char) :
    cutString? ('\\' :: c :: rest) =
      (cutString? rest).map fun x => ('\\' :: c :: x.1, x.2) := by
  rw [cutString?]

theorem cutString?_plain {c : Char} (hquote : c ≠ '"') (hslash : c ≠ '\\') (rest : List Char) :
    cutString? (c :: rest) = (cutString? rest).map fun x => (c :: x.1, x.2) := by
  rw [cutString?]
  · exact hquote
  · intro d rest' h
    exact absurd h hslash

/-- No quote that was escaped ends a string. -/
theorem cutString?_escape (c : Char) (rest : List Char) :
    cutString? (escape c ++ rest) = (cutString? rest).map fun x => (escape c ++ x.1, x.2) := by
  rcases escape_cases c with ⟨e, he, _, _⟩ | ⟨hcontrol, he⟩ | ⟨he, hquote, hslash, _⟩
  · rw [he]
    exact cutString?_backslash e rest
  · obtain ⟨_, hquote, hslash⟩ := hexDigit_spec (n := c.toNat / 16) (by omega)
    obtain ⟨_, hquote', hslash'⟩ := hexDigit_spec (n := c.toNat % 16) (by omega)
    have hzero : '0' ≠ '"' ∧ '0' ≠ '\\' := by decide
    rw [he]
    simp only [List.cons_append, List.nil_append, cutString?_backslash,
      cutString?_plain hzero.1 hzero.2, cutString?_plain hquote hslash,
      cutString?_plain hquote' hslash', Option.map_map, Function.comp_def]
  · rw [he]
    exact cutString?_plain hquote hslash rest

/-- A string ends at the first quote behind its escaped characters. -/
theorem cutString?_flatMap_escape (s rest : List Char) :
    cutString? (s.flatMap escape ++ '"' :: rest) = some (s.flatMap escape, rest) := by
  induction s with
  | nil => rw [List.flatMap_nil, List.nil_append, cutString?]
  | cons c s ih =>
      rw [List.flatMap_cons, List.append_assoc, cutString?_escape, ih, Option.map_some]

theorem unescape?_short {e : Char} (he : e ≠ 'u') (rest : List Char) :
    unescape? ('\\' :: e :: rest) =
      (shortEscape? e).bind fun c => (unescape? rest).map (c :: ·) := by
  rw [unescape?]
  · cases shortEscape? e with
    | none => rfl
    | some c => cases unescape? rest <;> rfl
  · intro _ _ _ _ _ _ _ _ _ hu
    exact absurd hu he
  · intro _ _ _ _ _ hu
    exact absurd hu he

/-- A code below the surrogates stands for its character, whatever comes behind it. -/
theorem unescape?_code {a b c d : Char} {n : Nat} (hvalue : Hex.value? [a, b, c, d] = some n)
    (hn : n < 0xd800) (rest : List Char) :
    unescape? ('\\' :: 'u' :: a :: b :: c :: d :: rest) =
      (unescape? rest).map (Char.ofNat n :: ·) := by
  have hhigh : isHighSurrogate n = false := by
    rw [isHighSurrogate, Bool.and_eq_false_iff, decide_eq_false_iff_not]
    exact .inl (by omega)
  have hlow : isLowSurrogate n = false := by
    rw [isLowSurrogate, Bool.and_eq_false_iff, decide_eq_false_iff_not]
    exact .inl (by omega)
  -- A second code behind this one is looked at together with it, and then read on its own.
  by_cases hnext : ∃ e f g h more, rest = '\\' :: 'u' :: e :: f :: g :: h :: more
  · obtain ⟨e, f, g, h, more, rfl⟩ := hnext
    rw [unescape?, hvalue]
    simp only [bind, Option.bind, hhigh, hlow, Bool.false_eq_true, if_false]
    cases unescape? ('\\' :: 'u' :: e :: f :: g :: h :: more) <;> rfl
  · rw [unescape?, hvalue]
    · simp only [bind, Option.bind, hhigh, hlow, Bool.or_self, Bool.false_eq_true, if_false]
      cases unescape? rest <;> rfl
    · intro e f g h more hrest
      exact hnext ⟨e, f, g, h, more, hrest⟩

theorem unescape?_plain {c : Char} (hslash : c ≠ '\\') (h : ¬c.toNat < 32) (rest : List Char) :
    unescape? (c :: rest) = (unescape? rest).map (c :: ·) := by
  rw [unescape?]
  · rw [if_neg fun hc => hc.elim h hslash]
  · intro _ _ _ _ _ _ _ _ _ hc
    exact absurd hc hslash
  · intro _ _ _ _ _ hc
    exact absurd hc hslash
  · intro _ _ hc
    exact absurd hc hslash

/-- A character that was escaped is read as this character. -/
theorem unescape?_escape (c : Char) (rest : List Char) :
    unescape? (escape c ++ rest) = (unescape? rest).map (c :: ·) := by
  rcases escape_cases c with ⟨e, he, hu, hshort⟩ | ⟨hcontrol, he⟩ | ⟨he, _, hslash, hplain⟩
  · rw [he]
    exact (unescape?_short hu rest).trans (by rw [hshort, Option.bind_some])
  · have hcode := unescape?_code (value?_hexDigits (n := c.toNat) (by omega)) (by omega) rest
    rw [Char.ofNat_toNat] at hcode
    rw [he]
    exact hcode
  · rw [he]
    exact unescape?_plain hslash hplain rest

theorem unescape?_flatMap_escape (s : List Char) : unescape? (s.flatMap escape) = some s := by
  induction s with
  | nil => rw [List.flatMap_nil, unescape?]
  | cons c s ih => rw [List.flatMap_cons, unescape?_escape, ih, Option.map_some]

/-! ### Numbers -/

theorem span_isDigit_digits (n : Nat) :
    (Decimal.digits n).span Char.isDigit = (Decimal.digits n, []) := by
  have hdigits : ∀ c ∈ Decimal.digits n, c.isDigit = true :=
    fun c hc => Decimal.isDigit_of_mem_digits hc
  rw [List.span_eq_takeWhile_dropWhile, List.takeWhile_eq_self_iff.mpr hdigits,
    List.dropWhile_eq_nil_iff.mpr hdigits]

/-- Digits are the 64-bit integer that they denote with the given sign; only a negative zero would
be no integer. -/
theorem integer?_digits {negative : Bool} {n : Nat} {i : Int64}
    (hi : i.toInt = if negative then -(n : Int) else n) (hzero : negative = true → n ≠ 0) :
    integer? negative (Decimal.digits n) = some (.int i) := by
  have hle : n ≤ maxSignificand := by
    have hmin := i.le_toInt
    have hmax := i.toInt_lt
    unfold maxSignificand
    cases negative <;> simp only [Bool.false_eq_true, if_false, if_true] at hi <;> omega
  have hcheck : (negative && n == 0) = false := by
    cases negative with
    | false => rfl
    | true => simpa using hzero rfl
  have hword := Decimal.word?_toInt i
  rw [hi] at hword
  rw [integer?, Decimal.value_digits]
  simp only [hle, if_true, hword, hcheck, Bool.false_eq_true, if_false]

theorem digits_ne_minus_cons (n : Nat) (rest : List Char) : Decimal.digits n ≠ '-' :: rest := by
  intro h
  have hdigit : '-'.isDigit = true :=
    Decimal.isDigit_of_mem_digits (n := n) (h ▸ List.mem_cons_self)
  cases hdigit

/-- The text of a 64-bit integer is a number, and it is read as this integer. -/
theorem number?_ofInt (i : Int64) : number? (Decimal.ofInt i.toInt) = some (.int i) := by
  cases hi : i.toInt with
  | ofNat n =>
      rw [Decimal.ofInt, number?]
      · simp only [span_isDigit_digits, Decimal.isCanonical_digits, Bool.not_true,
          Bool.false_eq_true, if_false]
        exact integer?_digits (by simp [hi]) (by simp)
      · exact digits_ne_minus_cons n
  | negSucc n =>
      rw [Decimal.ofInt, number?]
      simp only [span_isDigit_digits, Decimal.isCanonical_digits, Bool.not_true,
        Bool.false_eq_true, if_false]
      exact integer?_digits (by simp [hi]; omega) (by simp)

/-! ### One token after the other -/

theorem EndsNumber.takeWhile_dropWhile {rest : List Char} (h : EndsNumber rest) :
    rest.takeWhile isNumberChar = [] ∧ rest.dropWhile isNumberChar = rest := by
  cases rest with
  | nil => exact ⟨rfl, rfl⟩
  | cons c rest =>
      have hc : ¬isNumberChar c = true := Bool.eq_false_iff.mp (h c rfl)
      exact ⟨List.takeWhile_cons_of_neg hc, List.dropWhile_cons_of_neg hc⟩

theorem scan?_space {c : Char} (h : isSpace c = true) (rest : List Char) :
    scan? (c :: rest) = scan? rest := by
  rw [scan?, if_pos h]

theorem scan?_lineBreak (indent : Indent) (level : Nat) (rest : List Char) :
    scan? (lineBreak indent level ++ rest) = scan? rest := by
  have hspaces : ∀ n, scan? (List.replicate n ' ' ++ rest) = scan? rest := by
    intro n
    induction n with
    | zero => rfl
    | succ n ih => rw [List.replicate_succ, List.cons_append, scan?_space rfl, ih]
  cases indent with
  | none => rfl
  | some n => exact (scan?_space rfl _).trans (hspaces _)

/-- No punctuation character is a space or a quote, or begins a number. -/
theorem plain_of_punctuation? {c : Char} {t : Token} (h : punctuation? c = some t) :
    ¬isSpace c = true ∧ c ≠ '"' ∧ c ≠ '-' ∧ c.isDigit = false := by
  have hcases : c = '[' ∨ c = ']' ∨ c = '\x7b' ∨ c = '\x7d' ∨ c = ',' ∨ c = ':' := by
    apply Classical.byContradiction
    intro hother
    simp only [not_or] at hother
    obtain ⟨h1, h2, h3, h4, h5, h6⟩ := hother
    rw [punctuation?, if_neg h1, if_neg h2, if_neg h3, if_neg h4, if_neg h5, if_neg h6] at h
    cases h
  rcases hcases with rfl | rfl | rfl | rfl | rfl | rfl <;> decide

theorem scan?_punctuation {c : Char} {t : Token} (h : punctuation? c = some t)
    (rest : List Char) : scan? (c :: rest) = (scan? rest).map (t :: ·) := by
  obtain ⟨hspace, hquote, _, _⟩ := plain_of_punctuation? h
  rw [scan?, if_neg hspace, if_neg hquote, h]

theorem scan?_nameMark (indent : Indent) (rest : List Char) :
    scan? (nameMark indent ++ rest) = (scan? rest).map (.colon :: ·) := by
  cases indent with
  | none => exact scan?_punctuation rfl rest
  | some n =>
      have hspace : scan? ([' '] ++ rest) = scan? rest := scan?_space rfl rest
      exact (scan?_punctuation rfl _).trans (by rw [← hspace]; rfl)

theorem scan?_quote (s rest : List Char) :
    scan? (quote s ++ rest) = (scan? rest).map (.string (String.ofList s) :: ·) := by
  have hquote : quote s ++ rest = '"' :: (s.flatMap escape ++ '"' :: rest) := by
    rw [quote, List.cons_append, List.cons_append, List.append_assoc]
    rfl
  rw [hquote, scan?, if_neg (by decide), if_pos rfl]
  split
  · next hcut =>
      rw [cutString?_flatMap_escape] at hcut
      cases hcut
  · next raw after hcut =>
      rw [cutString?_flatMap_escape] at hcut
      cases hcut
      rw [unescape?_flatMap_escape]

theorem words_eq :
    words = [(['n', 'u', 'l', 'l'], .null), (['t', 'r', 'u', 'e'], .bool true),
      (['f', 'a', 'l', 's', 'e'], .bool false)] := rfl

theorem scan?_word {w : List Char} {j : Json} (h : (w, j) ∈ words) (rest : List Char) :
    scan? (w ++ rest) = (scan? rest).map (.scalar j :: ·) := by
  rw [words_eq, List.mem_cons, List.mem_cons, List.mem_singleton] at h
  rcases h with h | h | h
  · cases h
    rw [List.cons_append, scan?]
    rfl
  · cases h
    rw [List.cons_append, scan?]
    rfl
  · cases h
    rw [List.cons_append, scan?]
    rfl

/-- The text of a number begins with a digit or a minus sign, and only digits follow. -/
theorem exists_ofInt_eq_cons (i : Int) : ∃ c ds, Decimal.ofInt i = c :: ds ∧
    (c = '-' ∨ c.isDigit = true) ∧ ∀ d ∈ ds, d.isDigit = true := by
  cases i with
  | ofNat n =>
      obtain ⟨c, ds, hds⟩ := List.exists_cons_of_ne_nil (Decimal.digits_ne_nil n)
      have hdigits : ∀ d ∈ c :: ds, d.isDigit = true :=
        fun d hd => Decimal.isDigit_of_mem_digits (hds ▸ hd)
      exact ⟨c, ds, hds, .inr (hdigits c List.mem_cons_self),
        fun d hd => hdigits d (List.mem_cons_of_mem c hd)⟩
  | negSucc n =>
      exact ⟨'-', Decimal.digits (n + 1), rfl, .inl rfl,
        fun d hd => Decimal.isDigit_of_mem_digits hd⟩

/-- What begins with a digit or a minus sign is nothing but a number. -/
theorem scan?_number {c : Char} {ds : List Char} {j : Json} (hc : c = '-' ∨ c.isDigit = true)
    (hds : ∀ d ∈ ds, d.isDigit = true) (hnumber : number? (c :: ds) = some j) {rest : List Char}
    (hrest : EndsNumber rest) :
    scan? (c :: ds ++ rest) = (scan? rest).map (.scalar j :: ·) := by
  have hne : ∀ d : Char, d ≠ '-' → d.isDigit = false → c ≠ d := by
    rintro d hminus hdigit rfl
    rcases hc with rfl | hc
    · exact hminus rfl
    · rw [hdigit] at hc
      cases hc
  have hspace : ¬isSpace c = true := by
    simp [isSpace, hne ' ' (by decide) (by decide), hne '\n' (by decide) (by decide),
      hne '\t' (by decide) (by decide), hne '\r' (by decide) (by decide)]
  have hpunctuation : punctuation? c = none := by
    cases h : punctuation? c with
    | none => rfl
    | some t =>
        obtain ⟨_, _, hminus, hdigit⟩ := plain_of_punctuation? h
        exact absurd rfl (hne c hminus hdigit)
  have hword : words.find? (·.1.isPrefixOf (c :: (ds ++ rest))) = none := by
    have hn := hne 'n' (by decide) (by decide)
    have ht := hne 't' (by decide) (by decide)
    have hf := hne 'f' (by decide) (by decide)
    simp [words_eq, List.isPrefixOf, hn.symm, ht.symm, hf.symm]
  have hchars : ∀ d ∈ ds, isNumberChar d = true := fun d hd => by
    simp [isNumberChar, hds d hd]
  have htake : (ds ++ rest).takeWhile isNumberChar = ds := by
    rw [List.takeWhile_append_of_pos hchars, hrest.takeWhile_dropWhile.1, List.append_nil]
  have hdrop : (ds ++ rest).dropWhile isNumberChar = rest := by
    rw [List.dropWhile_append_of_pos hchars, hrest.takeWhile_dropWhile.2]
  rw [List.cons_append, scan?, if_neg hspace, if_neg (hne '"' (by decide) (by decide)),
    hpunctuation, hword]
  simp only [htake, hdrop, hnumber]

/-- An integer is read back from where its text begins, unless the number goes on behind it. -/
theorem scan?_ofInt (i : Int64) {rest : List Char} (hrest : EndsNumber rest) :
    scan? (Decimal.ofInt i.toInt ++ rest) = (scan? rest).map (.scalar (.int i) :: ·) := by
  obtain ⟨c, ds, htext, hc, hds⟩ := exists_ofInt_eq_cons i.toInt
  have hnumber : number? (c :: ds) = some (.int i) := htext ▸ number?_ofInt i
  rw [htext]
  exact scan?_number hc hds hnumber hrest

/-! ### Whole values -/

theorem endsNumber_cons {c : Char} (h : isNumberChar c = false) (rest : List Char) :
    EndsNumber (c :: rest) := by
  rintro d ⟨⟩
  exact h

theorem EndsNumber.lineBreak {rest : List Char} (h : EndsNumber rest) (indent : Indent)
    (level : Nat) : EndsNumber (lineBreak indent level ++ rest) := by
  cases indent with
  | none => exact h
  | some n => exact endsNumber_cons rfl _

/-- What follows an item: further items or the end of the array. -/
theorem EndsNumber.writeItems {rest : List Char} (h : EndsNumber rest) (indent : Indent)
    (level : Nat) (items : List Json) : EndsNumber (writeItems indent level items ++ rest) := by
  cases items with
  | nil => exact h
  | cons j items => exact endsNumber_cons rfl _

/-- What follows a field: further fields or the end of the object. -/
theorem EndsNumber.writeFields {rest : List Char} (h : EndsNumber rest) (indent : Indent)
    (level : Nat) (fields : List (String × Json)) :
    EndsNumber (writeFields indent level fields ++ rest) := by
  cases fields with
  | nil => exact h
  | cons field fields => exact endsNumber_cons rfl _

mutual

/-- A text with a value in front is scanned as the tokens of the value and those of the rest.  The
layout leaves no trace. -/
theorem scan?_write (indent : Indent) : ∀ (j : Json) (level : Nat) (rest : List Char),
    j.FloatFree → EndsNumber rest →
    scan? (write indent level j ++ rest) = (scan? rest).map (j.tokens ++ ·)
  | .null, level, rest, _, _ => by
      rw [write, scan?_word (j := .null) (by simp [words])]
      rfl
  | .bool true, level, rest, _, _ => by
      rw [write, if_pos rfl, scan?_word (j := .bool true) (by simp [words])]
      rfl
  | .bool false, level, rest, _, _ => by
      rw [write, if_neg (by decide), scan?_word (j := .bool false) (by simp [words])]
      rfl
  | .int i, level, rest, _, hrest => by
      rw [write, scan?_ofInt i hrest]
      rfl
  | .float _, _, _, hfree, _ => hfree.elim
  | .string s, level, rest, _, _ => by
      rw [write, scan?_quote, String.ofList_toList]
      rfl
  | .array [], level, rest, _, _ => by
      rw [write, List.cons_append, List.cons_append, scan?_punctuation rfl, scan?_punctuation rfl,
        Option.map_map]
      rfl
  | .array (j :: items), level, rest, ⟨hj, hitems⟩, _ => by
      have hclose : EndsNumber (lineBreak indent level ++ ']' :: rest) :=
        (endsNumber_cons rfl rest).lineBreak indent level
      have htail := scan?_writeItems indent items (level + 1) level rest hitems
      have hitem := scan?_write indent j (level + 1) _ hj
        (hclose.writeItems indent (level + 1) items)
      simp only [write, List.cons_append, List.append_assoc, List.nil_append,
        scan?_punctuation (c := '[') rfl, scan?_lineBreak, hitem, htail, Option.map_map, tokens,
        Function.comp_def]
  | .object [], level, rest, _, _ => by
      rw [write, List.cons_append, List.cons_append, scan?_punctuation rfl, scan?_punctuation rfl,
        Option.map_map]
      rfl
  | .object ((name, j) :: fields), level, rest, ⟨hj, hfields⟩, _ => by
      have hclose : EndsNumber (lineBreak indent level ++ '\x7d' :: rest) :=
        (endsNumber_cons rfl rest).lineBreak indent level
      have htail := scan?_writeFields indent fields (level + 1) level rest hfields
      have hfield := scan?_write indent j (level + 1) _ hj
        (hclose.writeFields indent (level + 1) fields)
      simp only [write, List.cons_append, List.append_assoc, List.nil_append,
        scan?_punctuation (c := '\x7b') rfl, scan?_lineBreak, scan?_quote, scan?_nameMark, hfield,
        htail, Option.map_map, tokens, Function.comp_def, String.ofList_toList]

theorem scan?_writeItems (indent : Indent) : ∀ (items : List Json) (level outer : Nat)
    (rest : List Char), FloatFreeItems items →
    scan? (writeItems indent level items ++ (lineBreak indent outer ++ ']' :: rest)) =
      (scan? rest).map (itemTokens items ++ ·)
  | [], level, outer, rest, _ => by
      rw [writeItems, List.nil_append, scan?_lineBreak, scan?_punctuation rfl]
      rfl
  | j :: items, level, outer, rest, ⟨hj, hitems⟩ => by
      have hclose : EndsNumber (lineBreak indent outer ++ ']' :: rest) :=
        (endsNumber_cons rfl rest).lineBreak indent outer
      have htail := scan?_writeItems indent items level outer rest hitems
      have hitem := scan?_write indent j level _ hj (hclose.writeItems indent level items)
      simp only [writeItems, List.cons_append, List.append_assoc,
        scan?_punctuation (c := ',') rfl, scan?_lineBreak, hitem, htail, Option.map_map, itemTokens,
        Function.comp_def]

theorem scan?_writeFields (indent : Indent) : ∀ (fields : List (String × Json))
    (level outer : Nat) (rest : List Char), FloatFreeFields fields →
    scan? (writeFields indent level fields ++ (lineBreak indent outer ++ '\x7d' :: rest)) =
      (scan? rest).map (fieldTokens fields ++ ·)
  | [], level, outer, rest, _ => by
      rw [writeFields, List.nil_append, scan?_lineBreak, scan?_punctuation rfl]
      rfl
  | (name, j) :: fields, level, outer, rest, ⟨hj, hfields⟩ => by
      have hclose : EndsNumber (lineBreak indent outer ++ '\x7d' :: rest) :=
        (endsNumber_cons rfl rest).lineBreak indent outer
      have htail := scan?_writeFields indent fields level outer rest hfields
      have hfield := scan?_write indent j level _ hj (hclose.writeFields indent level fields)
      simp only [writeFields, List.cons_append, List.append_assoc,
        scan?_punctuation (c := ',') rfl, scan?_lineBreak, scan?_quote, scan?_nameMark, hfield,
        htail, Option.map_map, fieldTokens, Function.comp_def, String.ofList_toList]

end

/-- The text of a value is scanned as the tokens of the value, with every indentation. -/
theorem scan?_toText {j : Json} (h : j.FloatFree) (indent : Indent) :
    scan? (j.toText indent).toList = some j.tokens := by
  have hend : EndsNumber [] := by
    intro c hc
    cases hc
  have hscan := scan?_write indent j 0 [] h hend
  have hnil : scan? [] = some [] := by rw [scan?]
  rwa [List.append_nil, hnil, Option.map_some, List.append_nil, ← String.toList_ofList
    (l := write indent 0 j)] at hscan

end Quill.Json
