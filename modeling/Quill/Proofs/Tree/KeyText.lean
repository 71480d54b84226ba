import Mathlib.Algebra.Group.Int.Defs
import Quill.Key

/-!
# Keys and their texts

A key is read off a text, and it has a text of its own.  Reading loses nothing: the integer that is
read off the decimal text of an integer has that text again, and every other text names itself.  So
texts can be told apart by their keys, and canonical keys by their texts.  Of the keys only names
can fail to be canonical, since the decimal text of an integer is read as this integer.  The texts
that are read as indices are the decimal texts of the 64-bit integers and no others.
-/

namespace Quill

namespace Decimal

/-! ### Digits and their values -/

theorem digitValue_lt {c : Char} (h : c.isDigit = true) : digitValue c < 10 := by
  rw [Char.isDigit_iff_toNat] at h
  have hzero : '0'.toNat = 48 := rfl
  have hnine : '9'.toNat = 57 := rfl
  unfold digitValue
  omega

theorem digitChar_digitValue {c : Char} (h : c.isDigit = true) : digitChar (digitValue c) = c := by
  rw [Char.isDigit_iff_toNat] at h
  rw [digitChar, digitValue, Nat.add_sub_cancel' h.1, Char.ofNat_toNat]

theorem value_concat (s : List Char) (c : Char) :
    value (s ++ [c]) = 10 * value s + digitValue c := by
  simp [value]

theorem digits_zero : digits 0 = ['0'] := by
  rw [digits]
  rfl

theorem isNumeral_iff (s : List Char) :
    isNumeral s = true ↔ s ≠ [] ∧ ∀ c ∈ s, c.isDigit = true := by
  simp [isNumeral]

/-- A digit other than zero has a value. -/
theorem digitValue_pos {c : Char} (h : c.isDigit = true) (hzero : c ≠ '0') : 0 < digitValue c := by
  have hne : digitValue c ≠ 0 := by
    intro hvalue
    apply hzero
    rw [← digitChar_digitValue h, hvalue]
    rfl
  omega

/-- A numeral without a leading zero is the text of its value, and that is not zero.  By induction
from the last digit, as the text is made. -/
theorem digits_value_of_head {s : List Char} (hdigits : ∀ c ∈ s, c.isDigit = true)
    (hne : s ≠ []) (hzero : s.head? ≠ some '0') : 0 < value s ∧ digits (value s) = s := by
  induction hlength : s.length generalizing s with
  | zero => exact absurd (List.length_eq_zero_iff.mp hlength) hne
  | succ n ih =>
      obtain ⟨front, c, rfl⟩ : ∃ front c, s = front ++ [c] :=
        ⟨s.dropLast, s.getLast hne, (List.dropLast_concat_getLast hne).symm⟩
      have hc : c.isDigit = true := hdigits c (by simp)
      have hlt := digitValue_lt hc
      rw [value_concat]
      cases front with
      | nil =>
          have hpos : 0 < digitValue c := digitValue_pos hc (by simpa using hzero)
          have hvalue : value [] = 0 := rfl
          rw [hvalue, Nat.mul_zero, Nat.zero_add]
          refine ⟨hpos, ?_⟩
          rw [digits, if_pos hlt, digitChar_digitValue hc]
          rfl
      | cons d front =>
          have hfront : ∀ e ∈ d :: front, e.isDigit = true := by
            intro e he
            exact hdigits e (List.mem_append_left _ he)
          obtain ⟨hpos, htext⟩ :=
            ih hfront (by simp) (by simpa using hzero) (by simpa using hlength)
          refine ⟨by omega, ?_⟩
          have hdiv : (10 * value (d :: front) + digitValue c) / 10 = value (d :: front) := by omega
          have hmod : (10 * value (d :: front) + digitValue c) % 10 = digitValue c := by omega
          rw [digits, if_neg (by omega), hdiv, hmod, htext, digitChar_digitValue hc]

theorem digits_value {s : List Char} (h : isCanonical s = true) : digits (value s) = s := by
  unfold isCanonical at h
  rw [Bool.and_eq_true, isNumeral_iff] at h
  obtain ⟨⟨hne, hdigits⟩, hcase⟩ := h
  by_cases hzero : s.head? = some '0'
  · -- Only the numeral zero begins with a zero.
    have hlength : s.length = 1 := by simpa [hzero] using hcase
    obtain ⟨c, rfl⟩ := List.length_eq_one_iff.mp hlength
    have hc : c = '0' := by simpa using hzero
    subst hc
    exact digits_zero
  · exact (digits_value_of_head hdigits hne hzero).2

theorem value_ne_zero {s : List Char} (h : isCanonical s = true) (hs : s ≠ ['0']) :
    value s ≠ 0 := by
  intro hvalue
  apply hs
  rw [← digits_value h, hvalue, digits_zero]

/-! ### The digits of a number -/

theorem digit_digitChar {d : Nat} (h : d < 10) :
    (digitChar d).isDigit = true ∧ digitValue (digitChar d) = d := by
  have hall : ∀ d : Fin 10, (digitChar d).isDigit = true ∧ digitValue (digitChar d) = d := by decide
  exact hall ⟨d, h⟩

theorem digits_ne_nil (n : Nat) : digits n ≠ [] := by
  rw [digits]
  split
  · exact List.cons_ne_nil _ _
  · simp

theorem isDigit_of_mem_digits {n : Nat} {c : Char} (h : c ∈ digits n) : c.isDigit = true := by
  fun_induction digits n with
  | case1 n hn =>
      rw [List.mem_singleton] at h
      exact h ▸ (digit_digitChar hn).1
  | case2 n hn ih =>
      rw [List.mem_append, List.mem_singleton] at h
      obtain hfront | rfl := h
      · exact ih hfront
      · exact (digit_digitChar (Nat.mod_lt n (by omega))).1

theorem value_digits (n : Nat) : value (digits n) = n := by
  fun_induction digits n with
  | case1 n hn =>
      have hvalue : value [digitChar n] = 10 * 0 + digitValue (digitChar n) := rfl
      rw [hvalue, (digit_digitChar hn).2]
      omega
  | case2 n hn ih =>
      rw [value_concat, ih, (digit_digitChar (Nat.mod_lt n (by omega))).2]
      omega

/-- Only the digits of zero begin with a zero. -/
theorem head?_digits_ne_zero {n : Nat} (h : n ≠ 0) : (digits n).head? ≠ some '0' := by
  fun_induction digits n with
  | case1 n hn =>
      rw [List.head?_cons, ne_eq, Option.some.injEq]
      intro hzero
      have hvalue := (digit_digitChar hn).2
      rw [hzero] at hvalue
      exact h hvalue.symm
  | case2 n hn ih =>
      obtain ⟨c, rest, hfront⟩ := List.exists_cons_of_ne_nil (digits_ne_nil (n / 10))
      have hhead := ih (by omega)
      rw [hfront] at hhead ⊢
      exact hhead

theorem isCanonical_digits (n : Nat) : isCanonical (digits n) = true := by
  have hnumeral : isNumeral (digits n) = true :=
    (isNumeral_iff _).mpr ⟨digits_ne_nil n, fun c => isDigit_of_mem_digits⟩
  rw [isCanonical, hnumeral, Bool.true_and]
  by_cases h : n = 0
  · subst h
    rw [digits_zero]
    rfl
  · have hhead : ((digits n).head? != some '0') = true := by
      simpa using head?_digits_ne_zero h
    rw [hhead, Bool.or_true]

/-! ### The text of an integer -/

theorem toInt_of_word? {n : Int} {i : Int64} (h : word? n = some i) : i.toInt = n := by
  unfold word? at h
  split at h
  · next hrange =>
      obtain ⟨hmin, hmax⟩ := hrange
      have hlow : Int64.minValue.toInt = -2 ^ 63 := by decide
      have hhigh : Int64.maxValue.toInt = 2 ^ 63 - 1 := by decide
      rw [Option.some.injEq] at h
      rw [← h]
      exact Int64.toInt_ofInt_of_le (by omega) (by omega)
  · cases h

theorem ofInt_natCast (n : Nat) : ofInt (n : Int) = digits n := rfl

theorem ofInt_neg_natCast {n : Nat} (h : n ≠ 0) : ofInt (-(n : Int)) = '-' :: digits n := by
  obtain ⟨m, rfl⟩ := Nat.exists_eq_succ_of_ne_zero h
  rfl

/-- The integer that is read off a decimal text has that text. -/
theorem ofInt_of_canonical? {s : List Char} {i : Int64} (h : canonical? s = some i) :
    ofInt i.toInt = s := by
  unfold canonical? at h
  split at h
  · next rest =>
      split at h
      · next hrest =>
          simp only [Bool.and_eq_true, bne_iff_ne, ne_eq] at hrest
          obtain ⟨hcanonical, hzero⟩ := hrest
          rw [toInt_of_word? h, ofInt_neg_natCast (value_ne_zero hcanonical hzero),
            digits_value hcanonical]
      · cases h
  · split at h
    · next hcanonical => rw [toInt_of_word? h, ofInt_natCast, digits_value hcanonical]
    · cases h

theorem word?_toInt (i : Int64) : word? i.toInt = some i := by
  have hlow : Int64.minValue.toInt = -2 ^ 63 := by decide
  have hhigh : Int64.maxValue.toInt = 2 ^ 63 - 1 := by decide
  have hmin := i.le_toInt
  have hmax := i.toInt_lt
  rw [word?, if_pos ⟨by omega, by omega⟩, Int64.ofInt_toInt]

/-- The decimal text of a 64-bit integer is read as this integer. -/
theorem canonical?_ofInt (i : Int64) : canonical? (ofInt i.toInt) = some i := by
  cases hi : i.toInt with
  | ofNat n =>
      have hword : word? (n : Int) = some i := by
        have hself := word?_toInt i
        rwa [hi] at hself
      obtain ⟨c, rest, hdigits⟩ := List.exists_cons_of_ne_nil (digits_ne_nil n)
      have hc : c ≠ '-' := by
        rintro rfl
        have hdigit : '-'.isDigit = true := isDigit_of_mem_digits (n := n) (by simp [hdigits])
        cases hdigit
      rw [ofInt, canonical?]
      · rw [isCanonical_digits, if_pos rfl, value_digits, hword]
      · rintro rest' hrest
        rw [hdigits] at hrest
        exact hc (List.cons.inj hrest).1
  | negSucc n =>
      have hword : word? (-((n + 1 : Nat) : Int)) = some i := by
        have hself := word?_toInt i
        rwa [hi] at hself
      have hzero : digits (n + 1) ≠ ['0'] := by
        intro h
        have hhead := head?_digits_ne_zero (n := n + 1) (by omega)
        rw [h] at hhead
        exact hhead rfl
      rw [ofInt, canonical?]
      simp only [isCanonical_digits, Bool.true_and, bne_iff_ne, ne_eq, hzero, not_false_eq_true,
        if_true, value_digits, hword]

/-! ### The standard text of an integer -/

theorem digitChar_eq {d : Nat} (h : d < 10) : digitChar d = Nat.digitChar d := by
  have hall : ∀ d : Fin 10, digitChar d = Nat.digitChar d := by decide
  exact hall ⟨d, h⟩

theorem digits_eq_toDigits (n : Nat) : digits n = Nat.toDigits 10 n := by
  fun_induction digits n with
  | case1 n hn => rw [Nat.toDigits_of_lt_base hn, digitChar_eq hn]
  | case2 n hn ih =>
      rw [Nat.toDigits_of_base_le (by omega) (by omega), ih, digitChar_eq (Nat.mod_lt n (by omega))]

/-- The decimal text of an integer is its text in the standard library. -/
theorem ofList_ofInt (n : Int) : String.ofList (ofInt n) = toString n := by
  rw [Int.toString_eq_repr]
  cases n with
  | ofNat n => rw [ofInt, digits_eq_toDigits]; rfl
  | negSucc n =>
      rw [ofInt, digits_eq_toDigits, Int.repr, String.ofList_cons]
      rfl

end Decimal

namespace Key

/-- A text that names a key is the text of that key. -/
@[simp] theorem chars_ofChars (s : List Char) : (ofChars s).chars = s := by
  unfold ofChars
  cases h : Decimal.canonical? s with
  | some i => exact Decimal.ofInt_of_canonical? h
  | none => exact String.toList_ofList

/-- Different texts name different keys. -/
theorem ofText_injective {s s' : String} (h : ofText s = ofText s') : s = s' := by
  have hchars := congrArg Key.chars h
  rw [ofText, ofText, chars_ofChars, chars_ofChars] at hchars
  exact String.toList_injective hchars

theorem ofChars_chars {k : Key} (h : k.IsCanonical) : ofChars k.chars = k := by
  have hread : ofText k.text = k := h
  rwa [ofText, text, String.toList_ofList] at hread

/-- Every index key is canonical, so only a name can be read as another key. -/
theorem isCanonical_index (i : Int64) : (index i).IsCanonical := by
  rw [IsCanonical, ofText, text, String.toList_ofList, chars, ofChars, Decimal.canonical?_ofInt]

/-- Canonical keys are told by their texts, one by one and in lists. -/
theorem eq_of_map_chars_eq {q q' : List Key} (h : ∀ k ∈ q, k.IsCanonical)
    (h' : ∀ k ∈ q', k.IsCanonical) (heq : q.map chars = q'.map chars) : q = q' := by
  have hread : ∀ {q : List Key}, (∀ k ∈ q, k.IsCanonical) → (q.map chars).map ofChars = q := by
    intro q hq
    rw [List.map_map]
    exact (List.map_congr_left fun k hk => ofChars_chars (hq k hk)).trans (List.map_id' q)
  rw [← hread h, heq, hread h']

/-- An index key has the decimal text of its integer. -/
theorem text_index (i : Int64) : (index i).text = toString i :=
  Decimal.ofList_ofInt i.toInt

/-- The text of the key that a text names is this text. -/
theorem text_ofText (s : String) : (ofText s).text = s := by
  rw [text, ofText, chars_ofChars, String.ofList_toList]

theorem ofText_toString (i : Int64) : ofText (toString i) = .index i := by
  rw [← text_index]
  exact isCanonical_index i

/-- A text names an index key exactly if it is the decimal text of the index. -/
theorem ofText_eq_index_iff (s : String) (i : Int64) : ofText s = .index i ↔ s = toString i := by
  constructor
  · intro h
    rw [← text_ofText s, h, text_index]
  · rintro rfl
    exact ofText_toString i

/-- A text that names no index key names itself. -/
theorem ofText_cases (s : String) : (∃ i, ofText s = .index i) ∨ ofText s = .name s := by
  unfold ofText ofChars
  cases Decimal.canonical? s.toList with
  | some i => exact .inl ⟨i, rfl⟩
  | none => exact .inr (by simp)

theorem isIndex_iff (k : Key) : k.isIndex = true ↔ ∃ i, k = .index i := by
  cases k with
  | index i => simp [isIndex, index?]
  | name s => simp [isIndex, index?]

/-- The 64-bit integers are the integers from `-2 ^ 63` up to `2 ^ 63`, the latter not included. -/
theorem exists_toInt_eq {n : Int} (hlow : -2 ^ 63 ≤ n) (hhigh : n < 2 ^ 63) :
    ∃ i : Int64, i.toInt = n :=
  ⟨.ofInt n, Int64.toInt_ofInt_of_le hlow hhigh⟩

/-- Texts and keys correspond.  A text is the text of the key that it names, so different texts name
different keys.  The text of an index is the decimal text of its integer, and among the texts those
of the integers from `-2 ^ 63` to `2 ^ 63 - 1` name the indices; every other text is a name. -/
theorem texts_correspond :
    (∀ s, (ofText s).text = s) ∧ (∀ s s', ofText s = ofText s' ↔ s = s') ∧
      (∀ i : Int64, (index i).text = toString i ∧ ofText (toString i) = .index i) ∧
      (∀ s i, ofText s = .index i ↔ s = toString i) ∧
      (∀ s, (ofText s).isIndex = true ↔ ∃ n : Int, -2 ^ 63 ≤ n ∧ n < 2 ^ 63 ∧ s = toString n) ∧
      ∀ s, ofText s = .name s ↔ ∀ i : Int64, s ≠ toString i := by
  refine ⟨text_ofText, fun s s' => ⟨ofText_injective, congrArg ofText⟩,
    fun i => ⟨text_index i, ofText_toString i⟩, ofText_eq_index_iff, fun s => ?_, fun s => ?_⟩
  · rw [isIndex_iff]
    constructor
    · rintro ⟨i, hi⟩
      exact ⟨i.toInt, i.le_toInt, i.toInt_lt, (ofText_eq_index_iff s i).mp hi⟩
    · rintro ⟨n, hlow, hhigh, rfl⟩
      obtain ⟨i, rfl⟩ := exists_toInt_eq hlow hhigh
      exact ⟨i, ofText_toString i⟩
  · constructor
    · rintro hname i hs
      rw [(ofText_eq_index_iff s i).mpr hs] at hname
      cases hname
    · intro hnone
      rcases ofText_cases s with ⟨i, hi⟩ | hname
      · exact absurd ((ofText_eq_index_iff s i).mp hi) (hnone i)
      · exact hname

example : ofText "-9223372036854775808" = .index Int64.minValue := by decide +kernel
example : ofText "9223372036854775808" = .name "9223372036854775808" := by decide +kernel

end Key

end Quill
