import Mathlib.Data.List.Basic
import Mathlib.Logic.Function.Iterate
import Quill.Proofs.Text.Joining

/-!
# Splitting texts into items

A list of items is trimmed as a whole, cut at its separators, and then every item is trimmed and the
empty ones are left out.  Trimming stops at every character that is not white space, so nothing is
trimmed off a list of bare items joined by a separator without white space, nor off the items that
are cut out of it.

Cutting is a loop over the text that is left.  Each step takes a marked separator, a separator or a
character off it, so there are at most as many steps as characters.

Main statement: splitting gives back the items that were marked and joined, and for every text the
loop ends and what it gives are bare items.
-/

namespace Quill.Text

/-! ### The loop -/

/-- A text that is being cut: the finished items, the item under way and the text that is left. -/
structure Cutting where
  items : List (List Char)
  item : List Char
  left : List Char

namespace Cutting

variable {separator : List Char}

/-- Take a marked separator, a separator or a character off the text that is left. -/
def step (separator : List Char) (c : Cutting) : Cutting :=
  if ('\\' :: separator).isPrefixOf c.left then
    ⟨c.items, c.item ++ separator, c.left.drop (separator.length + 1)⟩
  else if separator.isPrefixOf c.left then
    ⟨c.items ++ [c.item], [], c.left.drop separator.length⟩
  else
    ⟨c.items, c.item ++ c.left.take 1, c.left.drop 1⟩

/-- The items that come out in the end. -/
def pieces (separator : List Char) (c : Cutting) : List (List Char) :=
  c.items ++ (c.item ++ (cutFrom separator 0 c.left).1) :: (cutFrom separator 0 c.left).2

theorem pieces_of_left_eq_nil (items : List (List Char)) (item : List Char) :
    (Cutting.mk items item []).pieces separator = items ++ [item] := by
  simp [pieces, cutFrom]

/-- A step leaves less of the text. -/
theorem length_left_step_lt (hne : separator ≠ []) {c : Cutting} (h : c.left ≠ []) :
    (c.step separator).left.length < c.left.length := by
  have hpos := List.length_pos_iff.mpr hne
  have hleft := List.length_pos_iff.mpr h
  unfold step
  split
  · show (c.left.drop (separator.length + 1)).length < c.left.length
    rw [List.length_drop]
    omega
  · split
    · show (c.left.drop separator.length).length < c.left.length
      rw [List.length_drop]
      omega
    · show (c.left.drop 1).length < c.left.length
      rw [List.length_drop]
      omega

/-- A step does not change what comes out. -/
theorem pieces_step (hne : separator ≠ []) {c : Cutting} (h : c.left ≠ []) :
    (c.step separator).pieces separator = c.pieces separator := by
  obtain ⟨items, item, left⟩ := c
  obtain ⟨d, ds, rfl⟩ := List.exists_cons_of_ne_nil hne
  obtain ⟨x, rest, rfl⟩ := List.exists_cons_of_ne_nil h
  unfold step
  split
  · rename_i hmark
    dsimp only at hmark
    have hskip := cutFrom_drop (d :: ds) (d :: ds).length rest
    rw [pieces, pieces, cutFrom, if_pos hmark, hskip]
    simp
  · rename_i hmark
    split
    · rename_i hat
      dsimp only at hmark hat
      have hskip := cutFrom_drop (d :: ds) ds.length rest
      rw [pieces, pieces, cutFrom, if_neg hmark, if_pos hat, List.length_cons, Nat.add_sub_cancel,
        hskip]
      simp
    · rename_i hat
      dsimp only at hmark hat
      rw [pieces, pieces, cutFrom, if_neg hmark, if_neg hat]
      simp

/-- The loop ends after at most as many steps as there are characters, with the items that were to
come out. -/
theorem exists_iterate_step (hne : separator ≠ []) (c : Cutting) :
    ∃ n ≤ c.left.length, ∃ items item,
      (step separator)^[n] c = ⟨items, item, []⟩ ∧ items ++ [item] = c.pieces separator := by
  induction hlength : c.left.length using Nat.strongRecOn generalizing c with
  | ind m ih =>
      by_cases hleft : c.left = []
      · obtain ⟨items, item, left⟩ := c
        dsimp only at hleft
        subst hleft
        exact ⟨0, Nat.zero_le _, items, item, rfl, (pieces_of_left_eq_nil items item).symm⟩
      · have hless := length_left_step_lt hne hleft
        obtain ⟨n, hn, items, item, hrun, hpieces⟩ := ih _ (hlength ▸ hless) _ rfl
        refine ⟨n + 1, by omega, items, item, ?_, hpieces.trans (pieces_step hne hleft)⟩
        rw [Function.iterate_succ_apply, hrun]

end Cutting

variable {separator : List Char}

/-! ### Joined items are bare -/

/-- What begins and ends with bare lists is bare. -/
theorem IsBare.append {α : Type} {p : α → Bool} {xs ys : List α} (hx : IsBare p xs)
    (hy : IsBare p ys) (hxne : xs ≠ []) (hyne : ys ≠ []) (middle : List α) :
    IsBare p (xs ++ (middle ++ ys)) := by
  constructor
  · rw [List.head?_append_of_ne_nil xs hxne]
    exact hx.1
  · rw [← List.append_assoc, List.getLast?_append_of_ne_nil _ hyne]
    exact hy.2

/-- Marking a text leaves its last character. -/
theorem getLast?_marked (hne : separator ≠ []) (s : List Char) :
    (marked separator s).getLast? = s.getLast? := by
  induction s using separatorInduction hne with
  | nil => rw [marked_nil hne]
  | here s ih =>
      have hsome : (separator ++ s) ≠ [] := by simp [hne]
      have hlast : (separator ++ marked separator s).getLast? = (separator ++ s).getLast? := by
        rw [List.getLast?_append, List.getLast?_append, ih]
      rw [marked_separator hne, List.getLast?_cons, hlast, List.getLast?_eq_some_getLast hsome]
      rfl
  | other c s hc ih => rw [marked_cons hc, List.getLast?_cons, List.getLast?_cons, ih]

/-- The first character of a marked text is a backslash or that of the text. -/
theorem head?_marked (hne : separator ≠ []) (s : List Char) :
    (marked separator s).head? = some '\\' ∨ (marked separator s).head? = s.head? := by
  by_cases hat : separator <+: s
  · obtain ⟨rest, rfl⟩ := hat
    rw [marked_separator hne]
    exact .inl rfl
  · cases s with
    | nil => exact .inr (by rw [marked_nil hne])
    | cons c s => exact .inr (by rw [marked_cons hat]; rfl)

theorem isBare_marked (hne : separator ≠ []) {s : List Char} (h : IsBare isBlank s) :
    IsBare isBlank (marked separator s) := by
  constructor
  · rcases head?_marked hne s with hhead | hhead
    · rw [hhead]
      rintro c hc
      obtain rfl : '\\' = c := Option.some.inj hc
      decide
    · rw [hhead]
      exact h.1
  · rw [getLast?_marked hne]
    exact h.2

theorem marked_ne_nil (hne : separator ≠ []) {s : List Char} (h : s ≠ []) :
    marked separator s ≠ [] := by
  intro hmarked
  have hsub := sublist_marked hne s
  rw [hmarked] at hsub
  exact h (List.sublist_nil.mp hsub)

/-- Bare texts that are joined are bare at both ends of the whole. -/
theorem isBare_join (separator : List Char) {ss : List (List Char)}
    (h : ∀ s ∈ ss, s ≠ [] ∧ IsBare isBlank s) :
    IsBare isBlank (join separator ss) ∧ (ss ≠ [] → join separator ss ≠ []) := by
  induction ss with
  | nil => exact ⟨⟨by simp [join], by simp [join]⟩, fun hne => absurd rfl hne⟩
  | cons s rest ih =>
      obtain ⟨⟨hs, hbare⟩, hothers⟩ := List.forall_mem_cons.mp h
      obtain ⟨hrest, hsome⟩ := ih hothers
      by_cases hnone : rest = []
      · subst hnone
        exact ⟨hbare, fun _ => hs⟩
      · rw [join_cons separator s hnone]
        exact ⟨hbare.append hrest hs (hsome hnone) separator, fun _ => by simp [hs]⟩

/-! ### Splitting -/

theorem splitItems_of_ne_nil (hne : separator ≠ []) (s : List Char) :
    splitItems separator s =
      (((cutFrom separator 0 (trim s)).1 :: (cutFrom separator 0 (trim s)).2).map trim).filter
        (!·.isEmpty) := by
  rw [splitItems, List.isEmpty_eq_false_iff.mpr hne, if_neg Bool.false_ne_true]

/-- What splitting gives is never empty and has no white space around it. -/
theorem bare_of_mem_splitItems {s item : List Char} (h : item ∈ splitItems separator s) :
    item ≠ [] ∧ IsBare isBlank item := by
  by_cases hne : separator = []
  · subst hne
    cases htrim : trim s with
    | nil => simp [splitItems, htrim] at h
    | cons c rest =>
        have hitem : item = trim s := by simpa [splitItems, htrim] using h
        subst hitem
        exact ⟨by simp [htrim], isBare_trimBy isBlank s⟩
  · rw [splitItems_of_ne_nil hne, List.mem_filter, List.mem_map] at h
    obtain ⟨⟨piece, _, rfl⟩, hsome⟩ := h
    exact ⟨by simpa using hsome, isBare_trimBy isBlank piece⟩

/-- Trimming and leaving out the empty ones changes nothing in a list of bare items. -/
theorem map_trim_filter_of_bare {items : List (List Char)}
    (h : ∀ item ∈ items, item ≠ [] ∧ IsBare isBlank item) :
    (items.map trim).filter (!·.isEmpty) = items := by
  have hmap : items.map trim = items :=
    (List.map_congr_left fun item hitem => trimBy_eq_self_iff.mpr (h item hitem).2).trans
      (List.map_id' items)
  rw [hmap, List.filter_eq_self]
  intro item hitem
  simpa using (h item hitem).1

/-- Splitting undoes marking and joining. -/
theorem splitItems_join_marked (hne : separator ≠ []) (hslash : '\\' ∉ separator)
    {items : List (List Char)} (h : ∀ item ∈ items, item ≠ [] ∧ IsBare isBlank item)
    (hclear : ∀ item ∈ items.dropLast, EndsClear separator item) :
    splitItems separator (join separator (items.map (marked separator))) = items := by
  have hmarked : ∀ s ∈ items.map (marked separator), s ≠ [] ∧ IsBare isBlank s := by
    intro s hs
    obtain ⟨item, hitem, rfl⟩ := List.mem_map.mp hs
    exact ⟨marked_ne_nil hne (h item hitem).1, isBare_marked hne (h item hitem).2⟩
  have htrim : trim (join separator (items.map (marked separator))) =
      join separator (items.map (marked separator)) :=
    trimBy_eq_self_iff.mpr (isBare_join separator hmarked).1
  rw [splitItems_of_ne_nil hne, htrim]
  cases items with
  | nil => rfl
  | cons item rest =>
      rw [cut_join_marked hne hslash hclear]
      exact map_trim_filter_of_bare h

/-- Splitting at a separator of one character gives back what was marked and joined, and for every
text and every separator its loop ends, no later than the text, with pieces that are bare items once
they are trimmed and the empty ones left out. -/
theorem splitItems_undoes_join :
    (∀ (separator : Char) (items : List (List Char)), separator ≠ '\\' →
      (∀ item ∈ items, item ≠ [] ∧ IsBare isBlank item ∧ item.getLast? ≠ some '\\') →
      splitItems [separator] (join [separator] (items.map (marked [separator]))) = items) ∧
    ∀ separator s : List Char,
      (separator ≠ [] → ∃ n ≤ (trim s).length, ∃ items item,
        (Cutting.step separator)^[n] ⟨[], [], trim s⟩ = ⟨items, item, []⟩ ∧
          splitItems separator s = ((items ++ [item]).map trim).filter (!·.isEmpty)) ∧
      ∀ item ∈ splitItems separator s, item ≠ [] ∧ IsBare isBlank item := by
  refine ⟨fun separator items hslash h => ?_, fun separator s => ⟨fun hne => ?_, ?_⟩⟩
  · refine splitItems_join_marked (by simp) (by simpa using Ne.symm hslash) ?_ ?_
    · exact fun item hitem => ⟨(h item hitem).1, (h item hitem).2.1⟩
    · exact fun item hitem => endsClear_singleton (h item (List.dropLast_subset _ hitem)).2.2
  · obtain ⟨n, hn, items, item, hrun, hpieces⟩ :=
      Cutting.exists_iterate_step hne ⟨[], [], trim s⟩
    refine ⟨n, hn, items, item, hrun, ?_⟩
    rw [splitItems_of_ne_nil hne, hpieces]
    rfl
  · exact fun item => bare_of_mem_splitItems

/-- Items with separators inside of them and at their ends, with backslashes next to them, and a
text in which a separator of two characters overlaps itself. -/
theorem splitItems_undoes_join_commaItems :
    let items := ["a,b", "c\\,d", ",", "e f,"].map String.toList
    let s := " a::: \\::b: ::".toList
    ',' ≠ '\\' ∧ (∀ item ∈ items, item ≠ [] ∧ IsBare isBlank item ∧ item.getLast? ≠ some '\\') ∧
      join [','] (items.map (marked [','])) = "a\\,b,c\\\\,d,\\,,e f\\,".toList ∧
      splitItems [','] (join [','] (items.map (marked [',']))) = items ∧
      "::".toList ≠ [] ∧ splitItems "::".toList s = [['a'], ": ::b:".toList] ∧
      (∃ n ≤ (trim s).length, ∃ items item,
        (Cutting.step "::".toList)^[n] ⟨[], [], trim s⟩ = ⟨items, item, []⟩ ∧
          splitItems "::".toList s = ((items ++ [item]).map trim).filter (!·.isEmpty)) ∧
      ∀ item ∈ splitItems "::".toList s, item ≠ [] ∧ IsBare isBlank item := by
  intro items s
  have hslash : ',' ≠ '\\' := by decide
  have hne : "::".toList ≠ [] := by decide
  have hitems : ∀ item ∈ items, item ≠ [] ∧ IsBare isBlank item ∧ item.getLast? ≠ some '\\' := by
    have hcheck : ∀ item ∈ items, item ≠ [] ∧ trimBy isBlank item = item ∧
        item.getLast? ≠ some '\\' := by decide
    exact fun item hitem => (hcheck item hitem).imp_right (And.imp_left trimBy_eq_self_iff.mp)
  obtain ⟨hundone, hevery⟩ := splitItems_undoes_join
  obtain ⟨hloop, hbare⟩ := hevery "::".toList s
  exact ⟨hslash, hitems, by decide, hundone ',' items hslash hitems, hne, by decide, hloop hne,
    hbare⟩

end Quill.Text
