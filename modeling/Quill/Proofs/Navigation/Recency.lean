import Mathlib.Data.List.Dedup
import Mathlib.Data.List.DropRight
import Quill.Proofs.Navigation.Steady

/-!
# What a cache remembers

A key is touched when a path is inserted under it and when a look-up finds it.  What a cache holds
after any calls is told by the touches alone: the keys touched last, as many as there is room for,
each with the path that was inserted under it last.

A look-up that finds a key does what inserting the path found would do, so one step lemma, on a key
that is touched, serves both.  The keys held are the last ones of all keys touched, and cutting to
the last ones goes through a touch because a touch moves one key only.
-/

namespace Quill

/-- A call of a cache. -/
inductive CacheCall where
  | insert (key : CacheKey) (p : Path)
  | get (key : CacheKey)
  | contains (key : CacheKey)
  | clear

/-- The cache that a call leaves behind. -/
def CacheCall.after (c : Cache) : CacheCall → Cache
  | .insert key p => c.insert key p
  | .get key => (c.get key).2
  | .contains _ => c
  | .clear => c.clear

/-- What was done with a cache since it was cleared. -/
structure CacheHistory where
  /-- The keys touched, in the order of time and with repetitions. -/
  touched : List CacheKey
  /-- The path inserted last under a key. -/
  latest : CacheKey → Option Path

namespace CacheHistory

/-- Nothing was done yet. -/
def start : CacheHistory := ⟨[], fun _ => none⟩

def touch (h : CacheHistory) (key : CacheKey) : CacheHistory :=
  { h with touched := h.touched ++ [key] }

/-- The history with one more call of the cache. -/
def step (h : CacheHistory) (c : Cache) : CacheCall → CacheHistory
  | .insert key p => { h.touch key with latest := fun k => if k = key then some p else h.latest k }
  | .get key => if (c.get key).1.isSome then h.touch key else h
  | .contains _ => h
  | .clear => start

/-- The keys touched, each once, in the order of their last touches. -/
def distinct (h : CacheHistory) : List CacheKey :=
  h.touched.dedup

end CacheHistory

namespace Cache

/-- The cache and the history after calls performed one after the other. -/
def run : List CacheCall → Cache → CacheHistory → Cache × CacheHistory
  | [], c, h => (c, h)
  | call :: rest, c, h => run rest (call.after c) (h.step c call)

/-- The keys of the entries, least recently used first. -/
def keys (c : Cache) : List CacheKey :=
  c.entries.map (·.1)

end Cache

/-! ### Keys in the order of their last touches -/

namespace CacheHistory

variable {α : Type} [DecidableEq α]

/-- One more touch of a key moves it to the end. -/
theorem dedup_concat (l : List α) (a : α) :
    (l ++ [a]).dedup = l.dedup.filter (· ≠ a) ++ [a] := by
  induction l with
  | nil => simp
  | cons b l ih =>
      rw [List.cons_append]
      by_cases hb : b ∈ l
      · rw [List.dedup_cons_of_mem (List.mem_append_left _ hb), List.dedup_cons_of_mem hb, ih]
      · rw [List.dedup_cons_of_notMem hb]
        by_cases hba : b = a
        · subst hba
          rw [List.dedup_cons_of_mem (by simp), ih]
          simp
        · have hnot : b ∉ l ++ [a] := by simp [hb, hba]
          rw [List.dedup_cons_of_notMem hnot, ih]
          simp [hba]

theorem take_filter_take {l : List α} (h : l.Nodup) (a : α) (n : Nat) :
    ((l.take (n + 1)).filter (· ≠ a)).take n = (l.filter (· ≠ a)).take n := by
  induction l generalizing n with
  | nil => rfl
  | cons b l ih =>
      obtain ⟨hb, hl⟩ := List.nodup_cons.mp h
      by_cases hba : b = a
      · subst hba
        have hsame : ∀ m : List α, (∀ x ∈ m, x ∈ l) → m.filter (· ≠ b) = m := by
          intro m hm
          rw [List.filter_eq_self]
          intro x hx
          have hne : x ≠ b := fun h => hb (h ▸ hm x hx)
          simpa using hne
        have hskip : ∀ m : List α, (b :: m).filter (· ≠ b) = m.filter (· ≠ b) := by
          intro m
          simp
        rw [List.take_succ_cons, hskip, hskip, hsame l fun x hx => hx,
          hsame (l.take n) fun x hx => List.mem_of_mem_take hx, List.take_take, Nat.min_self]
      · cases n with
        | zero => rfl
        | succ n =>
            have hrest := ih hl n
            simpa [hba] using hrest

/-- Moving a key to the end commutes with cutting to the last ones. -/
theorem rtake_filter_rtake {l : List α} (h : l.Nodup) (a : α) (n : Nat) :
    ((l.rtake n).filter (· ≠ a) ++ [a]).rtake n = (l.filter (· ≠ a) ++ [a]).rtake n := by
  cases n with
  | zero => simp
  | succ n =>
      have hcut := take_filter_take (List.nodup_reverse.mpr h) a n
      rw [List.rtake_concat_succ, List.rtake_concat_succ]
      simp only [List.rtake_eq_reverse_take_reverse, ← List.filter_reverse, List.reverse_reverse,
        hcut]

end CacheHistory

/-! ### One call -/

namespace Cache

open CacheHistory

/-- A cache holds the keys of its history that were touched last, with the paths inserted last. -/
structure Follows (c : Cache) (h : CacheHistory) : Prop where
  keys_eq : c.keys = h.distinct.rtake c.capacity
  latest_eq : ∀ e ∈ c.entries, h.latest e.1 = some e.2

theorem follows_start (capacity : Nat) : (ofCapacity capacity).Follows .start where
  keys_eq := by simp [keys, ofCapacity, distinct, start]
  latest_eq e he := by simp [ofCapacity] at he

theorem rtake_map {α β : Type} (f : α → β) (l : List α) (n : Nat) :
    (l.rtake n).map f = (l.map f).rtake n := by
  rw [List.rtake, List.rtake, List.map_drop, List.length_map]

theorem keys_without (c : Cache) (key : CacheKey) :
    (c.without key).map (·.1) = c.keys.filter (· ≠ key) := by
  rw [without, keys, List.filter_map]
  rfl

theorem entries_insert (c : Cache) (key : CacheKey) (p : Path) :
    (c.insert key p).entries = (c.without key ++ [(key, p)]).rtake c.capacity := rfl

theorem keys_insert (c : Cache) (key : CacheKey) (p : Path) :
    (c.insert key p).keys = (c.keys.filter (· ≠ key) ++ [key]).rtake c.capacity := by
  rw [keys, entries_insert, rtake_map, List.map_append, keys_without]
  rfl

theorem contains_iff (c : Cache) (key : CacheKey) : c.contains key = true ↔ key ∈ c.keys := by
  rw [contains, find?, Option.isSome_map, List.find?_isSome, keys, List.mem_map]
  simp only [decide_eq_true_eq]

/-- An insertion touches its key. -/
theorem Follows.insert {c : Cache} {h : CacheHistory} (hc : c.Follows h) (key : CacheKey)
    (p : Path) : (c.insert key p).Follows (h.step c (.insert key p)) where
  keys_eq := by
    have hnodup : h.distinct.Nodup := List.nodup_dedup _
    calc (c.insert key p).keys
        = ((h.distinct.rtake c.capacity).filter (· ≠ key) ++ [key]).rtake c.capacity := by
          rw [keys_insert, hc.keys_eq]
      _ = (h.distinct.filter (· ≠ key) ++ [key]).rtake c.capacity :=
          rtake_filter_rtake hnodup key c.capacity
      _ = (h.touched ++ [key]).dedup.rtake c.capacity := by rw [dedup_concat, distinct]
  latest_eq e he := by
    have he : e ∈ c.without key ++ [(key, p)] := List.mem_of_mem_drop he
    rcases List.mem_append.mp he with he | he
    · obtain ⟨hmem, hne⟩ := List.mem_filter.mp he
      have hne : e.1 ≠ key := by simpa using hne
      show (if e.1 = key then some p else h.latest e.1) = some e.2
      rw [if_neg hne, hc.latest_eq e hmem]
    · rw [List.mem_singleton] at he
      subst he
      exact if_pos rfl

/-- Where there is room for all entries, a look-up that finds a path inserts it again. -/
theorem get_eq_insert {c : Cache} (hroom : c.entries.length ≤ c.capacity) {key : CacheKey}
    {p : Path} (h : c.find? key = some p) : c.get key = (some p, c.insert key p) := by
  have hshorter : (c.without key).length < c.entries.length := by
    rw [without, List.length_filter_lt_length_iff_exists]
    exact ⟨(key, p), mem_of_find? h, by simp⟩
  have hall : (c.without key ++ [(key, p)]).length - c.capacity = 0 := by
    rw [List.length_append, List.length_singleton]
    omega
  rw [Cache.get, h, insert, hall]
  rfl

theorem Follows.length_le {c : Cache} {h : CacheHistory} (hc : c.Follows h) :
    c.entries.length ≤ c.capacity := by
  have hlength := congrArg List.length hc.keys_eq
  rw [keys, List.length_map, List.rtake, List.length_drop] at hlength
  omega

/-- A look-up touches the key that it finds. -/
theorem Follows.get {c : Cache} {h : CacheHistory} (hc : c.Follows h) (key : CacheKey) :
    (c.get key).2.Follows (h.step c (.get key)) := by
  rw [step, get_fst]
  cases hfind : c.find? key with
  | none =>
      rw [get_snd_of_miss hfind]
      exact hc
  | some p =>
      -- The history of an insertion: the path found is the one inserted last.
      have hagain : h.step c (.insert key p) = h.touch key := by
        have hlatest : (fun k => if k = key then some p else h.latest k) = h.latest := by
          funext k
          by_cases hk : k = key
          · rw [if_pos hk, hk, hc.latest_eq _ (mem_of_find? hfind)]
          · rw [if_neg hk]
        rw [step, hlatest]
        rfl
      rw [get_eq_insert hc.length_le hfind, Option.isSome_some, if_pos rfl, ← hagain]
      exact hc.insert key p

/-- Every call keeps the cache in step with its history. -/
theorem Follows.step {c : Cache} {h : CacheHistory} (hc : c.Follows h) (call : CacheCall) :
    (call.after c).Follows (h.step c call) := by
  cases call with
  | insert key p => exact hc.insert key p
  | get key => exact hc.get key
  | contains key => exact hc
  | clear => exact follows_start c.capacity

theorem capacity_after (c : Cache) (call : CacheCall) : (call.after c).capacity = c.capacity := by
  cases call with
  | get key =>
      show (c.get key).2.capacity = c.capacity
      unfold Cache.get
      cases c.find? key with
      | none => rfl
      | some p => rfl
  | _ => rfl

/-! ### A run of calls -/

theorem Follows.run (calls : List CacheCall) {c : Cache} {h : CacheHistory} (hc : c.Follows h) :
    (Cache.run calls c h).1.Follows (Cache.run calls c h).2 ∧
      (Cache.run calls c h).1.capacity = c.capacity := by
  induction calls generalizing c h with
  | nil => exact ⟨hc, rfl⟩
  | cons call rest ih =>
      obtain ⟨hfollows, hcapacity⟩ := ih (hc.step call)
      exact ⟨hfollows, hcapacity.trans (capacity_after c call)⟩

/-- What a cache finds under a key is the path inserted last, if it holds the key at all. -/
theorem Follows.find?_eq {c : Cache} {h : CacheHistory} (hc : c.Follows h) (key : CacheKey) :
    c.find? key = if key ∈ c.keys then h.latest key else none := by
  have hheld := c.contains_iff key
  rw [contains] at hheld
  cases hfind : c.find? key with
  | none =>
      have hnot : key ∉ c.keys := by simpa [hfind] using hheld
      rw [if_neg hnot]
  | some p =>
      have hmem : key ∈ c.keys := by simpa [hfind] using hheld
      rw [if_pos hmem, hc.latest_eq _ (mem_of_find? hfind)]

/-- After any calls a cache holds the keys touched last since it was cleared, as many as it has room
for and as there are, least recently touched first.  Each is held once, with the path inserted last
under it, and exactly these keys are found.  The expressions are listed in the order in which they
are dropped: a new key goes behind them, and what there is no room for goes from the front. -/
theorem run_holds_last_touched (capacity : Nat) (calls : List CacheCall) :
    let c := (run calls (ofCapacity capacity) .start).1
    let h := (run calls (ofCapacity capacity) .start).2
    c.keys = h.distinct.rtake capacity ∧
      c.entries.length = min capacity h.distinct.length ∧
      c.keys.Nodup ∧
      (∀ e ∈ c.entries, h.latest e.1 = some e.2) ∧
      (∀ key, (c.contains key = true ↔ key ∈ c.keys) ∧
        (c.get key).1 = if key ∈ c.keys then h.latest key else none) ∧
      c.paths = (h.distinct.rtake capacity).map (·.path) ∧
      ∀ key p, key ∉ c.keys →
        (c.insert key p).entries = (c.entries ++ [(key, p)]).rtake capacity := by
  intro c h
  obtain ⟨hfollows, hcapacity⟩ := (follows_start capacity).run calls
  have hcapacity : c.capacity = capacity := hcapacity
  have hkeys : c.keys = h.distinct.rtake capacity := by
    rw [← hcapacity]
    exact hfollows.keys_eq
  refine ⟨hkeys, ?_, ?_, hfollows.latest_eq, fun key => ⟨c.contains_iff key, ?_⟩, ?_,
    fun key p hkey => ?_⟩
  · have hlength := congrArg List.length hkeys
    rw [keys, List.length_map, List.rtake, List.length_drop] at hlength
    omega
  · rw [hkeys]
    exact (List.nodup_dedup _).sublist (List.drop_sublist _ _)
  · rw [get_fst]
    exact hfollows.find?_eq key
  · rw [← hkeys, paths, keys, List.map_map]
    rfl
  · have hsame : c.without key = c.entries := by
      rw [without, List.filter_eq_self]
      intro e he
      have hne : e.1 ≠ key := fun h => hkey (h ▸ List.mem_map_of_mem he)
      simpa using hne
    rw [entries_insert, hsame, hcapacity]

end Cache

end Quill
