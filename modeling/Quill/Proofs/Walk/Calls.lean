import Mathlib.Data.List.Nodup
import Quill.Proofs.Tree.KeyText
import Quill.Proofs.Walk.Lens
import Quill.Proofs.Walk.Storing

/-!
# The calls of a callback

Replacing along a path does what its calls say.  Each call is told the value that the tree holds at
the end of a selected list of keys at that moment, and its answer is stored there; nothing else
happens to the tree.  Along a path without sub-paths and without repeated members there is one call
for each selected list of keys that the tree holds something at.

The calls are those that a callback writes down which answers like the given one.
-/

namespace Quill

variable {σ : Type}

/-- A call of a callback: what it was told, and what it answered. -/
structure Visited where
  visit : Visit
  answer : Value

/-- The callback that answers alike and writes every call down. -/
def Callback.recorded (f : Callback σ) : Callback (σ × List Visited) := fun v s =>
  ((f v s.1).1, (f v s.1).2, s.2 ++ [⟨v, (f v s.1).1⟩])

/-! ### Runs of calls -/

/-- A run of calls from one tree and state to another.  Each call is told a value that the tree
holds at that moment at the end of selected keys, the last of them, the keys from the root on, and
the root.  Its answer is stored in place of the value.  The keys of `trail` lead to the tree. -/
inductive Calls (f : Callback σ) (root : Tree) (S : List Key → Prop) (trail : List Key) :
    Tree × σ → List Visited → Tree × σ → Prop where
  | none (ts : Tree × σ) : Calls f root S trail ts [] ts
  | call {t : Tree} {s : σ} {q : List Key} {k : Key} {v : Value} {visit : Visit}
      {rest : List Visited} {after : Tree × σ} (selected : S (q ++ [k]))
      (there : t.at? (q ++ [k]) = some v) (told : visit = ⟨v, k, trail ++ (q ++ [k]), root⟩)
      (others : Calls f root S trail (t.store (f visit s).1 (q ++ [k]), (f visit s).2) rest after) :
      Calls f root S trail (t, s) (⟨visit, (f visit s).1⟩ :: rest) after

namespace Calls

variable {f : Callback σ} {root : Tree} {S S' : List Key → Prop} {trail : List Key}
  {ts ts' ts'' : Tree × σ} {calls calls' : List Visited}

theorem append (h : Calls f root S trail ts calls ts') (h' : Calls f root S trail ts' calls' ts'') :
    Calls f root S trail ts (calls ++ calls') ts'' := by
  induction h with
  | none => exact h'
  | call selected there told _ ih => exact .call selected there told (ih h')

theorem mono (hsub : ∀ q, S q → S' q) (h : Calls f root S trail ts calls ts') :
    Calls f root S' trail ts calls ts' := by
  induction h with
  | none => exact .none _
  | call selected there told _ ih => exact .call (hsub _ selected) there told ih

/-- Calls on the map under a key are calls on the tree that holds it. -/
theorem underKey {t : Tree} {k : Key} {us us' : Tree × σ}
    (h : Calls f root S (trail ++ [k]) us calls us') (hk : t.get? k = some (.map us.1)) :
    Calls f root (UnderKey k S) trail (t, us.2) calls (t.insert k (.map us'.1), us'.2) := by
  induction h generalizing t with
  | none us =>
      rw [Tree.insert_get? hk]
      exact .none _
  | @call u s q k' v visit rest after selected there told others ih =>
      have hne : q ++ [k'] ≠ [] := by simp
      have hthere : t.at? ((k :: q) ++ [k']) = some v := by
        rw [List.cons_append, Tree.at?_of_get? hk]
        exact there
      have htold : visit = ⟨v, k', trail ++ ((k :: q) ++ [k']), root⟩ := by
        rw [told]
        simp
      refine .call ⟨q ++ [k'], rfl, selected⟩ hthere htold ?_
      have hstored := Tree.store_under (f visit s).1 hk hne
      have hrest := ih (t := t.insert k (.map (u.store (f visit s).1 (q ++ [k']))))
        (Tree.get?_insert_self _ _ _)
      rw [Tree.insert_insert_self] at hrest
      rw [List.cons_append, hstored]
      exact hrest

/-- Calls change nothing but the values they are told. -/
theorem frame (h : Calls f root S trail ts calls ts') :
    Frame (· = ·) (fun q => ∃ c ∈ calls, c.visit.trail = trail ++ q) ts.1.at? ts'.1.at? := by
  induction h with
  | none => exact .refl isKeeping_eq _ _
  | @call t s q k v visit rest after selected there told others ih =>
      have hstore := Tree.frame_store_of_at? (f visit s).1 there (by simp)
      refine (hstore.mono ?_).trans isKeeping_eq (ih.mono ?_)
      · rintro r rfl
        exact ⟨_, List.mem_cons_self, by rw [told]⟩
      · rintro r ⟨c, hc, hr⟩
        exact ⟨c, List.mem_cons_of_mem _ hc, hr⟩

/-- Answers that are what the calls are told change nothing. -/
theorem eq_of_answers (hf : ∀ v s, (f v s).1 = v.value) (h : Calls f root S trail ts calls ts') :
    ts'.1 = ts.1 := by
  induction h with
  | none => rfl
  | @call t s q k v visit rest after selected there told others ih =>
      have hanswer : (f visit s).1 = v := by
        rw [hf, told]
      rw [ih, hanswer, Tree.store_at? there (by simp)]

end Calls

/-! ### The calls of a walk -/

/-- A walk is a run of calls at selected lists of keys, and the walk with a callback that writes
them down gives the same tree and state and those calls. -/
def Records (f : Callback σ) (root : Tree) (S : List Key → Prop) (trail : List Key)
    (ts walked : Tree × σ) (recorded : List Visited → Tree × σ × List Visited) : Prop :=
  ∃ calls, Calls f root S trail ts calls walked ∧
    ∀ log, recorded log = (walked.1, walked.2, log ++ calls)

namespace Records

variable {f : Callback σ} {root : Tree} {S S' : List Key → Prop} {trail : List Key}

theorem nothing (ts : Tree × σ) :
    Records f root S trail ts ts fun log => (ts.1, ts.2, log) :=
  ⟨[], .none ts, fun log => by rw [List.append_nil]⟩

theorem mono {ts walked : Tree × σ} {recorded : List Visited → Tree × σ × List Visited}
    (hsub : ∀ q, S q → S' q) (h : Records f root S trail ts walked recorded) :
    Records f root S' trail ts walked recorded := by
  obtain ⟨calls, hcalls, hrecorded⟩ := h
  exact ⟨calls, hcalls.mono hsub, hrecorded⟩

/-- One walk after another; `next` is the second one with a callback that writes its calls down. -/
theorem seq {ts ts' ts'' : Tree × σ} {first : List Visited → Tree × σ × List Visited}
    (next : Tree × σ × List Visited → Tree × σ × List Visited)
    (h : Records f root S trail ts ts' first)
    (h' : Records f root S' trail ts' ts'' fun log => next (ts'.1, ts'.2, log)) :
    Records f root (fun q => S q ∨ S' q) trail ts ts'' fun log => next (first log) := by
  obtain ⟨calls, hcalls, hfirst⟩ := h
  obtain ⟨calls', hcalls', hnext⟩ := h'
  refine ⟨calls ++ calls', (hcalls.mono fun _ => .inl).append (hcalls'.mono fun _ => .inr), ?_⟩
  intro log
  have hlog := hnext (log ++ calls)
  dsimp only at hlog ⊢
  rw [hfirst log, hlog, List.append_assoc]

end Records

namespace Tree

section Step

variable {τ : Type} (f : Callback τ) (root : Tree) (trail : List Key) (isLast : Bool)
  (inner : List Key → Tree → τ → Tree × τ) {t : Tree} (s : τ) {k : Key}

theorem filterAt_of_none (h : t.get? k = none) :
    filterAt f root trail isLast inner (t, s) k = (t, s) := by
  simp only [filterAt, h]

theorem filterAt_last {v : Value} (h : t.get? k = some v) :
    filterAt f root trail true inner (t, s) k =
      (t.insert k (f ⟨v, k, trail ++ [k], root⟩ s).1, (f ⟨v, k, trail ++ [k], root⟩ s).2) := by
  simp only [filterAt, h, if_true]

theorem filterAt_map {child : Tree} (h : t.get? k = some (.map child)) :
    filterAt f root trail false inner (t, s) k =
      (t.insert k (.map (inner (trail ++ [k]) child s).1), (inner (trail ++ [k]) child s).2) := by
  simp only [filterAt, h, Bool.false_eq_true, if_false]

theorem filterAt_of_not_map {v : Value} (h : t.get? k = some v) (hv : v.isMap = false) :
    filterAt f root trail false inner (t, s) k = (t, s) := by
  simp only [filterAt, h, Bool.false_eq_true, if_false]
  cases v with
  | map child => cases hv
  | _ => rfl

end Step

/-- Replacing under one key. -/
theorem records_filterAt (f : Callback σ) (root : Tree) (trail : List Key) {isLast : Bool}
    {inner : List Key → Tree → σ → Tree × σ}
    {inner' : List Key → Tree → σ × List Visited → Tree × σ × List Visited}
    {behind : List Key → Prop} (hlast : isLast = true → behind [])
    (hinner : ∀ trail t s, Records f root behind trail (t, s) (inner trail t s)
      fun log => inner' trail t (s, log)) (t : Tree) (s : σ) (k : Key) :
    Records f root (UnderKey k behind) trail (t, s) (filterAt f root trail isLast inner (t, s) k)
      fun log => filterAt f.recorded root trail isLast inner' (t, s, log) k := by
  cases hv : t.get? k with
  | none =>
      simp only [filterAt_of_none _ _ _ _ _ _ hv]
      exact .nothing (t, s)
  | some v =>
      cases isLast with
      | true =>
          have hthere : t.at? ([] ++ [k]) = some v := by
            rw [List.nil_append, Tree.at?_of_get? hv, Value.at?_nil]
          simp only [filterAt_last _ _ _ _ _ hv]
          exact ⟨_, .call ⟨[], rfl, hlast rfl⟩ hthere rfl (.none _), fun log => rfl⟩
      | false =>
          rcases v.exists_map_or_isMap_eq_false with ⟨child, rfl⟩ | hmap
          · obtain ⟨calls, hcalls, hrecorded⟩ := hinner (trail ++ [k]) child s
            simp only [filterAt_map _ _ _ _ _ hv]
            refine ⟨calls, hcalls.underKey hv, fun log => ?_⟩
            have hlog := hrecorded log
            dsimp only at hlog ⊢
            rw [hlog]
          · simp only [filterAt_of_not_map _ _ _ _ _ hv hmap]
            exact .nothing (t, s)

/-- Replacing under one key after the other. -/
theorem records_foldl_filterAt (f : Callback σ) (root : Tree) (trail : List Key) {isLast : Bool}
    {inner : List Key → Tree → σ → Tree × σ}
    {inner' : List Key → Tree → σ × List Visited → Tree × σ × List Visited}
    {behind S : List Key → Prop} (hlast : isLast = true → behind [])
    (hinner : ∀ trail t s, Records f root behind trail (t, s) (inner trail t s)
      fun log => inner' trail t (s, log)) {ks : List Key}
    (hsub : ∀ k ∈ ks, ∀ q, UnderKey k behind q → S q) (ts : Tree × σ) :
    Records f root S trail ts (ks.foldl (filterAt f root trail isLast inner) ts)
      fun log => ks.foldl (filterAt f.recorded root trail isLast inner') (ts.1, ts.2, log) := by
  induction ks generalizing ts with
  | nil => exact .nothing ts
  | cons k ks ih =>
      obtain ⟨hk, hks⟩ := List.forall_mem_cons.mp hsub
      have hstep := records_filterAt f root trail hlast hinner ts.1 ts.2 k
      have hboth := (hstep.mono hk).seq (fun r => ks.foldl
        (filterAt f.recorded root trail isLast inner') r) (ih hks _)
      exact hboth.mono fun q => or_self_iff.mp

end Tree

mutual

/-- Replacing along a path is a run of calls at lists of keys that the path selects. -/
theorem Path.records_filterFrom (f : Callback σ) (root : Tree) : ∀ (p : Path) (trail : List Key)
    (t : Tree) (s : σ), Records f root p.Selects trail (t, s) (p.filterFrom f root trail t s)
      fun log => p.filterFrom f.recorded root trail t (s, log)
  | .nil, _, t, s => .nothing (t, s)
  | .key text rest, trail, t, s => by
      have hrest := Path.records_filterFrom f root rest
      simp only [Path.filterFrom]
      exact Tree.records_foldl_filterAt f root trail Path.selects_nil_of_isNil hrest
        (fun k hk q => Path.selects_of_underKey hk) (t, s)
  | .group ms rest, trail, t, s => by
      have hrest := Path.records_filterFrom f root rest
      simp only [Path.filterFrom]
      exact Members.records_filterFrom f root ms Path.selects_nil_of_isNil hrest trail t s

theorem Members.records_filterFrom (f : Callback σ) (root : Tree) {isLast : Bool}
    {inner : List Key → Tree → σ → Tree × σ}
    {inner' : List Key → Tree → σ × List Visited → Tree × σ × List Visited}
    {behind : List Key → Prop} :
    ∀ ms : Members, (isLast = true → behind []) →
    (∀ trail t s, Records f root behind trail (t, s) (inner trail t s)
      fun log => inner' trail t (s, log)) →
    ∀ (trail : List Key) (t : Tree) (s : σ), Records f root (ms.Selects behind) trail (t, s)
      (ms.filterFrom f root isLast inner trail t s)
      fun log => ms.filterFrom f.recorded root isLast inner' trail t (s, log)
  | .nil, _, _, _, t, s => .nothing (t, s)
  | .key text rest, hlast, hinner, trail, t, s => by
      have hfirst := Tree.records_filterAt f root trail hlast hinner t s (.ofText text)
      have hrest := Members.records_filterFrom f root rest hlast hinner trail
      exact hfirst.seq (fun r => rest.filterFrom f.recorded root isLast inner' trail r.1 r.2)
        (hrest _ _)
  | .path sub rest, hlast, hinner, trail, t, s => by
      have hfirst := Path.records_filterFrom f root sub trail t s
      have hrest := Members.records_filterFrom f root rest hlast hinner trail
      exact hfirst.seq (fun r => rest.filterFrom f.recorded root isLast inner' trail r.1 r.2)
        (hrest _ _)

end

/-! ### One call for each list of keys -/

/-- The texts of the keys among the members of a group. -/
def Members.texts : Members → List String
  | .nil => []
  | .key text rest => text :: rest.texts
  | .path _ rest => rest.texts

/-- No group of the path repeats a key. -/
def Path.NoRepeat : Path → Prop
  | .nil => True
  | .key _ rest => rest.NoRepeat
  | .group members rest => members.texts.Nodup ∧ rest.NoRepeat

theorem Members.keys_eq_map_texts (ms : Members) : ms.keys = ms.texts.map Key.ofText := by
  induction ms using Members.texts.induct with
  | case1 => rfl
  | case2 text rest ih => rw [keys, texts, List.map_cons, ih]
  | case3 sub rest ih => rw [keys, texts, ih]

/-- Different texts name different keys. -/
theorem Members.nodup_keys {ms : Members} (h : ms.texts.Nodup) : ms.keys.Nodup := by
  rw [Members.keys_eq_map_texts]
  exact h.map fun _ _ h => Key.ofText_injective h

theorem Members.filterFrom_eq_foldl {τ : Type} (f : Callback τ) (root : Tree) {isLast : Bool}
    {inner : List Key → Tree → τ → Tree × τ} {ms : Members} (hms : ms.KeysOnly) (trail : List Key)
    (t : Tree) (s : τ) : ms.filterFrom f root isLast inner trail t s =
      ms.keys.foldl (Tree.filterAt f root trail isLast inner) (t, s) := by
  match ms, hms with
  | .nil, _ => rfl
  | .key text rest, hms =>
      have hrest : rest.KeysOnly := hms
      rw [Members.filterFrom, Members.keys, List.foldl_cons]
      exact Members.filterFrom_eq_foldl f root hrest trail _ _

/-- The last step selects the list that ends there, and no other. -/
theorem Path.selects_iff_of_isNil {p : Path} (h : p.isNil = true) (q : List Key) :
    p.Selects q ↔ q = [] :=
  ⟨Path.eq_nil_of_selects_of_isNil h q, fun hq => hq ▸ Path.selects_nil_of_isNil h⟩

/-- Behind the last step a path without sub-paths selects something only at its end. -/
theorem Path.not_selects_nil_of_noSub {p : Path} (hp : p.NoSub) (hne : p.isNil = false) :
    ¬p.Selects [] := by
  cases p with
  | nil => cases hne
  | key text rest => exact Path.not_selects_key_nil text rest
  | group ms rest =>
      intro h
      obtain ⟨k, _, tail, htail, _⟩ := (Members.selects_iff hp.1 []).mp h
      cases htail

/-- What a path selects and a tree holds goes through one of the keys of the first segment. -/
theorem Path.exists_mem_selectedKeys {text : String} {rest : Path} {t : Tree} {q : List Key}
    (hq : (Path.key text rest).Selects q) (hthere : (t.at? q).isSome) :
    ∃ k ∈ selectedKeys text t, UnderKey k rest.Selects q := by
  cases q with
  | nil => exact absurd hq (not_selects_key_nil text rest)
  | cons k tail =>
      obtain ⟨hk, htail⟩ := (selects_key_cons text rest k tail).mp hq
      refine ⟨k, ?_, tail, rfl, htail⟩
      obtain ⟨w, hw⟩ := Option.isSome_iff_exists.mp hthere
      obtain ⟨v, hv, _⟩ := Tree.exists_get?_of_at? hw
      by_cases hwild : text = wildcard
      · rw [selectedKeys, if_pos hwild]
        exact Tree.mem_keys_of_get? hv
      · rw [selectedKeys_of_ne_wildcard hwild, List.mem_singleton]
        exact hk.resolve_left hwild

/-- Between two lists of written calls stands one call for each selected list of keys that leads to
something in a tree. -/
def CallsOnce (S : List Key → Prop) (trail : List Key) (t : Tree) (before after : List Visited) :
    Prop :=
  ∃ (calls : List Visited) (qs : List (List Key)), after = before ++ calls ∧
    calls.map (·.visit.trail) = qs.map (trail ++ ·) ∧ qs.Nodup ∧
    ∀ q, q ∈ qs ↔ S q ∧ (t.at? q).isSome

namespace CallsOnce

variable {S S' : List Key → Prop} {trail : List Key} {t : Tree} {before middle after : List Visited}

theorem congr (h : CallsOnce S trail t before after)
    (hiff : ∀ q, (t.at? q).isSome → (S q ↔ S' q)) : CallsOnce S' trail t before after := by
  obtain ⟨calls, qs, hafter, hcalls, hnodup, hmem⟩ := h
  refine ⟨calls, qs, hafter, hcalls, hnodup, fun q => ?_⟩
  rw [hmem, and_congr_left (hiff q)]

theorem nothing (h : ∀ q, S q → t.at? q = none) : CallsOnce S trail t before before := by
  refine ⟨[], [], (List.append_nil _).symm, rfl, List.nodup_nil, fun q => ?_⟩
  simp only [List.not_mem_nil, false_iff, not_and]
  intro hq
  simp [h q hq]

/-- One call at the end of one key. -/
theorem single {k : Key} {v : Value} (hv : t.get? k = some v) (hS : ∀ q, S q ↔ q = [])
    {call : Visited} (hcall : call.visit.trail = trail ++ [k]) :
    CallsOnce (UnderKey k S) trail t before (before ++ [call]) := by
  refine ⟨[call], [[k]], rfl, ?_, List.nodup_singleton _, fun q => ?_⟩
  · rw [List.map_singleton, List.map_singleton, hcall]
  · rw [List.mem_singleton]
    constructor
    · rintro rfl
      refine ⟨⟨[], rfl, (hS []).mpr rfl⟩, ?_⟩
      rw [Tree.at?_of_get? hv, Value.at?_nil]
      rfl
    · rintro ⟨⟨tail, rfl, htail⟩, _⟩
      rw [(hS tail).mp htail]

/-- Calls in the map under a key are calls in the tree that holds it. -/
theorem underKey {k : Key} {child : Tree} (hv : t.get? k = some (.map child))
    (h : CallsOnce S (trail ++ [k]) child before after) :
    CallsOnce (UnderKey k S) trail t before after := by
  obtain ⟨calls, qs, hafter, hcalls, hnodup, hmem⟩ := h
  refine ⟨calls, qs.map (k :: ·), hafter, ?_, hnodup.map List.cons_injective, fun q => ?_⟩
  · rw [hcalls, List.map_map]
    simp
  · rw [List.mem_map]
    constructor
    · rintro ⟨tail, htail, rfl⟩
      obtain ⟨hselected, hthere⟩ := (hmem tail).mp htail
      exact ⟨⟨tail, rfl, hselected⟩, by rwa [Tree.at?_of_get? hv]⟩
    · rintro ⟨⟨tail, rfl, hselected⟩, hthere⟩
      rw [Tree.at?_of_get? hv] at hthere
      exact ⟨tail, (hmem tail).mpr ⟨hselected, hthere⟩, rfl⟩

/-- Calls after calls at other lists of keys. -/
theorem append (h : CallsOnce S trail t before middle) (h' : CallsOnce S' trail t middle after)
    (hapart : ∀ q, S q → ¬S' q) : CallsOnce (fun q => S q ∨ S' q) trail t before after := by
  obtain ⟨calls, qs, rfl, hcalls, hnodup, hmem⟩ := h
  obtain ⟨calls', qs', rfl, hcalls', hnodup', hmem'⟩ := h'
  refine ⟨calls ++ calls', qs ++ qs', List.append_assoc _ _ _, ?_, ?_, fun q => ?_⟩
  · rw [List.map_append, List.map_append, hcalls, hcalls']
  · refine List.nodup_append.mpr ⟨hnodup, hnodup', ?_⟩
    rintro q hq q' hq' rfl
    exact hapart q ((hmem q).mp hq).1 ((hmem' q).mp hq').1
  · rw [List.mem_append, hmem, hmem', ← or_and_right]

end CallsOnce

namespace Tree

/-- Replacing under one key leaves the others alone. -/
theorem get?_filterAt_of_ne {τ : Type} (f : Callback τ) (root : Tree) (trail : List Key)
    {isLast : Bool} {inner : List Key → Tree → τ → Tree × τ} (ts : Tree × τ) {k k' : Key}
    (h : k ≠ k') :
    (filterAt f root trail isLast inner ts k).1.get? k' = ts.1.get? k' := by
  rcases filterAt_cases f root trail isLast inner ts k with
    ⟨_, v, _, v', hstep⟩ | ⟨_, child, _, hstep⟩ | hstep
  · rw [hstep, get?_insert_of_ne _ _ h]
  · rw [hstep, get?_insert_of_ne _ _ h]
  · rw [hstep]

section Once

variable (f : Callback σ) (root : Tree) {isLast : Bool} {behind : List Key → Prop}
  {inner : List Key → Tree → σ × List Visited → Tree × σ × List Visited}
  (hlast : isLast = true → ∀ q, behind q ↔ q = []) (hbehind : isLast = false → ¬behind [])
  (hinner : isLast = false → ∀ trail t s log, t.Distinct →
    CallsOnce behind trail t log (inner trail t (s, log)).2.2)
  {t : Tree} (ht : t.Distinct) (trail : List Key)

include hlast hbehind hinner ht

theorem callsOnce_filterAt (ts : Tree × σ × List Visited) {k : Key}
    (hk : ts.1.get? k = t.get? k) : CallsOnce (UnderKey k behind) trail t ts.2.2
      (filterAt f.recorded root trail isLast inner ts k).2.2 := by
  obtain ⟨u, s, log⟩ := ts
  dsimp only at hk ⊢
  cases hv : t.get? k with
  | none =>
      rw [filterAt_of_none _ _ _ _ _ _ (hk.trans hv)]
      refine .nothing ?_
      rintro q ⟨tail, rfl, _⟩
      rw [at?_cons, hv, Option.bind_none]
  | some v =>
      cases isLast with
      | true =>
          rw [filterAt_last _ _ _ _ _ (hk.trans hv)]
          exact .single hv (hlast rfl) rfl
      | false =>
          rcases v.exists_map_or_isMap_eq_false with ⟨child, rfl⟩ | hmap
          · rw [filterAt_map _ _ _ _ _ (hk.trans hv)]
            exact .underKey hv (hinner rfl (trail ++ [k]) child s log (ht.of_get? hv))
          · rw [filterAt_of_not_map _ _ _ _ _ (hk.trans hv) hmap]
            refine .nothing ?_
            rintro q ⟨tail, rfl, htail⟩
            cases tail with
            | nil => exact absurd htail (hbehind rfl)
            | cons k' tail => rw [at?_of_get? hv, Value.at?_cons_of_not_map hmap]

theorem callsOnce_foldl_filterAt {ks : List Key} (hks : ks.Nodup)
    (ts : Tree × σ × List Visited) (hsame : ∀ k ∈ ks, ts.1.get? k = t.get? k) :
    CallsOnce (fun q => ∃ k ∈ ks, UnderKey k behind q) trail t ts.2.2
      (ks.foldl (filterAt f.recorded root trail isLast inner) ts).2.2 := by
  induction ks generalizing ts with
  | nil => exact .nothing fun q ⟨k, hk, _⟩ => by cases hk
  | cons k ks ih =>
      obtain ⟨hnot, hks⟩ := List.nodup_cons.mp hks
      obtain ⟨hk, hsame⟩ := List.forall_mem_cons.mp hsame
      have hothers : ∀ k' ∈ ks,
          (filterAt f.recorded root trail isLast inner ts k).1.get? k' = t.get? k' := by
        intro k' hk'
        have hne : k ≠ k' := fun h => hnot (h ▸ hk')
        rw [get?_filterAt_of_ne f.recorded root trail ts hne, hsame k' hk']
      have hfirst := callsOnce_filterAt f root hlast hbehind hinner ht trail ts hk
      have hboth := hfirst.append (ih hks _ hothers) ?_
      · refine hboth.congr fun q _ => ?_
        simp only [List.exists_mem_cons_iff]
      · -- The lists of keys begin with different keys.
        rintro q ⟨tail, rfl, _⟩ ⟨k', hk', tail', htail', _⟩
        obtain ⟨rfl, _⟩ := List.cons.inj htail'
        exact hnot hk'

end Once

end Tree

/-- Replacing along a path without sub-paths and repetitions makes one call for each selected list
of keys that leads to something. -/
theorem Path.callsOnce_filterFrom (f : Callback σ) (root : Tree) : ∀ p : Path, p.NoSub →
    p.NoRepeat → p.isNil = false → ∀ (trail : List Key) (t : Tree) (s : σ) (log : List Visited),
    t.Distinct →
    CallsOnce p.Selects trail t log (p.filterFrom f.recorded root trail t (s, log)).2.2
  | .nil, _, _, hne, _, _, _, _, _ => by cases hne
  | .key text rest, hsub, hrepeat, _, trail, t, s, log, ht => by
      have hks : (Path.selectedKeys text t).Nodup := by
        unfold Path.selectedKeys
        split
        · exact ht.nodup_keys
        · exact List.nodup_singleton _
      have hcalls := Tree.callsOnce_foldl_filterAt f root (Path.selects_iff_of_isNil (p := rest))
        (Path.not_selects_nil_of_noSub hsub)
        (fun h => Path.callsOnce_filterFrom f root rest hsub hrepeat h)
        ht trail hks (t, s, log) fun _ _ => rfl
      refine hcalls.congr fun q hthere => ?_
      constructor
      · rintro ⟨k, hk, hq⟩
        exact Path.selects_of_underKey hk hq
      · exact fun hq => Path.exists_mem_selectedKeys hq hthere
  | .group ms rest, hsub, hrepeat, _, trail, t, s, log, ht => by
      have hcalls := Tree.callsOnce_foldl_filterAt f root (Path.selects_iff_of_isNil (p := rest))
        (Path.not_selects_nil_of_noSub hsub.2)
        (fun h => Path.callsOnce_filterFrom f root rest hsub.2 hrepeat.2 h)
        ht trail (Members.nodup_keys hrepeat.1) (t, s, log) fun _ _ => rfl
      rw [Path.filterFrom, Members.filterFrom_eq_foldl _ _ hsub.1]
      exact hcalls.congr fun q _ => (Members.selects_iff hsub.1 q).symm

/-! ### Replaying -/

/-- Store the answers of calls where the calls were made, one after the other. -/
def Tree.replay (t : Tree) (calls : List Visited) : Tree :=
  calls.foldl (fun t c => t.store c.answer c.visit.trail) t

/-- What calls were told along a path, and that one tree becomes another by their answers alone. -/
structure Accounts (p : Path) (t : Tree) (calls : List Visited) (t' : Tree) : Prop where
  /-- Every call is told the tree from before the first call. -/
  root : ∀ c ∈ calls, c.visit.root = t
  /-- The key is the last of the keys from the root on. -/
  key : ∀ c ∈ calls, c.visit.trail.getLast? = some c.visit.key
  /-- The path selects the keys from the root on. -/
  selected : ∀ c ∈ calls, p.Selects c.visit.trail
  /-- The value stands at the end of these keys when the calls before have been answered. -/
  value : ∀ before c after, calls = before ++ c :: after →
    (t.replay before).at? c.visit.trail = some c.visit.value
  /-- The tree in the end is the first one with the answers stored. -/
  replayed : t' = t.replay calls
  /-- Outside the stored answers the values stay, and maps keep their keys and their order. -/
  frame : Frame (· = ·) (fun q => ∃ c ∈ calls, c.visit.trail = q) t.at? t'.at?

namespace Calls

variable {f : Callback σ} {root : Tree} {S : List Key → Prop} {ts ts' : Tree × σ}
  {calls : List Visited}

theorem told_root (h : Calls f root S [] ts calls ts') : ∀ c ∈ calls, c.visit.root = root := by
  induction h with
  | none => simp
  | call _ _ told _ ih => exact List.forall_mem_cons.mpr ⟨by rw [told], ih⟩

theorem told_key (h : Calls f root S [] ts calls ts') :
    ∀ c ∈ calls, c.visit.trail.getLast? = some c.visit.key := by
  induction h with
  | none => simp
  | call _ _ told _ ih => exact List.forall_mem_cons.mpr ⟨by simp [told], ih⟩

theorem told_selected (h : Calls f root S [] ts calls ts') : ∀ c ∈ calls, S c.visit.trail := by
  induction h with
  | none => simp
  | call selected _ told _ ih => exact List.forall_mem_cons.mpr ⟨by rw [told]; exact selected, ih⟩

/-- Each call is told what the calls before it have left. -/
theorem told_value (h : Calls f root S [] ts calls ts') {before after : List Visited} {c : Visited}
    (hcalls : calls = before ++ c :: after) :
    (ts.1.replay before).at? c.visit.trail = some c.visit.value := by
  induction h generalizing before with
  | none => simp at hcalls
  | call _ there told _ ih =>
      cases before with
      | nil =>
          obtain ⟨rfl, _⟩ := List.cons.inj hcalls
          rw [told]
          exact there
      | cons first before =>
          obtain ⟨rfl, hrest⟩ := List.cons.inj hcalls
          have hvalue := ih hrest
          rw [Tree.replay, List.foldl_cons, told]
          rw [told] at hvalue
          exact hvalue

theorem replayed (h : Calls f root S [] ts calls ts') : ts'.1 = ts.1.replay calls := by
  induction h with
  | none => rfl
  | call _ _ told _ ih =>
      rw [ih, Tree.replay, Tree.replay, List.foldl_cons, told]
      rfl

theorem accounts {p : Path} {t : Tree} {s : σ} (h : Calls f t p.Selects [] (t, s) calls ts') :
    Accounts p t calls ts'.1 where
  root := h.told_root
  key := h.told_key
  selected := h.told_selected
  value _ _ _ := h.told_value
  replayed := h.replayed
  frame := h.frame

end Calls

/-- The calls of a walk account for what it does to the tree.  Without sub-paths and repetitions
they are one for each selected list of keys that leads to something; a callback that answers what it
is told changes nothing. -/
theorem Path.filter_accounts (f : Callback σ) (p : Path) (t : Tree) (s : σ) :
    ∃ calls : List Visited,
      p.filter f.recorded t (s, []) = ((p.filter f t s).1, (p.filter f t s).2, calls) ∧
      Accounts p t calls (p.filter f t s).1 ∧
      (t.Distinct → p ≠ .nil → p.NoSub → p.NoRepeat →
        (calls.map (·.visit.trail)).Nodup ∧
        ∀ q, q ∈ calls.map (·.visit.trail) ↔ p.Selects q ∧ (t.at? q).isSome) ∧
      ((∀ v s, (f v s).1 = v.value) → (p.filter f t s).1 = t) := by
  obtain ⟨calls, hcalls, hrecorded⟩ := Path.records_filterFrom f t p [] t s
  have hlog : p.filter f.recorded t (s, []) = (_, _, [] ++ calls) := hrecorded []
  refine ⟨calls, hlog, hcalls.accounts, fun ht hne hsub hrepeat => ?_, hcalls.eq_of_answers⟩
  obtain ⟨calls', qs, hafter, htrails, hnodup, hmem⟩ := Path.callsOnce_filterFrom f t p hsub hrepeat
    (Path.isNil_eq_false_of_ne_nil hne) [] t s [] ht
  have hsame : calls' = calls := by
    have hlogged : (p.filterFrom f.recorded t [] t (s, [])).2.2 = calls := congrArg (·.2.2) hlog
    rw [← hlogged, hafter, List.nil_append]
  rw [hsame] at htrails
  simp only [List.nil_append, List.map_id'] at htrails
  rw [htrails]
  exact ⟨hnodup, hmem⟩

/-- The marks and what is kept of all rows. -/
def markedOrKept : Path :=
  .key "*" (.group (.key "mark" (.key "kept" .nil)) .nil)

theorem filter_accounts_markedOrKept :
    markedRows.Distinct ∧ markedOrKept ≠ .nil ∧ markedOrKept.NoSub ∧ markedOrKept.NoRepeat ∧
    ∃ calls : List Visited,
      markedOrKept.filter (Callback.recorded fun v n => (v.value, n + 1)) markedRows (0, []) =
        (markedRows, 3, calls) ∧
      Accounts markedOrKept markedRows calls markedRows ∧
      (calls.map (·.visit.trail)).Nodup ∧
      ∀ q, q ∈ calls.map (·.visit.trail) ↔
        markedOrKept.Selects q ∧ (markedRows.at? q).isSome := by
  have hnosub : markedOrKept.NoSub := by simp [markedOrKept, Path.NoSub, Members.KeysOnly]
  have hrepeat : markedOrKept.NoRepeat := by
    simp [markedOrKept, Path.NoRepeat, Members.texts]
  have hne : markedOrKept ≠ .nil := by simp [markedOrKept]
  refine ⟨markedRows_distinct, hne, hnosub, hrepeat, ?_⟩
  obtain ⟨calls, hlog, haccounts, hcalls, hanswers⟩ :=
    Path.filter_accounts (fun v (n : Nat) => (v.value, n + 1)) markedOrKept markedRows 0
  have hsame := hanswers fun _ _ => rfl
  have hcount : (markedOrKept.filter (fun v (n : Nat) => (v.value, n + 1)) markedRows 0).2 = 3 := by
    decide
  rw [hsame, hcount] at hlog
  rw [hsame] at haccounts
  exact ⟨calls, hlog, haccounts, hcalls markedRows_distinct hne hnosub hrepeat⟩

end Quill
