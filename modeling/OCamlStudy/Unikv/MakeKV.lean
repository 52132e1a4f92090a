import OCamlStudy.OCaml.Basic
import OCamlStudy.Program.Run

/-! # The logged store

A `set` logs what it is about to do, and updates the table once the log has
resolved. Logs resolve in any order, so the table follows that order and not the
order of the log.
-/

namespace OCamlStudy.Unikv

open OCaml Program

/-- A call of `set`, with the time that it read from the clock. -/
structure Call where
  timestamp : Bytes
  key : Bytes
  value : Bytes

def Call.logMsg (call : Call) : Bytes :=
  bytes "[" ++ call.timestamp ++ bytes "] SET " ++ call.key ++ bytes " = " ++ call.value

/-- The history of the console and the table. The calls stand in the order in which they logged,
and those whose log has resolved in the order in which it did. -/
structure State where
  history : List Bytes
  kv : Hashtbl Bytes Bytes
  calls : List Call
  resolved : List ℕ

def create : State := ⟨[], ∅, [], []⟩

/-- `set` up to its wait for the log. -/
def set (s : State) (timestamp key value : Bytes) : State :=
  let call : Call := ⟨timestamp, key, value⟩
  { s with history := s.history ++ [call.logMsg], calls := s.calls ++ [call] }

def update (s : State) (i : ℕ) (call : Call) : State :=
  { s with kv := s.kv.insert call.key call.value, resolved := s.resolved ++ [i] }

def get (s : State) (key : Bytes) : Option Bytes := s.kv.lookup key

/-- A call of `set`, and the log of one of the calls resolving. -/
inductive Event where
  | set (timestamp key value : Bytes)
  | resolve (i : ℕ)

def step (s : State) : Event → Option State
  | .set timestamp key value => some (set s timestamp key value)
  | .resolve i => if i ∈ s.resolved then none else (s.calls[i]?).map (update s i)

/-- Every call has updated the table. -/
def State.Completed (s : State) : Prop := ∀ i < s.calls.length, i ∈ s.resolved

instance (s : State) : Decidable s.Completed :=
  inferInstanceAs (Decidable (∀ i < s.calls.length, i ∈ s.resolved))

/-- The calls that have updated the table, in the order of their updates. -/
def State.updates (s : State) : List Call := s.resolved.filterMap (s.calls[·]?)

/-- The value of the last call for the key. -/
def lastValue (key : Bytes) (calls : List Call) : Option Bytes :=
  calls.foldl (fun last call => if call.key = key then some call.value else last) none

def State.For (s : State) (key : Bytes) (i : ℕ) : Prop :=
  ∃ call, s.calls[i]? = some call ∧ call.key = key

/-- No call for the key updates the table after the one that logged last. -/
def State.LogsLast (s : State) (key : Bytes) : Prop :=
  ∀ before i after, s.resolved = before ++ i :: after → s.For key i → (∀ j, s.For key j → j ≤ i) →
    ∀ j ∈ after, ¬ s.For key j

variable {key : Bytes} {call : Call}

theorem lastValue_concat (key : Bytes) (calls : List Call) (call : Call) :
    lastValue key (calls ++ [call]) =
      if call.key = key then some call.value else lastValue key calls := by
  rw [lastValue, List.foldl_concat]
  rfl

theorem lastValue_append {before after : List Call} (h : ∀ c ∈ after, c.key ≠ key) :
    lastValue key (before ++ after) = lastValue key before := by
  induction after using List.reverseRecOn with
  | nil => rw [List.append_nil]
  | append_singleton after call ih =>
    rw [← List.append_assoc, lastValue_concat, if_neg (h call (by simp))]
    exact ih fun c hc => h c (List.mem_append_left _ hc)

theorem lastValue_last {before after : List Call} (hkey : call.key = key)
    (h : ∀ c ∈ after, c.key ≠ key) : lastValue key (before ++ call :: after) = some call.value := by
  rw [← List.singleton_append, ← List.append_assoc, lastValue_append h, lastValue_concat,
    if_pos hkey]

theorem lastValue_none {calls : List Call} (h : ∀ c ∈ calls, c.key ≠ key) :
    lastValue key calls = none := by
  rw [← List.nil_append calls, lastValue_append h]
  rfl

structure Inv (s : State) : Prop where
  history : s.history = s.calls.map Call.logMsg
  resolved : ∀ i ∈ s.resolved, i < s.calls.length
  kv : ∀ key, get s key = lastValue key s.updates

theorem inv_create : Inv create := ⟨rfl, by simp [create], fun _ => rfl⟩

theorem Inv.set {s : State} (h : Inv s) (timestamp key value : Bytes) :
    Inv (set s timestamp key value) := by
  have hupdates : (Unikv.set s timestamp key value).updates = s.updates := by
    apply List.filterMap_congr
    exact fun i hi => List.getElem?_append_left (h.resolved i hi)
  constructor
  · rw [Unikv.set, h.history, List.map_append]
    rfl
  · intro i hi
    have := h.resolved i hi
    simp only [Unikv.set, List.length_append, List.length_singleton]
    omega
  · intro key'
    rw [hupdates]
    exact h.kv key'

theorem Inv.update {s : State} (h : Inv s) {i : ℕ} (hcall : s.calls[i]? = some call) :
    Inv (update s i call) := by
  have hupdates : (Unikv.update s i call).updates = s.updates ++ [call] := by
    simp only [State.updates, Unikv.update, List.filterMap_append]
    rw [List.filterMap_cons_some hcall, List.filterMap_nil]
  constructor
  · exact h.history
  · intro j hj
    rcases List.mem_append.mp hj with hj | hj
    · exact h.resolved j hj
    · rw [List.mem_singleton.mp hj]
      exact (List.getElem?_eq_some_iff.mp hcall).1
  · intro key
    rw [hupdates, lastValue_concat, get, Unikv.update]
    split_ifs with hk
    · rw [hk, AList.lookup_insert]
    · rw [AList.lookup_insert_ne (Ne.symm hk)]
      exact h.kv key

theorem Inv.step {s s' : State} {e : Event} (h : Inv s) (hs : step s e = some s') : Inv s' := by
  cases e with
  | set timestamp key value =>
    cases hs
    exact h.set timestamp key value
  | resolve i =>
    rw [Unikv.step] at hs
    split_ifs at hs
    obtain ⟨call, hcall, rfl⟩ := Option.map_eq_some_iff.mp hs
    exact h.update hcall

abbrev Run : State → State → Prop := Reaches step fun _ _ => True

theorem inv_run {s : State} (h : Run create s) : Inv s :=
  h.invariant (fun _ _ _ hi _ hs => hi.step hs) inv_create

theorem exists_last (s : State) (key : Bytes) (h : ∃ i, s.For key i) :
    ∃ i, s.For key i ∧ ∀ j, s.For key j → j ≤ i := by
  classical
  obtain ⟨i, hi⟩ := h
  have hbound : ∀ j, s.For key j → j ≤ s.calls.length := by
    rintro j ⟨call, hcall, -⟩
    exact (List.getElem?_eq_some_iff.mp hcall).1.le
  refine ⟨Nat.findGreatest (s.For key) s.calls.length, ?_, ?_⟩
  · exact Nat.findGreatest_spec (hbound i hi) hi
  · exact fun j hj => Nat.le_findGreatest (hbound j hj) hj

theorem lastValue_calls {s : State} {i : ℕ} (hcall : s.calls[i]? = some call)
    (hkey : call.key = key)
    (hlast : ∀ j, s.For key j → j ≤ i) : lastValue key s.calls = some call.value := by
  obtain ⟨hi, hget⟩ := List.getElem?_eq_some_iff.mp hcall
  rw [← List.take_append_drop i s.calls, List.drop_eq_getElem_cons hi, hget]
  apply lastValue_last hkey
  intro c hc hck
  obtain ⟨j, hj⟩ := List.mem_iff_getElem?.mp hc
  rw [List.getElem?_drop] at hj
  have := hlast _ ⟨c, hj, hck⟩
  omega

/-- If the call that logged last for a key also updates last, the table agrees with the log. -/
theorem lastValue_updates {s : State} (hdone : s.Completed) (hlast : s.LogsLast key) :
    lastValue key s.updates = lastValue key s.calls := by
  by_cases hfor : ∃ i, s.For key i
  · obtain ⟨i, ⟨call, hcall, hkey⟩, hmax⟩ := exists_last s key hfor
    obtain ⟨before, after, heq⟩ :=
      List.append_of_mem (hdone i (List.getElem?_eq_some_iff.mp hcall).1)
    rw [lastValue_calls hcall hkey hmax, State.updates, heq, List.filterMap_append,
      List.filterMap_cons_some hcall]
    apply lastValue_last hkey
    intro c hc hck
    obtain ⟨j, hj, hjc⟩ := List.mem_filterMap.mp hc
    exact hlast before i after heq ⟨call, hcall, hkey⟩ hmax j hj ⟨c, hjc, hck⟩
  · rw [not_exists] at hfor
    have hcalls : ∀ (i : ℕ) (c : Call), s.calls[i]? = some c → c.key ≠ key :=
      fun i c hc hk => hfor i ⟨c, hc, hk⟩
    rw [lastValue_none, lastValue_none]
    · intro c hc
      obtain ⟨i, hi⟩ := List.mem_iff_getElem?.mp hc
      exact hcalls i c hi
    · intro c hc
      obtain ⟨i, -, hi⟩ := List.mem_filterMap.mp hc
      exact hcalls i c hi

/-- **The table follows the order in which the logs resolve.** Once all calls have completed, the
log holds an entry for each in the order of the calls, and the value of a key is that of the call
whose log resolved last; it is that of the last entry if the call that logged last for the key also
resolved last. -/
theorem get_last_resolved {s : State} (h : Run create s) (hdone : s.Completed) :
    s.history = s.calls.map Call.logMsg ∧ ∀ key, get s key = lastValue key s.updates ∧
      (s.LogsLast key → get s key = lastValue key s.calls) := by
  have hinv := inv_run h
  refine ⟨hinv.history, ?_⟩
  intro key
  constructor
  · exact hinv.kv key
  · intro hlast
    rw [hinv.kv key, lastValue_updates hdone hlast]

def first : Call := ⟨bytes "t", bytes "a", bytes "1"⟩

def second : Call := ⟨bytes "t", bytes "a", bytes "2"⟩

/-- Both are called, and the logs resolve: that of the call `i` first. -/
def overlapping (i : ℕ) (call : Call) (j : ℕ) (call' : Call) : State :=
  update (update (set (set create (bytes "t") (bytes "a") (bytes "1"))
    (bytes "t") (bytes "a") (bytes "2")) i call) j call'

theorem run_overlapping {i j : ℕ} {call call' : Call} (hij : j ≠ i)
    (hi : [first, second][i]? = some call) (hj : [first, second][j]? = some call') :
    Run create (overlapping i call j call') := by
  apply Reaches.head (.set (bytes "t") (bytes "a") (bytes "1")) trivial rfl
  apply Reaches.head (.set (bytes "t") (bytes "a") (bytes "2")) trivial rfl
  apply Reaches.head (.resolve i) trivial
  · change (if i ∈ [] then none else ([first, second][i]?).map _) = _
    rw [if_neg List.not_mem_nil, hi]
    rfl
  apply Reaches.head (.resolve j) trivial
  · change (if j ∈ [i] then none else ([first, second][j]?).map _) = _
    rw [if_neg (by simpa using hij), hj]
    rfl
  exact Reaches.refl _

/-- The logs resolve in the order of the calls. -/
theorem get_last_resolved_overlapping :
    (overlapping 0 first 1 second).history = [first.logMsg, second.logMsg] ∧
      ∀ key, get (overlapping 0 first 1 second) key = lastValue key [first, second] ∧
        ((overlapping 0 first 1 second).LogsLast key →
          get (overlapping 0 first 1 second) key = lastValue key [first, second]) :=
  get_last_resolved (run_overlapping (by decide) rfl rfl) (by decide)

/-- **The log and the table disagree** if the logs resolve in the other order. -/
theorem overlapping_disagrees : ¬ ∀ s : State, Run create s → s.Completed →
    ∀ key, get s key = lastValue key s.calls := by
  intro hall
  have h := hall (overlapping 1 second 0 first) (run_overlapping (by decide) rfl rfl)
    (by decide) (bytes "a")
  revert h
  decide

end OCamlStudy.Unikv
