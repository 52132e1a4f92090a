import OCamlStudy.OCaml.Basic

/-! # Maps as lists of bindings

`MakeMap` drops the older binding of a key when it adds one, and the typed map
only hides it. Both find the binding that was added last.
-/

namespace OCamlStudy.Modula

open OCaml

theorem find?_reverse_eq_some_iff {ε : Type*} {p : ε → Bool} {entries : List ε} {e : ε} :
    entries.reverse.find? p = some e ↔
      p e = true ∧ ∃ before after, entries = before ++ e :: after ∧ ∀ x ∈ after, p x = false := by
  rw [List.find?_eq_some_iff_append]
  constructor
  · rintro ⟨he, newer, older, heq, hnewer⟩
    refine ⟨he, older.reverse, newer.reverse, ?_, ?_⟩
    · rw [← List.reverse_reverse entries, heq]
      simp
    · intro x hx
      simpa using hnewer x (List.mem_reverse.mp hx)
  · rintro ⟨he, before, after, rfl, hafter⟩
    refine ⟨he, after.reverse, before.reverse, by simp, ?_⟩
    intro x hx
    simp [hafter x (List.mem_reverse.mp hx)]

namespace MakeMap

variable {κ ν : Type} (compare : κ → κ → ℤ)

def empty : List (κ × ν) := []

def add (key : κ) (value : ν) (store : List (κ × ν)) : List (κ × ν) :=
  (key, value) :: store.filter fun b => compare b.1 key ≠ 0

def find (key : κ) : List (κ × ν) → Option ν
  | [] => none
  | (k, v) :: rest => if compare k key = 0 then some v else find key rest

/-- The store after bindings were added one after the other. -/
def added (bindings : List (κ × ν)) : List (κ × ν) :=
  bindings.foldl (fun store b => add compare b.1 b.2 store) empty

variable {compare}

theorem find_eq (key : κ) (store : List (κ × ν)) :
    find compare key store = (store.find? fun b => compare b.1 key = 0).map Prod.snd := by
  induction store with
  | nil => rfl
  | cons b rest ih =>
    rw [find, ih, List.find?_cons]
    by_cases hb : compare b.1 key = 0 <;> simp [hb]

theorem added_concat (bindings : List (κ × ν)) (k : κ) (v : ν) :
    added compare (bindings ++ [(k, v)]) = add compare k v (added compare bindings) :=
  List.foldl_concat _ _ _ _

section Equivalence

variable (hsame : Equivalence fun k k' => compare k k' = 0)

include hsame

theorem find_add (key k : κ) (v : ν) (store : List (κ × ν)) :
    find compare key (add compare k v store) =
      if compare k key = 0 then some v else find compare key store := by
  rw [add, find]
  split_ifs with hk
  · rfl
  · have hkeep : (fun b : κ × ν => decide (decide (compare b.1 k ≠ 0) = true ∧
        decide (compare b.1 key = 0) = true)) = fun b => decide (compare b.1 key = 0) := by
      funext b
      by_cases hb : compare b.1 key = 0
      · have hne : compare b.1 k ≠ 0 := fun h => hk (hsame.trans (hsame.symm h) hb)
        simp [hb, hne]
      · simp [hb]
    rw [find_eq, find_eq, List.find?_filter, hkeep]

/-- The dropped bindings are not missed. -/
theorem find_added_eq (key : κ) (bindings : List (κ × ν)) :
    find compare key (added compare bindings) =
    (bindings.reverse.find? fun b => compare b.1 key = 0).map Prod.snd := by
  induction bindings using List.reverseRecOn with
  | nil => rfl
  | append_singleton bindings b ih =>
    rw [added_concat, find_add hsame, ih, List.reverse_concat, List.find?_cons]
    by_cases hb : compare b.1 key = 0 <;> simp [hb]

theorem pairwise_added (bindings : List (κ × ν)) :
    (added compare bindings).Pairwise fun b b' => compare b.1 b'.1 ≠ 0 := by
  induction bindings using List.reverseRecOn with
  | nil => exact List.Pairwise.nil
  | append_singleton bindings b ih =>
    rw [added_concat, add, List.pairwise_cons]
    refine ⟨?_, ih.filter _⟩
    intro b' hb' hk
    have hne := List.of_mem_filter hb'
    simp [hsame.symm hk] at hne

/-- **A store is the map of the bindings that were added last.** It has one binding for each key,
and a key is found with the value of the last binding that was added for it. -/
theorem find_added (bindings : List (κ × ν)) :
    (added compare bindings).Pairwise (fun b b' => compare b.1 b'.1 ≠ 0) ∧
      ∀ key v, find compare key (added compare bindings) = some v ↔
        ∃ k before after, bindings = before ++ (k, v) :: after ∧ compare k key = 0 ∧
          ∀ b ∈ after, compare b.1 key ≠ 0 := by
  refine ⟨pairwise_added hsame bindings, ?_⟩
  intro key v
  rw [find_added_eq hsame, Option.map_eq_some_iff]
  constructor
  · rintro ⟨⟨k, w⟩, hfind, rfl⟩
    obtain ⟨hk, before, after, heq, hafter⟩ := find?_reverse_eq_some_iff.mp hfind
    exact ⟨k, before, after, heq, of_decide_eq_true hk,
      fun b hb => of_decide_eq_false (hafter b hb)⟩
  · rintro ⟨k, before, after, heq, hk, hafter⟩
    refine ⟨(k, v), find?_reverse_eq_some_iff.mpr ⟨decide_eq_true hk, before, after, heq, ?_⟩, rfl⟩
    exact fun b hb => decide_eq_false (hafter b hb)

end Equivalence

def intCompare (a b : ℤ) : ℤ := if a < b then -1 else if a = b then 0 else 1

theorem intCompare_eq_zero {a b : ℤ} : intCompare a b = 0 ↔ a = b := by
  unfold intCompare
  split_ifs with hlt heq
  · simp [hlt.ne]
  · simp [heq]
  · simp [heq]

/-- The older value of a key is dropped. -/
theorem find_added_ints :
    (added intCompare [(80, true), (443, false), (80, false)]).Pairwise
        (fun b b' => intCompare b.1 b'.1 ≠ 0) ∧
      ∀ key v,
        find intCompare key (added intCompare [(80, true), (443, false), (80, false)]) = some v ↔
        ∃ k before after, [(80, true), (443, false), (80, false)] = before ++ (k, v) :: after ∧
          intCompare k key = 0 ∧ ∀ b ∈ after, intCompare b.1 key ≠ 0 := by
  apply find_added
  constructor
  · exact fun a => intCompare_eq_zero.mpr rfl
  · exact fun h => intCompare_eq_zero.mpr (intCompare_eq_zero.mp h).symm
  · exact fun h h' => intCompare_eq_zero.mpr
      ((intCompare_eq_zero.mp h).trans (intCompare_eq_zero.mp h'))

end MakeMap

namespace Hmap

inductive Ty where
  | int
  | string
  | bool

abbrev Ty.Value : Ty → Type
  | int => ℤ
  | string => Bytes
  | bool => Bool

inductive Key : Ty → Type where
  | keyInt (name : Bytes) : Key .int
  | keyString (name : Bytes) : Key .string
  | keyBool (name : Bytes) : Key .bool

structure Entry where
  ty : Ty
  key : Key ty
  value : ty.Value

/-- Two keys are equal only if their types are, which is what the test returns. -/
def eqKey {a b : Ty} (k : Key a) (k' : Key b) : Option (PLift (a = b)) :=
  match k, k' with
  | .keyInt n, .keyInt n' => if n = n' then some ⟨rfl⟩ else none
  | .keyString n, .keyString n' => if n = n' then some ⟨rfl⟩ else none
  | .keyBool n, .keyBool n' => if n = n' then some ⟨rfl⟩ else none
  | _, _ => none

def put {a : Ty} (k : Key a) (v : a.Value) (store : List Entry) : List Entry := ⟨a, k, v⟩ :: store

def get {a : Ty} (k : Key a) : List Entry → Option a.Value
  | [] => none
  | ⟨_, k', v⟩ :: rest =>
    match eqKey k k' with
    | some ⟨h⟩ => some (h ▸ v)
    | none => get k rest

def stored (entries : List Entry) : List Entry :=
  entries.foldl (fun store e => put e.key e.value store) []

theorem stored_eq (entries : List Entry) : stored entries = entries.reverse := by
  induction entries using List.reverseRecOn with
  | nil => rfl
  | append_singleton entries e ih =>
    rw [stored, List.foldl_concat, List.reverse_concat, ← ih]
    rfl

theorem get_cons_self {a : Ty} (k : Key a) (v : a.Value) (rest : List Entry) :
    get k (⟨a, k, v⟩ :: rest) = some v := by
  cases k <;> simp [get, eqKey]

theorem get_cons_ne {a : Ty} {k : Key a} {e : Entry} (h : ∀ v, e ≠ ⟨a, k, v⟩) (rest : List Entry) :
    get k (e :: rest) = get k rest := by
  obtain ⟨ty, key, value⟩ := e
  cases k <;> cases key
  case keyInt.keyInt n n' | keyString.keyString n n' | keyBool.keyBool n n' =>
    have hn : n ≠ n' := by
      rintro rfl
      exact h value rfl
    simp [get, eqKey, hn]
  all_goals rfl

theorem get_eq_some_iff {a : Ty} {k : Key a} {v : a.Value} {store : List Entry} :
    get k store = some v ↔
      ∃ newer older, store = newer ++ ⟨a, k, v⟩ :: older ∧ ∀ w, ⟨a, k, w⟩ ∉ newer := by
  induction store with
  | nil => simp [get]
  | cons e rest ih =>
    by_cases he : ∃ w, e = ⟨a, k, w⟩
    · obtain ⟨w, rfl⟩ := he
      rw [get_cons_self, Option.some.injEq]
      constructor
      · rintro rfl
        exact ⟨[], rest, rfl, by simp⟩
      · rintro ⟨newer, older, heq, hnewer⟩
        cases newer with
        | nil =>
          obtain ⟨hhead, -⟩ := List.cons.inj heq
          cases hhead
          rfl
        | cons e newer =>
          obtain ⟨rfl, -⟩ := List.cons.inj heq
          exact absurd List.mem_cons_self (hnewer w)
    · rw [not_exists] at he
      rw [get_cons_ne he, ih]
      constructor
      · rintro ⟨newer, older, rfl, hnewer⟩
        refine ⟨e :: newer, older, rfl, ?_⟩
        intro w hw
        rcases List.mem_cons.mp hw with hw | hw
        · exact he w hw.symm
        · exact hnewer w hw
      · rintro ⟨newer, older, heq, hnewer⟩
        cases newer with
        | nil => exact absurd (List.cons.inj heq).1 (he v)
        | cons e' newer =>
          obtain ⟨-, rfl⟩ := List.cons.inj heq
          exact ⟨newer, older, rfl, fun w hw => hnewer w (List.mem_cons_of_mem _ hw)⟩

/-- **A key finds what was put last under it**, at its type; an entry under the same name at another
type is another entry. -/
theorem get_stored {a : Ty} (k : Key a) (v : a.Value) (entries : List Entry) :
    get k (stored entries) = some v ↔
      ∃ before after, entries = before ++ ⟨a, k, v⟩ :: after ∧ ∀ w, ⟨a, k, w⟩ ∉ after := by
  rw [stored_eq, get_eq_some_iff]
  constructor
  · rintro ⟨newer, older, heq, hnewer⟩
    refine ⟨older.reverse, newer.reverse, ?_, ?_⟩
    · rw [← List.reverse_reverse entries, heq]
      simp
    · intro w hw
      exact hnewer w (List.mem_reverse.mp hw)
  · rintro ⟨before, after, rfl, hafter⟩
    refine ⟨after.reverse, before.reverse, by simp, ?_⟩
    intro w hw
    exact hafter w (List.mem_reverse.mp hw)

end Hmap

end OCamlStudy.Modula
