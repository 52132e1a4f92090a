import Mathlib.Data.List.Basic
import Mathlib.Data.List.Chain

/-! # Run-length encoding

The loop keeps the runs that it has read, the last one first. The code of a list
is the only list of non-empty runs, no two neighbours of one element, that
expands to it, and none that expands to it is shorter.
-/

namespace OCamlStudy.Hw

variable {α : Type}

/-- The list that runs stand for. -/
def expand (runs : List (α × ℕ)) : List α := runs.flatMap fun run => List.replicate run.2 run.1

/-- Non-empty runs, neighbours of different elements. -/
structure Canonical (runs : List (α × ℕ)) : Prop where
  pos : ∀ run ∈ runs, 0 < run.2
  distinct : runs.IsChain fun run next => run.1 ≠ next.1

section Encode

variable [DecidableEq α]

/-- The runs with one more element. A count does not exceed the length of a list, so it is not
wrapped. -/
def newTodo (head : α) (todo : List (α × ℕ)) : List (α × ℕ) :=
  match todo with
  | (k, v) :: rest => if k = head then (k, v + 1) :: rest else (head, 1) :: todo
  | _ => (head, 1) :: todo

def encodeLoop : List α → List (α × ℕ) → List (α × ℕ)
  | [], todo => todo.reverse
  | head :: tail, todo => encodeLoop tail (newTodo head todo)

def encode (lst : List α) : List (α × ℕ) := encodeLoop lst []

/-- The same by a guarded pattern, which is passed over if the guard fails. -/
def newTodoPro (head : α) (todo : List (α × ℕ)) : List (α × ℕ) :=
  match todo.head?.filter fun run => run.1 = head with
  | some (k, v) => (k, v + 1) :: todo.tail
  | none => (head, 1) :: todo

def encodeProLoop : List α → List (α × ℕ) → List (α × ℕ)
  | [], todo => todo.reverse
  | head :: tail, todo => encodeProLoop tail (newTodoPro head todo)

def encodePro (lst : List α) : List (α × ℕ) := encodeProLoop lst []

end Encode

section Runs

variable {runs runs' : List (α × ℕ)} {k : α} {n : ℕ}

@[simp]
theorem expand_nil : expand ([] : List (α × ℕ)) = [] := rfl

@[simp]
theorem expand_append : expand (runs ++ runs') = expand runs ++ expand runs' := by
  simp [expand]

@[simp]
theorem expand_singleton : expand [(k, n)] = List.replicate n k := by
  simp [expand]

theorem canonical_nil : Canonical ([] : List (α × ℕ)) := ⟨by simp, List.isChain_nil⟩

theorem canonical_concat : Canonical (runs ++ [(k, n)]) ↔
    Canonical runs ∧ 0 < n ∧ ∀ run, runs.getLast? = some run → run.1 ≠ k := by
  constructor
  · rintro ⟨hpos, hdistinct⟩
    rw [List.isChain_append] at hdistinct
    obtain ⟨hruns, -, hlast⟩ := hdistinct
    refine ⟨⟨fun run hrun => hpos run (List.mem_append_left _ hrun), hruns⟩,
      hpos (k, n) (by simp), ?_⟩
    intro run hrun
    exact hlast run hrun (k, n) rfl
  · rintro ⟨⟨hpos, hdistinct⟩, hn, hlast⟩
    constructor
    · intro run hrun
      rcases List.mem_append.mp hrun with hrun | hrun
      · exact hpos run hrun
      · obtain rfl := List.mem_singleton.mp hrun
        exact hn
    · rw [List.isChain_append]
      refine ⟨hdistinct, List.isChain_singleton _, ?_⟩
      intro run hrun next hnext
      obtain rfl := Option.some.inj hnext
      exact hlast run hrun

end Runs

section Loop

variable [DecidableEq α] {lst : List α} {runs todo : List (α × ℕ)} {k : α} {n : ℕ}

theorem newTodo_same (v : ℕ) (rest : List (α × ℕ)) :
    newTodo k ((k, v) :: rest) = (k, v + 1) :: rest :=
  if_pos rfl

theorem newTodo_new (h : ∀ run, todo.head? = some run → run.1 ≠ k) :
    newTodo k todo = (k, 1) :: todo := by
  cases todo with
  | nil => rfl
  | cons run rest => exact if_neg (h run rfl)

theorem newTodo_cases (head : α) (todo : List (α × ℕ)) :
    (∃ v rest, todo = (head, v) :: rest ∧ newTodo head todo = (head, v + 1) :: rest) ∨
      (∀ run, todo.head? = some run → run.1 ≠ head) ∧ newTodo head todo = (head, 1) :: todo := by
  by_cases h : ∀ run, todo.head? = some run → run.1 ≠ head
  · exact .inr ⟨h, newTodo_new h⟩
  · left
    push Not at h
    obtain ⟨⟨k, v⟩, hhead, rfl⟩ := h
    obtain ⟨rest, rfl⟩ := List.head?_eq_some_iff.mp hhead
    exact ⟨v, rest, rfl, newTodo_same v rest⟩

theorem newTodoPro_eq (head : α) (todo : List (α × ℕ)) :
    newTodoPro head todo = newTodo head todo := by
  rcases todo with _ | ⟨⟨k, v⟩, rest⟩
  · rfl
  · by_cases hk : k = head <;> simp [newTodoPro, newTodo, Option.filter_some, hk]

theorem encodeProLoop_eq (lst : List α) (todo : List (α × ℕ)) :
    encodeProLoop lst todo = encodeLoop lst todo := by
  induction lst generalizing todo with
  | nil => rfl
  | cons head tail ih => rw [encodeProLoop, encodeLoop, newTodoPro_eq, ih]

theorem encodeLoop_eq (lst : List α) (todo : List (α × ℕ)) :
    encodeLoop lst todo = (lst.foldl (fun todo head => newTodo head todo) todo).reverse := by
  induction lst generalizing todo with
  | nil => rfl
  | cons head tail ih => exact ih (newTodo head todo)

theorem encode_concat (lst : List α) (head : α) :
    encode (lst ++ [head]) = (newTodo head (encode lst).reverse).reverse := by
  rw [encode, encode, encodeLoop_eq, encodeLoop_eq, List.foldl_concat, List.reverse_reverse]

/-- **What the loop keeps.** The runs are those of the elements that were read. -/
theorem canonical_encode (lst : List α) : Canonical (encode lst) ∧ expand (encode lst) = lst := by
  induction lst using List.reverseRecOn with
  | nil => exact ⟨canonical_nil, rfl⟩
  | append_singleton lst head ih =>
    obtain ⟨hcanonical, hexpand⟩ := ih
    rw [encode_concat]
    rcases newTodo_cases head (encode lst).reverse with ⟨v, rest, htodo, hnew⟩ | ⟨hne, hnew⟩
    · rw [List.reverse_eq_iff, List.reverse_cons] at htodo
      rw [htodo, canonical_concat] at hcanonical
      rw [htodo, expand_append, expand_singleton] at hexpand
      rw [hnew, List.reverse_cons, canonical_concat]
      refine ⟨⟨hcanonical.1, Nat.succ_pos v, hcanonical.2.2⟩, ?_⟩
      rw [← hexpand, expand_append, expand_singleton, List.replicate_succ', List.append_assoc]
    · rw [List.head?_reverse] at hne
      rw [hnew, List.reverse_cons, List.reverse_reverse, canonical_concat]
      refine ⟨⟨hcanonical, Nat.one_pos, hne⟩, ?_⟩
      rw [expand_append, hexpand]
      rfl

theorem encode_replicate_same {v : ℕ} (h : encode lst = runs ++ [(k, v)]) (n : ℕ) :
    encode (lst ++ List.replicate n k) = runs ++ [(k, v + n)] := by
  induction n with
  | zero => rw [List.replicate_zero, List.append_nil, h, Nat.add_zero]
  | succ n ih =>
    rw [List.replicate_succ', ← List.append_assoc, encode_concat, ih]
    simp [newTodo_same, Nat.add_assoc]

theorem encode_replicate_new (h : ∀ run, (encode lst).getLast? = some run → run.1 ≠ k)
    (hn : 0 < n) :
    encode (lst ++ List.replicate n k) = encode lst ++ [(k, n)] := by
  obtain ⟨m, rfl⟩ := Nat.exists_eq_add_of_le' hn
  have hfirst : encode (lst ++ [k]) = encode lst ++ [(k, 1)] := by
    rw [encode_concat, newTodo_new (by rwa [List.head?_reverse])]
    simp
  have hrest := encode_replicate_same hfirst m
  rw [List.append_assoc, List.singleton_append, ← List.replicate_succ, Nat.add_comm 1 m] at hrest
  exact hrest

/-- Canonical runs are the code of what they stand for. -/
theorem encode_expand (h : Canonical runs) : encode (expand runs) = runs := by
  induction runs using List.reverseRecOn with
  | nil => rfl
  | append_singleton runs run ih =>
    obtain ⟨k, n⟩ := run
    obtain ⟨hruns, hn, hlast⟩ := canonical_concat.mp h
    have hencode := ih hruns
    rw [expand_append, expand_singleton, encode_replicate_new (by rwa [hencode]) hn, hencode]

theorem length_encode_expand (runs : List (α × ℕ)) :
    (encode (expand runs)).length ≤ runs.length := by
  induction runs using List.reverseRecOn with
  | nil => exact le_rfl
  | append_singleton runs run ih =>
    obtain ⟨k, n⟩ := run
    rw [expand_append, expand_singleton, List.length_append, List.length_singleton]
    by_cases hlast : ∀ run, (encode (expand runs)).getLast? = some run → run.1 ≠ k
    · rcases Nat.eq_zero_or_pos n with rfl | hn
      · rw [List.replicate_zero, List.append_nil]
        exact Nat.le_succ_of_le ih
      · rw [encode_replicate_new hlast hn, List.length_append, List.length_singleton]
        exact Nat.succ_le_succ ih
    · push Not at hlast
      obtain ⟨⟨k', v⟩, hrun, rfl⟩ := hlast
      obtain ⟨before, hbefore⟩ := List.getLast?_eq_some_iff.mp hrun
      rw [encode_replicate_same hbefore, List.length_append, List.length_singleton]
      rw [hbefore, List.length_append, List.length_singleton] at ih
      exact Nat.le_succ_of_le ih

/-- **The code of a list** is the only list of non-empty runs, neighbours of different elements,
that expands to the list, and no runs that expand to it are fewer; both encoders return it. -/
theorem encode_eq_iff (lst : List α) (runs : List (α × ℕ)) : encodePro lst = encode lst ∧
    (encode lst = runs ↔ Canonical runs ∧ expand runs = lst) ∧
      (expand runs = lst → (encode lst).length ≤ runs.length) := by
  refine ⟨encodeProLoop_eq lst [], ?_, ?_⟩
  · constructor
    · rintro rfl
      exact canonical_encode lst
    · rintro ⟨hcanonical, rfl⟩
      exact encode_expand hcanonical
  · rintro rfl
    exact length_encode_expand runs

end Loop

end OCamlStudy.Hw
