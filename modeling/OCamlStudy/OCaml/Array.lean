import OCamlStudy.OCaml.Basic
import OCamlStudy.Program.Loop

/-! # Arrays of arrays

An array access out of bounds raises. A matrix of the runtime is an array of rows;
when all rows have one length its entries are a function of the row and the column, and
two nested loops that assign every entry once leave the assigned values.
-/

namespace OCamlStudy.OCaml

open Loop

variable {α : Type} {r c : ℕ}

def arrayGet (a : Array α) (i : ℕ) : Raises α :=
  if h : i < a.size then .ok a[i] else .error (.invalidArgument "index out of bounds")

def arraySet (a : Array α) (i : ℕ) (x : α) : Raises (Array α) :=
  if h : i < a.size then .ok (a.set i x h) else .error (.invalidArgument "index out of bounds")

def matrixGet (m : Array (Array α)) (i j : ℕ) : Raises α := do
  let row ← arrayGet m i
  arrayGet row j

/-- `m.(i).(j) <- x`; no two rows are the same array. -/
def matrixSet (m : Array (Array α)) (i j : ℕ) (x : α) : Raises (Array (Array α)) := do
  let row ← arrayGet m i
  arraySet m i (← arraySet row j x)

def makeMatrix (rows cols : ℕ) (x : α) : Array (Array α) :=
  Array.replicate rows (Array.replicate cols x)

def ofEntries (A : Fin r → Fin c → α) : Array (Array α) := Array.ofFn fun i => Array.ofFn (A i)

variable {A B : Fin r → Fin c → α}

@[simp]
theorem size_ofEntries : (ofEntries A).size = r := Array.size_ofFn

theorem arrayGet_ofFn (f : Fin r → α) (i : Fin r) : arrayGet (Array.ofFn f) i = .ok (f i) := by
  rw [arrayGet, dif_pos (by simp), Array.getElem_ofFn]

theorem arraySet_ofFn (f : Fin r → α) (i : Fin r) (x : α) :
    arraySet (Array.ofFn f) i x = .ok (Array.ofFn (Function.update f i x)) := by
  rw [arraySet, dif_pos (by simp)]
  refine congrArg _ (Array.ext (by simp) fun k hk hk' => ?_)
  rw [Array.getElem_set, Array.getElem_ofFn, Array.getElem_ofFn, Function.update_apply]
  simp only [Fin.ext_iff, eq_comm]

theorem arrayGet_ofEntries (i : Fin r) : arrayGet (ofEntries A) i = .ok (Array.ofFn (A i)) :=
  arrayGet_ofFn _ i

theorem matrixGet_ofEntries (i : Fin r) (j : Fin c) :
    matrixGet (ofEntries A) i j = .ok (A i j) := by
  rw [matrixGet, arrayGet_ofEntries, Raises.ok_bind, arrayGet_ofFn]

theorem matrixSet_ofEntries (i : Fin r) (j : Fin c) (x : α) : matrixSet (ofEntries A) i j x =
    .ok (ofEntries (Function.update A i (Function.update (A i) j x))) := by
  rw [matrixSet, arrayGet_ofEntries, Raises.ok_bind, arraySet_ofFn, Raises.ok_bind, ofEntries,
    arraySet_ofFn, ofEntries]
  refine congrArg (fun rows => Except.ok (Array.ofFn rows)) (funext fun k => ?_)
  obtain rfl | hk := eq_or_ne k i
  · rw [Function.update_self, Function.update_self]
  · rw [Function.update_of_ne hk, Function.update_of_ne hk]

theorem replicate_eq_ofFn (n : ℕ) (x : α) :
    Array.replicate n x = Array.ofFn fun _ : Fin n => x := by
  rw [← Array.toList_inj, Array.toList_replicate, Array.toList_ofFn, List.ofFn_const]

theorem makeMatrix_eq (rows cols : ℕ) (x : α) :
    makeMatrix rows cols x = ofEntries (fun (_ : Fin rows) (_ : Fin cols) => x) := by
  rw [makeMatrix, ofEntries, replicate_eq_ofFn, replicate_eq_ofFn]

theorem exists_ofEntries {m : Array (Array α)} (hr : m.size = r) (hc : ∀ row ∈ m, row.size = c) :
    ∃ A : Fin r → Fin c → α, m = ofEntries A := by
  subst hr
  have hrow : ∀ i : Fin m.size, m[i].size = c := fun i => hc _ (Array.getElem_mem i.2)
  refine ⟨fun i j => m[i][Fin.cast (hrow i).symm j],
    Array.ext size_ofEntries.symm fun i hi hi' => ?_⟩
  simp only [ofEntries, Array.getElem_ofFn]
  refine Array.ext (by rw [Array.size_ofFn]; exact hrow ⟨i, hi⟩) fun j hj hj' => ?_
  rw [Array.getElem_ofFn]
  rfl

/-- `A` in the entries before `(i, j)` in the order of two nested loops, and `B` in the others. -/
def partway (A B : Fin r → Fin c → α) (i j : ℕ) : Fin r → Fin c → α :=
  fun k l => if k < i ∨ k = i ∧ l < j then A k l else B k l

theorem partway_start : partway A B 0 0 = B := by
  ext k l
  exact if_neg (by omega)

theorem partway_end : partway A B r 0 = A := by
  ext k l
  exact if_pos (.inl k.2)

theorem partway_row (i : ℕ) : partway A B i c = partway A B (i + 1) 0 := by
  ext k l
  exact if_congr (by omega) rfl rfl

theorem partway_step (i : Fin r) (j : Fin c) : matrixSet (ofEntries (partway A B i j)) i j (A i j) =
    .ok (ofEntries (partway A B i (j + 1))) := by
  rw [matrixSet_ofEntries]
  refine congrArg (fun M => Except.ok (ofEntries M)) ?_
  ext k l
  rw [Function.update_apply]
  split_ifs with hk
  · subst hk
    rw [Function.update_apply]
    split_ifs with hl
    · subst hl
      exact (if_pos (by omega)).symm
    · exact if_congr (by omega) rfl rfl
  · exact if_congr (by omega) rfl rfl

theorem forUpTo_fill {body : ℕ → ℕ → Array (Array α) → Raises (Array (Array α))}
    (h : ∀ (i : Fin r) (j : Fin c) res, body i j res = matrixSet res i j (A i j)) :
    forUpTo r (fun i => forUpTo c (body i)) (ofEntries B) = .ok (ofEntries A) := by
  have hrow : ∀ i < r, forUpTo c (body i) (ofEntries (partway A B i 0)) =
      .ok (ofEntries (partway A B (i + 1) 0)) := by
    intro i hi
    rw [← partway_row]
    refine forUpTo_eq_ok (f := fun j => ofEntries (partway A B i j)) fun j hj => ?_
    exact (h ⟨i, hi⟩ ⟨j, hj⟩ _).trans (partway_step ⟨i, hi⟩ ⟨j, hj⟩)
  have hloop := forUpTo_eq_ok (f := fun i => ofEntries (partway A B i 0)) hrow
  rwa [partway_start, partway_end] at hloop

end OCamlStudy.OCaml
