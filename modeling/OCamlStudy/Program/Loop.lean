import Mathlib.Algebra.BigOperators.Fin

/-! # Counting loops

A loop over `0, …, n - 1` changes a state, and its body may raise. Its result is
found by naming the state before every pass; a loop that adds to an accumulator
computes a finite sum.
-/

namespace OCamlStudy.Loop

variable {E σ : Type*} {n : ℕ} {body : ℕ → σ → Except E σ}

/-- The state that `for i = 0 to n - 1 do body done` leaves. -/
def forUpTo (n : ℕ) (body : ℕ → σ → Except E σ) (s : σ) : Except E σ :=
  (List.range n).foldlM (fun s i => body i s) s

theorem forUpTo_succ (s : σ) : forUpTo (n + 1) body s = forUpTo n body s >>= body n := by
  rw [forUpTo, List.range_succ, List.foldlM_append]
  simp only [List.foldlM_cons, List.foldlM_nil, bind_pure]
  rfl

theorem forUpTo_eq_ok {f : ℕ → σ} (h : ∀ i < n, body i (f i) = .ok (f (i + 1))) :
    forUpTo n body (f 0) = .ok (f n) := by
  induction n with
  | zero => rfl
  | succ n ih =>
    rw [forUpTo_succ, ih fun i hi => h i (hi.trans n.lt_succ_self)]
    exact h n n.lt_succ_self

theorem forUpTo_sum {M : Type*} [AddCommMonoid M] {body : ℕ → M → Except E M} {g : Fin n → M}
    (h : ∀ (i : Fin n) s, body i s = .ok (s + g i)) : forUpTo n body 0 = .ok (∑ i, g i) := by
  induction n with
  | zero => rfl
  | succ n ih =>
    rw [forUpTo_succ, ih fun i s => h i.castSucc s, Fin.sum_univ_castSucc]
    exact h (Fin.last n) _

end OCamlStudy.Loop
