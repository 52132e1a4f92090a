import OCamlStudy.Program.Basic

/-! # Programs one after another

A list of programs is run in its order; the run of a longer list extends the run
of a shorter one.
-/

namespace OCamlStudy.Program.Prog

variable {E M Q S : Type} {R : Q → Type} {α : Type}

def sequence : List (Prog E M Q R α) → Prog E M Q R (List α)
  | [] => pure []
  | x :: xs => do
    let a ← x
    let as ← sequence xs
    return a :: as

theorem run_bind_eq_done {β : Type} {h : Handler E Q R S} {x : Prog E M Q R α}
    {f : α → Prog E M Q R β} {m m'' : M} {s s'' : S} {b : β}
    (hrun : (x >>= f).run h m s = (.done b, m'', s'')) :
    ∃ a m' s', x.run h m s = (.done a, m', s') ∧ (f a).run h m' s' = (.done b, m'', s'') := by
  rw [run_bind] at hrun
  rcases hx : x.run h m s with ⟨_ | _ | _, m', s'⟩
  · rw [hx] at hrun
    exact ⟨_, m', s', rfl, hrun⟩
  · rw [hx] at hrun
    cases hrun
  · rw [hx] at hrun
    cases hrun

theorem run_sequence_concat {h : Handler E Q R S} {xs : List (Prog E M Q R α)}
    {x : Prog E M Q R α} {m m₁ m₂ : M} {s s₁ s₂ : S} {as : List α} {a : α}
    (hall : (sequence xs).run h m s = (.done as, m₁, s₁))
    (hone : x.run h m₁ s₁ = (.done a, m₂, s₂)) :
    (sequence (xs ++ [x])).run h m s = (.done (as ++ [a]), m₂, s₂) := by
  induction xs generalizing m s as with
  | nil =>
    cases hall
    rw [List.nil_append, sequence, run_bind_done hone]
    rfl
  | cons y ys ih =>
    obtain ⟨b, m', s', hy, hall⟩ := run_bind_eq_done hall
    obtain ⟨bs, m'', s'', hys, hall⟩ := run_bind_eq_done hall
    cases hall
    rw [List.cons_append, sequence, run_bind_done hy, run_bind_done (ih hys)]
    rfl

end OCamlStudy.Program.Prog
