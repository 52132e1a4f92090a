import OCamlStudy.Program.Basic

/-! # Refinement under an invariant

A handler that keeps an invariant acts on the states that meet it. A handler that
refines a reference only from such states, and leads to such states, completes
what the reference completes.
-/

namespace OCamlStudy.Program

variable {E M Q S C : Type} {R : Q → Type} {α : Type} {I : S → Prop}
  {h : Handler E Q R S} {ref : Handler E Q R C} {contents : S → C}

theorem Prog.run_keeps (hI : ∀ q s, I s → I (h q s).2) (x : Prog E M Q R α) (m : M) {s : S}
    (hs : I s) : I (x.run h m s).2.2 := by
  induction x generalizing m s with
  | ret | raise => exact hs
  | get k ih => exact ih m m hs
  | set m' k ih => exact ih m' hs
  | call q k ih =>
    have hs' := hI q s hs
    rw [run]
    cases hq : h q s with
    | mk o s' =>
      rw [hq] at hs'
      cases o with
      | done r => exact ih r m hs'
      | raised | stopped => exact hs'

/-- A handler on the states of an invariant that it keeps. -/
def restrict (h : Handler E Q R S) (hI : ∀ q s, I s → I (h q s).2) : Handler E Q R {s // I s} :=
  fun q s => ((h q s.1).1, ⟨(h q s.1).2, hI q s.1 s.2⟩)

/-- Wherever the reference answers a state of the invariant, the handler gives the same answer,
stays related and keeps the invariant. -/
def RefinesOn (I : S → Prop) (h : Handler E Q R S) (ref : Handler E Q R C) (contents : S → C) :
    Prop :=
  ∀ q s r c, I s → ref q (contents s) = (.done r, c) →
    ∃ s', h q s = (.done r, s') ∧ contents s' = c ∧ I s'

theorem RefinesOn.restrict (hr : RefinesOn I h ref contents) (hI : ∀ q s, I s → I (h q s).2) :
    Refines (restrict h hI) ref fun s => contents s.1 := by
  rintro q ⟨s, hs⟩ r c hq
  obtain ⟨s', hh, hc, hs'⟩ := hr q s r c hs hq
  refine ⟨⟨s', hs'⟩, ?_, hc⟩
  simp only [Program.restrict, hh]

theorem RefinesOn.run (hr : RefinesOn I h ref contents) {x : Prog E M Q R α} {m m' : M} {s : S}
    {c : C} {a : α} (hs : I s) (hx : x.run ref m (contents s) = (.done a, m', c)) :
    ∃ s', x.run h m s = (.done a, m', s') ∧ contents s' = c ∧ I s' := by
  induction x generalizing m s with
  | ret =>
    cases hx
    exact ⟨s, rfl, rfl, hs⟩
  | raise => cases hx
  | get k ih => exact ih m hs hx
  | set m k ih => exact ih hs hx
  | call q k ih =>
    rw [Prog.run] at hx
    cases hq : ref q (contents s) with
    | mk o c' =>
      rw [hq] at hx
      cases o with
      | done r =>
        obtain ⟨s', hh, rfl, hs'⟩ := hr q s r c' hs hq
        obtain ⟨s'', hx, hc, hs''⟩ := ih r hs' hx
        exact ⟨s'', by rw [Prog.run, hh]; exact hx, hc, hs''⟩
      | raised | stopped => cases hx

end OCamlStudy.Program
