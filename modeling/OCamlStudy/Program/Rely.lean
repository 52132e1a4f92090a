import OCamlStudy.Program.Interleaving

/-! # Programs that keep an invariant

A program shares its memory and its device with others that keep an invariant of
each. It keeps them too if it finds them at every call, hands them on, and ends
with a value of a given kind, whatever the others did in between. Such a program
ends in every run, and none of its turns breaks the invariants.
-/

namespace OCamlStudy.Program

variable {E M Q S : Type} {R : Q → Type} {α β : Type}

namespace Prog

/-- From the given memory the program relies on `J` of the memory and `K` of the device,
keeps both, and ends with a value in `P`. -/
def Keeps (h : Handler E Q R S) (J : M → Prop) (K : S → Prop) (P : α → Prop) :
    Prog E M Q R α → M → Prop
  | ret a, m => J m ∧ P a
  | raise _, _ => False
  | get k, m => (k m).Keeps h J K P m
  | set m k, _ => k.Keeps h J K P m
  | call q k, m => J m ∧ ∀ s, K s → ∃ r s', h q s = (.done r, s') ∧ K s' ∧
      ∀ m', J m' → (k r).Keeps h J K P m'

section Keeps

variable {h : Handler E Q R S} {J : M → Prop} {K : S → Prop} {P : α → Prop} {P' : β → Prop}
  {m m' : M} {s : S} {x : Prog E M Q R α}

theorem keeps_ret {a : α} : (ret a : Prog E M Q R α).Keeps h J K P m ↔ J m ∧ P a := Iff.rfl

theorem not_keeps_raise {exn : E} : ¬ (raise exn : Prog E M Q R α).Keeps h J K P m := not_false

theorem keeps_call {q : Q} {k : R q → Prog E M Q R α} : (call q k).Keeps h J K P m ↔
    J m ∧ ∀ s, K s → ∃ r s', h q s = (.done r, s') ∧ K s' ∧
      ∀ m', J m' → (k r).Keeps h J K P m' := Iff.rfl

@[simp]
theorem keeps_pure {a : α} : (pure a : Prog E M Q R α).Keeps h J K P m ↔ J m ∧ P a := Iff.rfl

@[simp]
theorem keeps_read_bind {f : M → Prog E M Q R β} :
    (read >>= f).Keeps h J K P' m ↔ (f m).Keeps h J K P' m := Iff.rfl

@[simp]
theorem keeps_write_bind {f : Unit → Prog E M Q R β} :
    (write m' >>= f).Keeps h J K P' m ↔ (f ()).Keeps h J K P' m' := Iff.rfl

theorem keeps_perform_bind {q : Q} {f : R q → Prog E M Q R β} (hm : J m)
    (hq : ∀ s, K s → ∃ r s', h q s = (.done r, s') ∧ K s' ∧
      ∀ m', J m' → (f r).Keeps h J K P' m') : (perform q >>= f).Keeps h J K P' m := ⟨hm, hq⟩

theorem Keeps.bind {f : α → Prog E M Q R β} (hx : x.Keeps h J K P m)
    (hf : ∀ a m', J m' → P a → (f a).Keeps h J K P' m') : (x >>= f).Keeps h J K P' m := by
  change (x.bind f).Keeps h J K P' m
  induction x generalizing m with
  | ret a => exact hf a m hx.1 hx.2
  | raise => exact hx.elim
  | get k ih => exact ih m hx
  | set m k ih => exact ih hx
  | call q k ih =>
    refine ⟨hx.1, fun s hs => ?_⟩
    obtain ⟨r, s', hq, hs', hk⟩ := hx.2 s hs
    exact ⟨r, s', hq, hs', fun m' hm' => ih r (hk m' hm')⟩

theorem Keeps.mono {P₁ : α → Prop} (hx : x.Keeps h J K P m) (hP : ∀ a, P a → P₁ a) :
    x.Keeps h J K P₁ m := by
  rw [← bind_pure x]
  exact hx.bind fun a m' hm' ha => ⟨hm', hP a ha⟩

/-- Only the calls and the end of a program matter. -/
theorem keeps_settle : (x.settle m).1.Keeps h J K P (x.settle m).2 ↔ x.Keeps h J K P m := by
  induction x generalizing m with
  | ret | raise | call => exact Iff.rfl
  | get k ih => exact ih m
  | set m k ih => exact ih

theorem Keeps.settle_any (hx : x.Keeps h J K P m) (hm : J m') :
    (x.settle m).1.Keeps h J K P m' := by
  induction x generalizing m with
  | ret | call => exact ⟨hm, hx.2⟩
  | raise => exact hx.elim
  | get k ih => exact ih m hx
  | set m k ih => exact ih hx

theorem Keeps.settle_memory (hx : x.Keeps h J K P m) : J (x.settle m).2 := by
  induction x generalizing m with
  | ret | call => exact hx.1
  | raise => exact hx.elim
  | get k ih => exact ih m hx
  | set m k ih => exact ih hx

/-- A program that keeps the invariants ends, on its own, with a value of its kind. -/
theorem Keeps.run (hx : x.Keeps h J K P m) (hs : K s) :
    ∃ a m' s', x.run h m s = (.done a, m', s') ∧ P a ∧ J m' ∧ K s' := by
  induction x generalizing m s with
  | ret a => exact ⟨a, m, s, rfl, hx.2, hx.1, hs⟩
  | raise => exact hx.elim
  | get k ih => exact ih m hx hs
  | set m k ih => exact ih hx hs
  | call q k ih =>
    obtain ⟨r, s', hq, hs', hk⟩ := hx.2 s hs
    obtain ⟨a, m₁, s₁, hrun, hend⟩ := ih r (hk m hx.1) hs'
    exact ⟨a, m₁, s₁, by rw [Prog.run, hq]; exact hrun, hend⟩

end Keeps

-- From here on the rules above stand for the definition.
attribute [irreducible] Keeps

end Prog

end OCamlStudy.Program
