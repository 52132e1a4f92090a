import OCamlStudy.Program.Basic

/-! # Programs that keep to some calls

A device may do what a reference does only for some calls. A program that makes no
others runs on the device as it runs on the reference.
-/

namespace OCamlStudy.Program

variable {E M Q S C : Type} {R : Q → Type} {α β : Type} {P : Q → Prop}

/-- Whatever it is answered, the program only makes calls that meet the condition. -/
def Prog.Within (P : Q → Prop) : Prog E M Q R α → Prop
  | ret _ | raise _ => True
  | get k => ∀ m, (k m).Within P
  | set _ k => k.Within P
  | call q k => P q ∧ ∀ r, (k r).Within P

section Within

@[simp]
theorem Prog.within_pure (a : α) : (pure a : Prog E M Q R α).Within P := trivial

@[simp]
theorem Prog.within_read : (Prog.read : Prog E M Q R M).Within P := fun _ => trivial

@[simp]
theorem Prog.within_write (m : M) : (Prog.write m : Prog E M Q R Unit).Within P := trivial

@[simp]
theorem Prog.within_ofExcept (r : Except E α) : (ofExcept r : Prog E M Q R α).Within P := by
  cases r <;> trivial

theorem Prog.within_perform {q : Q} (h : P q) : (perform q : Prog E M Q R (R q)).Within P :=
  ⟨h, fun _ => trivial⟩

theorem Prog.Within.bind {x : Prog E M Q R α} {f : α → Prog E M Q R β} (hx : x.Within P)
    (hf : ∀ a, (f a).Within P) : (x >>= f).Within P := by
  change (x.bind f).Within P
  induction x with
  | ret a => exact hf a
  | raise exn => trivial
  | get k ih => exact fun m => ih m (hx m)
  | set m k ih => exact ih hx
  | call q k ih => exact ⟨hx.1, fun r => ih r (hx.2 r)⟩

theorem Prog.within_ofExcept_bind {r : Except E α} {f : α → Prog E M Q R β}
    (hf : ∀ a, r = .ok a → (f a).Within P) : (Prog.ofExcept r >>= f).Within P := by
  cases r with
  | ok a => exact hf a rfl
  | error exn => trivial

end Within

/-- For these calls the handler answers as the reference does, on the states that `embed` makes of
its states. -/
def Simulates (P : Q → Prop) (embed : C → S) (ref : Handler E Q R C) (h : Handler E Q R S) : Prop :=
  ∀ q c r c', P q → ref q c = (.done r, c') → h q (embed c) = (.done r, embed c')

theorem Simulates.run {embed : C → S} {ref : Handler E Q R C} {h : Handler E Q R S}
    (hs : Simulates P embed ref h) {x : Prog E M Q R α} (hx : x.Within P) {m m' : M} {c c' : C}
    {a : α} (hrun : x.run ref m c = (.done a, m', c')) :
    x.run h m (embed c) = (.done a, m', embed c') := by
  induction x generalizing m c with
  | ret =>
    cases hrun
    rfl
  | raise => cases hrun
  | get k ih => exact ih m (hx m) hrun
  | set m k ih => exact ih hx hrun
  | call q k ih =>
    rw [Prog.run] at hrun ⊢
    cases hq : ref q c with
    | mk o c₁ =>
      rw [hq] at hrun
      cases o with
      | done r =>
        rw [hs q c r c₁ hx.1 hq]
        exact ih r (hx.2 r) hrun
      | raised | stopped => cases hrun

-- from here on a program is only taken apart by the lemmas
attribute [irreducible] Prog.Within

end OCamlStudy.Program
