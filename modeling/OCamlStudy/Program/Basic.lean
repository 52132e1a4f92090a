import Mathlib.Tactic

/-! # Programs over a device

A program reads and replaces a memory and calls a device, where it may be
interrupted. A handler says how the device answers a call; running a program
under a handler ends with a value, with an exception, or with the machine
stopped inside a call.
-/

namespace OCamlStudy.Program

/-- How a run, or a call of the device, ends. -/
inductive Outcome (E α : Type) where
  | done (a : α)
  | raised (exn : E)
  | stopped

/-- Programs over the memory `M` that call the device with `q : Q` for an answer in `R q`. -/
inductive Prog (E M Q : Type) (R : Q → Type) (α : Type) where
  | ret (a : α)
  | raise (exn : E)
  | get (k : M → Prog E M Q R α)
  | set (m : M) (k : Prog E M Q R α)
  | call (q : Q) (k : R q → Prog E M Q R α)

/-- How a device in state `S` answers; it can change its state and still fail. -/
abbrev Handler (E Q : Type) (R : Q → Type) (S : Type) := (q : Q) → S → Outcome E (R q) × S

variable {E M Q S C : Type} {R : Q → Type} {α β : Type}

namespace Prog

def bind : Prog E M Q R α → (α → Prog E M Q R β) → Prog E M Q R β
  | ret a, f => f a
  | raise exn, _ => raise exn
  | get k, f => get fun m => (k m).bind f
  | set m k, f => set m (k.bind f)
  | call q k, f => call q fun r => (k r).bind f

instance : Monad (Prog E M Q R) where
  pure := ret
  bind := bind

theorem bind_ret (x : Prog E M Q R α) : x.bind ret = x := by
  induction x with
  | ret | raise => rfl
  | get k ih => exact congrArg get (funext ih)
  | set m k ih => exact congrArg (set m) ih
  | call q k ih => exact congrArg (call q) (funext ih)

theorem bind_bind {γ : Type} (x : Prog E M Q R α) (f : α → Prog E M Q R β)
    (g : β → Prog E M Q R γ) : (x.bind f).bind g = x.bind fun a => (f a).bind g := by
  induction x with
  | ret | raise => rfl
  | get k ih => exact congrArg get (funext ih)
  | set m k ih => exact congrArg (set m) ih
  | call q k ih => exact congrArg (call q) (funext ih)

instance : LawfulMonad (Prog E M Q R) :=
  LawfulMonad.mk' _ bind_ret (fun _ _ => rfl) bind_bind

def read : Prog E M Q R M := get ret

def write (m : M) : Prog E M Q R Unit := set m (ret ())

def perform (q : Q) : Prog E M Q R (R q) := call q ret

/-- A computation without effects. -/
def ofExcept : Except E α → Prog E M Q R α
  | .ok a => ret a
  | .error exn => raise exn

/-- Run a program: how it ends, the memory and the device. -/
def run (h : Handler E Q R S) : Prog E M Q R α → M → S → Outcome E α × M × S
  | ret a, m, s => (.done a, m, s)
  | raise exn, m, s => (.raised exn, m, s)
  | get k, m, s => (k m).run h m s
  | set m k, _, s => k.run h m s
  | call q k, m, s =>
    match h q s with
    | (.done r, s) => (k r).run h m s
    | (.raised exn, s) => (.raised exn, m, s)
    | (.stopped, s) => (.stopped, m, s)

section Run

variable {h : Handler E Q R S} {m m' : M} {s s' : S}

@[simp]
theorem run_pure (a : α) : (pure a : Prog E M Q R α).run h m s = (.done a, m, s) := rfl

@[simp]
theorem run_read : (read : Prog E M Q R M).run h m s = (.done m, m, s) := rfl

@[simp]
theorem run_write : (write m' : Prog E M Q R Unit).run h m s = (.done (), m', s) := rfl

@[simp]
theorem run_ofExcept_ok (a : α) :
    (ofExcept (.ok a) : Prog E M Q R α).run h m s = (.done a, m, s) := rfl

theorem run_perform {q : Q} {r : R q} (hq : h q s = (.done r, s')) :
    (perform q : Prog E M Q R (R q)).run h m s = (.done r, m, s') := by
  rw [perform, run, hq]
  rfl

theorem run_perform_stopped {q : Q} (hq : h q s = (.stopped, s')) :
    (perform q : Prog E M Q R (R q)).run h m s = (.stopped, m, s') := by
  rw [perform, run, hq]

theorem run_bind (x : Prog E M Q R α) (f : α → Prog E M Q R β) :
    (x >>= f).run h m s = match x.run h m s with
      | (.done a, m, s) => (f a).run h m s
      | (.raised exn, m, s) => (.raised exn, m, s)
      | (.stopped, m, s) => (.stopped, m, s) := by
  change (x.bind f).run h m s = _
  induction x generalizing m s with
  | ret | raise => rfl
  | get k ih => exact ih m
  | set m k ih => exact ih
  | call q k ih =>
    rw [bind, run, run]
    rcases h q s with ⟨_ | _ | _, s'⟩
    · exact ih _
    · rfl
    · rfl

theorem run_bind_done {x : Prog E M Q R α} {a : α} (hx : x.run h m s = (.done a, m', s'))
    (f : α → Prog E M Q R β) : (x >>= f).run h m s = (f a).run h m' s' := by
  rw [run_bind, hx]

theorem run_bind_stopped {x : Prog E M Q R α} (hx : x.run h m s = (.stopped, m', s'))
    (f : α → Prog E M Q R β) : (x >>= f).run h m s = (.stopped, m', s') := by
  rw [run_bind, hx]

end Run

end Prog

/-- Wherever the reference answers, the handler gives the same answer and stays related. -/
def Refines (h : Handler E Q R S) (ref : Handler E Q R C) (contents : S → C) : Prop :=
  ∀ q s r c, ref q (contents s) = (.done r, c) → ∃ s', h q s = (.done r, s') ∧ contents s' = c

/-- A run that the reference completes is completed by the handler with the same result. -/
theorem Refines.run {h : Handler E Q R S} {ref : Handler E Q R C} {contents : S → C}
    (hr : Refines h ref contents) {x : Prog E M Q R α} {m m' : M} {s : S} {c : C} {a : α}
    (hx : x.run ref m (contents s) = (.done a, m', c)) :
    ∃ s', x.run h m s = (.done a, m', s') ∧ contents s' = c := by
  induction x generalizing m s with
  | ret =>
    cases hx
    exact ⟨s, rfl, rfl⟩
  | raise => cases hx
  | get k ih => exact ih m hx
  | set m k ih => exact ih hx
  | call q k ih =>
    rw [Prog.run] at hx
    cases hq : ref q (contents s) with
    | mk o c' =>
      rw [hq] at hx
      cases o with
      | done r =>
        obtain ⟨s', hs, rfl⟩ := hr q s r c' hq
        obtain ⟨s'', hx, hc⟩ := ih r hx
        exact ⟨s'', by rw [Prog.run, hs]; exact hx, hc⟩
      | raised | stopped => cases hx

end OCamlStudy.Program
