import OCamlStudy.Program.Basic

/-! # Programs between two calls

Programs that share a memory are interrupted only inside a call. The turn of a
program takes it to its next call or to its end; a program whose turns follow
each other does what its run does.
-/

namespace OCamlStudy.Program.Prog

variable {E M Q S : Type} {R : Q → Type} {α β : Type}

/-- What is left of a program at its next call, and the memory there. -/
def settle : Prog E M Q R α → M → Prog E M Q R α × M
  | ret a, m => (ret a, m)
  | raise exn, m => (raise exn, m)
  | get k, m => (k m).settle m
  | set m k, _ => k.settle m
  | call q k, m => (call q k, m)

section Settle

variable {m m' : M} {x : Prog E M Q R α}

@[simp]
theorem settle_pure (a : α) : (pure a : Prog E M Q R α).settle m = (ret a, m) := rfl

@[simp]
theorem settle_read_bind (f : M → Prog E M Q R β) : (read >>= f).settle m = (f m).settle m := rfl

@[simp]
theorem settle_write_bind (f : Unit → Prog E M Q R β) :
    (write m' >>= f).settle m = (f ()).settle m' := rfl

@[simp]
theorem settle_ofExcept_bind (a : α) (f : α → Prog E M Q R β) :
    ((ofExcept (.ok a) : Prog E M Q R α) >>= f).settle m = (f a).settle m := rfl

theorem settle_bind_ret {a : α} (hx : x.settle m = (ret a, m')) (f : α → Prog E M Q R β) :
    (x >>= f).settle m = (f a).settle m' := by
  change (x.bind f).settle m = _
  induction x generalizing m with
  | ret | raise | call => cases hx <;> rfl
  | get k ih => exact ih m hx
  | set m k ih => exact ih hx

theorem settle_bind_call {q : Q} {k : R q → Prog E M Q R α} (hx : x.settle m = (call q k, m'))
    (f : α → Prog E M Q R β) : (x >>= f).settle m = (call q fun r => k r >>= f, m') := by
  change (x.bind f).settle m = _
  induction x generalizing m with
  | ret | raise => cases hx
  | call => cases hx; rfl
  | get k ih => exact ih m hx
  | set m k ih => exact ih hx

/-- Settling a program does not change what it does. -/
theorem run_settle (h : Handler E Q R S) (x : Prog E M Q R α) (m : M) (s : S) :
    (x.settle m).1.run h (x.settle m).2 s = x.run h m s := by
  induction x generalizing m with
  | ret | raise | call => rfl
  | get k ih => exact ih m m
  | set m' k ih => exact ih m'

end Settle

end OCamlStudy.Program.Prog
