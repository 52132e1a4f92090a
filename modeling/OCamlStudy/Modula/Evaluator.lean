import OCamlStudy.OCaml.Basic

/-! # The evaluator over any environment

An environment that obeys the two laws of `add` evaluates every expression as the
partial function of its lookups does, and of that function only the values at the
free variables matter.
-/

namespace OCamlStudy.Modula

open OCaml

structure ENV where
  t : Type → Type
  empty : {α : Type} → t α
  add : {α : Type} → Bytes → α → t α → t α
  lookup : {α : Type} → Bytes → t α → Option α
  merge : {α : Type} → t α → t α → t α

/-- What is added is found, and nothing else changes. -/
structure ENV.Lawful (E : ENV) : Prop where
  lookup_add_self : ∀ {α : Type} (k : Bytes) (v : α) (env : E.t α),
    E.lookup k (E.add k v env) = some v
  lookup_add_of_ne : ∀ {α : Type} (k k' : Bytes) (v : α) (env : E.t α), k' ≠ k →
    E.lookup k' (E.add k v env) = E.lookup k' env

def ListEnv : ENV where
  t α := List (Bytes × α)
  empty := []
  add k v env := (k, v) :: env
  lookup k env := env.lookup k
  merge env1 env2 := env1 ++ env2

theorem lookup_cons_of_ne {α : Type} {k k' : Bytes} (hne : k' ≠ k) (v : α)
    (env : List (Bytes × α)) : ((k, v) :: env).lookup k' = env.lookup k' := by
  rw [List.lookup_cons, beq_false_of_ne hne]

theorem ListEnv.lawful : ListEnv.Lawful where
  lookup_add_self _ _ _ := List.lookup_cons_self
  lookup_add_of_ne _ _ v env hne := lookup_cons_of_ne hne v env

inductive Expr where
  | value (n : ℤ)
  | var (s : Bytes)
  | add (e1 e2 : Expr)
  | let (x : Bytes) (e1 e2 : Expr)
  deriving DecidableEq, Repr

namespace MakeEvaluator

/-- `eval`; the sum is truncated to an `int`. -/
def eval (E : ENV) (env : E.t ℤ) : Expr → Option ℤ
  | .value n => some n
  | .var s => E.lookup s env
  | .add e1 e2 => do
    let v1 ← eval E env e1
    let v2 ← eval E env e2
    some (wrap63 (v1 + v2))
  | .let x e1 e2 => do
    let v1 ← eval E env e1
    eval E (E.add x v1 env) e2

/-- The variables free in an expression; `Let` binds its variable in the body. -/
def free : Expr → Finset Bytes
  | .value _ => ∅
  | .var s => {s}
  | .add e1 e2 => free e1 ∪ free e2
  | .let x e1 e2 => free e1 ∪ (free e2).erase x

def PartialEnv : ENV where
  t α := Bytes → Option α
  empty := fun _ => none
  add k v ρ := Function.update ρ k (some v)
  lookup k ρ := ρ k
  merge ρ ρ' := fun k => (ρ k).or (ρ' k)

theorem PartialEnv.lawful : PartialEnv.Lawful where
  lookup_add_self _ _ _ := Function.update_self _ _ _
  lookup_add_of_ne _ _ _ _ hne := Function.update_of_ne hne _ _

/-- The lookups of an environment. -/
def lookups (E : ENV) (env : E.t ℤ) : PartialEnv.t ℤ := fun s => E.lookup s env

theorem lookups_add {E : ENV} (h : E.Lawful) (k : Bytes) (v : ℤ) (env : E.t ℤ) :
    lookups E (E.add k v env) = PartialEnv.add k v (lookups E env) := by
  funext s
  by_cases hs : s = k
  · subst hs
    exact (h.lookup_add_self s v env).trans (PartialEnv.lawful.lookup_add_self s v _).symm
  · exact (h.lookup_add_of_ne k s v env hs).trans
      (PartialEnv.lawful.lookup_add_of_ne k s v (lookups E env) hs).symm

/-- An environment is evaluated in by its lookups. -/
theorem eval_eq_lookups {E : ENV} (h : E.Lawful) (x : Expr) (env : E.t ℤ) :
    eval E env x = eval PartialEnv (lookups E env) x := by
  induction x generalizing env with
  | value n => rfl
  | var s => rfl
  | add e1 e2 ih1 ih2 => rw [eval, eval, ih1, ih2]
  | «let» y e1 e2 ih1 ih2 =>
    rw [eval, eval, ih1]
    refine congrArg _ (funext fun v => ?_)
    rw [ih2, lookups_add h]

/-- Only the free variables matter. -/
theorem eval_congr {x : Expr} {ρ ρ' : PartialEnv.t ℤ} (h : ∀ s ∈ free x, ρ s = ρ' s) :
    eval PartialEnv ρ x = eval PartialEnv ρ' x := by
  induction x generalizing ρ ρ' with
  | value n => rfl
  | var s => exact h s (Finset.mem_singleton_self s)
  | add e1 e2 ih1 ih2 =>
    have h1 := ih1 fun s hs => h s (Finset.mem_union_left _ hs)
    have h2 := ih2 fun s hs => h s (Finset.mem_union_right _ hs)
    rw [eval, eval, h1, h2]
  | «let» y e1 e2 ih1 ih2 =>
    have h1 := ih1 fun s hs => h s (Finset.mem_union_left _ hs)
    rw [eval, eval, h1]
    refine congrArg _ (funext fun v => ih2 fun s hs => ?_)
    by_cases hsy : s = y
    · subst hsy
      exact (PartialEnv.lawful.lookup_add_self s v ρ).trans
        (PartialEnv.lawful.lookup_add_self s v ρ').symm
    · have hfree : s ∈ free (.let y e1 e2) :=
        Finset.mem_union_right _ (Finset.mem_erase.mpr ⟨hsy, hs⟩)
      exact (PartialEnv.lawful.lookup_add_of_ne y s v ρ hsy).trans
        ((h s hfree).trans (PartialEnv.lawful.lookup_add_of_ne y s v ρ' hsy).symm)

/-- **Evaluation depends on the lookups of the free variables only**, whatever the environments. -/
theorem eval_eq_of_lookup_eq :
    (∀ (E₁ E₂ : ENV), E₁.Lawful → E₂.Lawful → ∀ (x : Expr) (env₁ : E₁.t ℤ) (env₂ : E₂.t ℤ),
      (∀ s ∈ free x, E₁.lookup s env₁ = E₂.lookup s env₂) → eval E₁ env₁ x = eval E₂ env₂ x) ∧
    ListEnv.Lawful := by
  refine ⟨?_, ListEnv.lawful⟩
  intro E₁ E₂ h₁ h₂ x env₁ env₂ hlookup
  calc
    eval E₁ env₁ x = eval PartialEnv (lookups E₁ env₁) x := eval_eq_lookups h₁ x env₁
    _ = eval PartialEnv (lookups E₂ env₂) x := eval_congr hlookup
    _ = eval E₂ env₂ x := (eval_eq_lookups h₂ x env₂).symm

/-- A list against a function that also knows the bound variable. -/
theorem eval_eq_of_lookup_eq_let :
    eval ListEnv [(bytes "a", (1 : ℤ))] (.let (bytes "b") (.var (bytes "a")) (.var (bytes "b"))) =
      eval PartialEnv (fun _ => some 1)
        (.let (bytes "b") (.var (bytes "a")) (.var (bytes "b"))) :=
  eval_eq_of_lookup_eq.1 ListEnv PartialEnv ListEnv.lawful PartialEnv.lawful
    (.let (bytes "b") (.var (bytes "a")) (.var (bytes "b"))) [(bytes "a", (1 : ℤ))]
    (fun _ => some 1) (by
      have hfree : free (.let (bytes "b") (.var (bytes "a")) (.var (bytes "b"))) = {bytes "a"} := by
        decide
      intro s hs
      rw [hfree, Finset.mem_singleton] at hs
      subst hs
      rfl)

end MakeEvaluator

end OCamlStudy.Modula
