import OCamlStudy.Modula.Reduction

/-! # The evaluator over association lists

The first evaluator of the repository searches its list itself and evaluates both
summands before it looks at either. It agrees with the functor over `ListEnv`,
and both compute what substitution and reduction do.
-/

namespace OCamlStudy.Evaluator

open OCaml Modula

abbrev Expr := Modula.Expr

def safeAssoc {α : Type} (key : Bytes) : List (Bytes × α) → Option α
  | [] => none
  | (k, v) :: tail => if k = key then some v else safeAssoc key tail

def optAdd : Option ℤ → Option ℤ → Option ℤ
  | some v1, some v2 => some (wrap63 (v1 + v2))
  | _, _ => none

def eval (env : List (Bytes × ℤ)) : Expr → Option ℤ
  | .value n => some n
  | .var s => safeAssoc s env
  | .add e1 e2 =>
    let v1Opt := eval env e1
    let v2Opt := eval env e2
    optAdd v1Opt v2Opt
  | .let x e1 e2 =>
    match eval env e1 with
    | none => none
    | some v1 =>
      let newEnv := (x, v1) :: env
      eval newEnv e2

theorem safeAssoc_eq_lookup {α : Type} (key : Bytes) (env : List (Bytes × α)) :
    safeAssoc key env = env.lookup key := by
  induction env with
  | nil => rfl
  | cons p tail ih =>
    obtain ⟨k, v⟩ := p
    rw [safeAssoc, List.lookup_cons, ih]
    by_cases hk : k = key
    · subst hk
      simp
    · rw [if_neg hk, beq_false_of_ne (Ne.symm hk)]

theorem optAdd_eq_bind (v1Opt v2Opt : Option ℤ) : optAdd v1Opt v2Opt =
    v1Opt.bind fun v1 => v2Opt.bind fun v2 => some (wrap63 (v1 + v2)) := by
  cases v1Opt with
  | none => rfl
  | some v1 => cases v2Opt <;> rfl

theorem eval_eq_makeEvaluator (env : List (Bytes × ℤ)) (e : Expr) :
    eval env e = MakeEvaluator.eval ListEnv env e := by
  induction e generalizing env with
  | value n => rfl
  | var s => exact safeAssoc_eq_lookup s env
  | add e1 e2 ih1 ih2 =>
    rw [eval, ih1, ih2, optAdd_eq_bind]
    rfl
  | «let» x e1 e2 ih1 ih2 =>
    have hlet : MakeEvaluator.eval ListEnv env (.let x e1 e2) =
        (MakeEvaluator.eval ListEnv env e1).bind fun v1 =>
          MakeEvaluator.eval ListEnv ((x, v1) :: env : List (Bytes × ℤ)) e2 := rfl
    rw [eval, ih1, hlet]
    cases MakeEvaluator.eval ListEnv env e1 with
    | none => rfl
    | some v1 => exact ih2 ((x, v1) :: env)

theorem eval_eq_evalIn (env : List (Bytes × ℤ)) (e : Expr) :
    eval env e = evalIn (fun s => safeAssoc s env) e := by
  have hlookups : MakeEvaluator.lookups ListEnv env = fun s => safeAssoc s env := by
    funext s
    exact (safeAssoc_eq_lookup s env).symm
  calc
    eval env e = MakeEvaluator.eval ListEnv env e := eval_eq_makeEvaluator env e
    _ = evalIn (MakeEvaluator.lookups ListEnv env) e :=
      MakeEvaluator.eval_eq_lookups ListEnv.lawful e env
    _ = evalIn (fun s => safeAssoc s env) e := by rw [hlookups]

/-- **Both evaluators compute what reduction does.** They agree, they return the number that the
expression reduces to once the environment is substituted, they fail exactly if a free variable is
not in the environment, and every reduction ends. -/
theorem eval_reduces : (∀ (env : List (Bytes × ℤ)) (e : Expr),
      eval env e = MakeEvaluator.eval ListEnv env e ∧
      (∀ v, eval env e = some v ↔ (e.close fun s => safeAssoc s env).Reduces (.value v)) ∧
      (eval env e = none ↔ ∃ s ∈ MakeEvaluator.free e, safeAssoc s env = none)) ∧
    WellFounded (Function.swap Modula.Expr.Step) := by
  refine ⟨?_, wellFounded_step⟩
  intro env e
  refine ⟨eval_eq_makeEvaluator env e, ?_, ?_⟩
  · intro v
    rw [eval_eq_evalIn, evalIn_eq_some_iff]
  · rw [eval_eq_evalIn, evalIn_eq_none_iff]

end OCamlStudy.Evaluator
