import OCamlStudy.Modula.Evaluator
import Mathlib.Logic.Relation

/-! # Reduction of expressions

Expressions without an environment: a `let` whose bound expression is a number
substitutes it. The reduction always ends, and it ends with the number that the
evaluator returns if the values of the environment are substituted first. An
evaluation fails exactly at a free variable that the environment does not know.
-/

namespace OCamlStudy.Modula

open OCaml

namespace Expr

def close (ρ : Bytes → Option ℤ) : Expr → Expr
  | value n => value n
  | var s =>
    match ρ s with
    | some n => value n
    | none => var s
  | add e1 e2 => add (e1.close ρ) (e2.close ρ)
  | «let» x e1 e2 => «let» x (e1.close ρ) (e2.close (Function.update ρ x none))

def subst (x : Bytes) (n : ℤ) : Expr → Expr := close (Function.update (fun _ => none) x (some n))

/-- One step, from left to right and with the bound expression before the body. -/
inductive Step : Expr → Expr → Prop
  | addLeft {e1 e1' e2 : Expr} : Step e1 e1' → Step (add e1 e2) (add e1' e2)
  | addRight {n : ℤ} {e2 e2' : Expr} : Step e2 e2' → Step (add (value n) e2) (add (value n) e2')
  | add {n m : ℤ} : Step (add (value n) (value m)) (value (wrap63 (n + m)))
  | bound {x : Bytes} {e1 e1' e2 : Expr} : Step e1 e1' → Step («let» x e1 e2) («let» x e1' e2)
  | «let» {x : Bytes} {n : ℤ} {e2 : Expr} : Step («let» x (value n) e2) (e2.subst x n)

/-- Any number of steps. -/
abbrev Reduces : Expr → Expr → Prop := Relation.ReflTransGen Step

def size : Expr → ℕ
  | value _ | var _ => 1
  | add e1 e2 | «let» _ e1 e2 => e1.size + e2.size + 1

end Expr

open Modula.Expr MakeEvaluator

section EvalIn

variable (ρ : Bytes → Option ℤ)

def evalIn (e : Expr) : Option ℤ := eval PartialEnv ρ e

theorem evalIn_value (n : ℤ) : evalIn ρ (.value n) = some n := rfl

theorem evalIn_var (s : Bytes) : evalIn ρ (.var s) = ρ s := rfl

theorem evalIn_add (e1 e2 : Expr) : evalIn ρ (.add e1 e2) =
    (evalIn ρ e1).bind fun v1 => (evalIn ρ e2).bind fun v2 => some (wrap63 (v1 + v2)) := rfl

theorem evalIn_let (x : Bytes) (e1 e2 : Expr) : evalIn ρ (.let x e1 e2) =
    (evalIn ρ e1).bind fun v1 => evalIn (Function.update ρ x (some v1)) e2 := rfl

end EvalIn

section Close

variable {ρ ρ' : Bytes → Option ℤ} {e e' : Expr} {x : Bytes}

@[simp]
theorem Expr.size_close (ρ : Bytes → Option ℤ) (e : Expr) : (e.close ρ).size = e.size := by
  induction e generalizing ρ with
  | value n => rfl
  | var s =>
    rw [close]
    cases ρ s <;> rfl
  | add e1 e2 ih1 ih2 => simp only [close, size, ih1, ih2]
  | «let» y e1 e2 ih1 ih2 => simp only [close, size, ih1, ih2]

theorem Expr.close_close (ρ ρ' : Bytes → Option ℤ) (e : Expr) :
    (e.close ρ).close ρ' = e.close fun s => (ρ s).or (ρ' s) := by
  induction e generalizing ρ ρ' with
  | value n => rfl
  | var s =>
    cases hs : ρ s with
    | none => simp only [close, hs, Option.none_or]
    | some n => simp only [close, hs, Option.some_or]
  | add e1 e2 ih1 ih2 => simp only [close, ih1, ih2]
  | «let» y e1 e2 ih1 ih2 =>
    simp only [close, ih1, ih2]
    congr 2
    funext s
    by_cases hs : s = y
    · subst hs
      simp
    · simp [Function.update_of_ne hs]

theorem Expr.subst_close (ρ : Bytes → Option ℤ) (x : Bytes) (n : ℤ) (e : Expr) :
    (e.close (Function.update ρ x none)).subst x n = e.close (Function.update ρ x (some n)) := by
  rw [subst, close_close]
  congr 1
  funext s
  by_cases hs : s = x
  · subst hs
    simp
  · simp [Function.update_of_ne hs]

theorem evalIn_close (ρ ρ' : Bytes → Option ℤ) (e : Expr) :
    evalIn ρ' (e.close ρ) = evalIn (fun s => (ρ s).or (ρ' s)) e := by
  induction e generalizing ρ ρ' with
  | value n => rfl
  | var s =>
    cases hs : ρ s with
    | none => simp only [close, hs, evalIn_var, Option.none_or]
    | some n => simp only [close, hs, evalIn_value, evalIn_var, Option.some_or]
  | add e1 e2 ih1 ih2 => simp only [close, evalIn_add, ih1, ih2]
  | «let» y e1 e2 ih1 ih2 =>
    simp only [close, evalIn_let, ih1, ih2]
    congr 1
    funext v
    congr 1
    funext s
    by_cases hs : s = y
    · subst hs
      simp
    · simp [Function.update_of_ne hs]

end Close

section Reduces

variable {e e' e1 e1' e2 e2' : Expr} {ρ : Bytes → Option ℤ}

/-- A step does not change what an expression evaluates to. -/
theorem Expr.Step.evalIn_eq (h : Step e e') (ρ : Bytes → Option ℤ) : evalIn ρ e = evalIn ρ e' := by
  induction h with
  | addLeft _ ih | addRight _ ih => rw [evalIn_add, evalIn_add, ih]
  | add => rfl
  | bound _ ih => rw [evalIn_let, evalIn_let, ih]
  | @«let» x n e2 =>
    rw [subst, evalIn_close, evalIn_let, evalIn_value, Option.bind_some]
    congr 1
    funext s
    by_cases hs : s = x
    · subst hs
      simp
    · simp [Function.update_of_ne hs]

theorem Expr.Reduces.evalIn_eq (h : Reduces e e') (ρ : Bytes → Option ℤ) :
    evalIn ρ e = evalIn ρ e' := by
  induction h with
  | refl => rfl
  | tail _ hstep ih => exact ih.trans (hstep.evalIn_eq ρ)

theorem Expr.Reduces.addLeft (h : Reduces e1 e1') (e2 : Expr) :
    Reduces (.add e1 e2) (.add e1' e2) := by
  induction h with
  | refl => exact .refl
  | tail _ hstep ih => exact ih.tail (.addLeft hstep)

theorem Expr.Reduces.addRight (h : Reduces e2 e2') (n : ℤ) :
    Reduces (.add (.value n) e2) (.add (.value n) e2') := by
  induction h with
  | refl => exact .refl
  | tail _ hstep ih => exact ih.tail (.addRight hstep)

theorem Expr.Reduces.bound (h : Reduces e1 e1') (x : Bytes) (e2 : Expr) :
    Reduces (.let x e1 e2) (.let x e1' e2) := by
  induction h with
  | refl => exact .refl
  | tail _ hstep ih => exact ih.tail (.bound hstep)

theorem reduces_of_evalIn {v : ℤ} (h : evalIn ρ e = some v) : Reduces (e.close ρ) (.value v) := by
  induction e generalizing ρ v with
  | value n =>
    cases h
    exact .refl
  | var s =>
    have hs : ρ s = some v := h
    simp only [close, hs]
    exact .refl
  | add e1 e2 ih1 ih2 =>
    rw [evalIn_add] at h
    obtain ⟨v1, h1, h⟩ := Option.bind_eq_some_iff.mp h
    obtain ⟨v2, h2, h⟩ := Option.bind_eq_some_iff.mp h
    cases h
    exact (((ih1 h1).addLeft _).trans ((ih2 h2).addRight v1)).tail .add
  | «let» x e1 e2 ih1 ih2 =>
    rw [evalIn_let] at h
    obtain ⟨v1, h1, h2⟩ := Option.bind_eq_some_iff.mp h
    have hbody := ih2 h2
    rw [← subst_close] at hbody
    exact ((ih1 h1).bound x _).trans (.head .let hbody)

/-- **The evaluator returns what the reduction ends with.** -/
theorem evalIn_eq_some_iff {v : ℤ} : evalIn ρ e = some v ↔ Reduces (e.close ρ) (.value v) := by
  constructor
  · exact reduces_of_evalIn
  · intro h
    have heval := h.evalIn_eq fun _ => none
    rw [evalIn_close] at heval
    simpa [evalIn_value] using heval

theorem Expr.Step.size_lt (h : Step e e') : e'.size < e.size := by
  induction h with
  | addLeft _ ih | addRight _ ih | bound _ ih =>
    simp only [size]
    omega
  | add => simp [size]
  | «let» =>
    simp only [subst, size_close, size]
    omega

/-- The reduction ends. -/
theorem wellFounded_step : WellFounded (Function.swap Step) :=
  Subrelation.wf (fun h => h.size_lt) (measure size).wf

theorem Finset.exists_mem_union {α : Type} [DecidableEq α] {s t : Finset α} {p : α → Prop} :
    (∃ a ∈ s ∪ t, p a) ↔ (∃ a ∈ s, p a) ∨ ∃ a ∈ t, p a := by
  simp only [Finset.mem_union, or_and_right, exists_or]

/-- Evaluation fails at a free variable, and only there. -/
theorem evalIn_eq_none_iff : evalIn ρ e = none ↔ ∃ s ∈ free e, ρ s = none := by
  induction e generalizing ρ with
  | value n => simp [evalIn_value, free]
  | var s => simp [evalIn_var, free]
  | add e1 e2 ih1 ih2 =>
    rw [free, Finset.exists_mem_union, ← ih1, ← ih2, evalIn_add]
    cases evalIn ρ e1 with
    | none => simp
    | some v1 => cases evalIn ρ e2 <;> simp
  | «let» x e1 e2 ih1 ih2 =>
    rw [free, Finset.exists_mem_union, ← ih1, evalIn_let]
    cases evalIn ρ e1 with
    | none => simp
    | some v1 =>
      rw [Option.bind_some, ih2]
      simp only [reduceCtorEq, false_or, Finset.mem_erase]
      constructor
      · rintro ⟨s, hs, hnone⟩
        have hne : s ≠ x := by
          rintro rfl
          rw [Function.update_self] at hnone
          cases hnone
        rw [Function.update_of_ne hne] at hnone
        exact ⟨s, ⟨hne, hs⟩, hnone⟩
      · rintro ⟨s, ⟨hne, hs⟩, hnone⟩
        refine ⟨s, hs, ?_⟩
        rwa [Function.update_of_ne hne]

end Reduces

end OCamlStudy.Modula
