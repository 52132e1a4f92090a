import Mathlib.Logic.Relation

/-! # Runs of a transition system

A system changes by events, some of which are impossible in a state. A run whose
events all meet a condition keeps every invariant that such events keep.
-/

namespace OCamlStudy.Program

variable {S E : Type} {step : S → E → Option S} {ok ok' : S → E → Prop}

/-- One event that meets the condition `ok` where it happens. -/
def Moves (step : S → E → Option S) (ok : S → E → Prop) (s s' : S) : Prop :=
  ∃ e, ok s e ∧ step s e = some s'

/-- A run of events that all meet the condition `ok`. -/
def Reaches (step : S → E → Option S) (ok : S → E → Prop) : S → S → Prop :=
  Relation.ReflTransGen (Moves step ok)

theorem Reaches.refl (s : S) : Reaches step ok s s := Relation.ReflTransGen.refl

theorem Reaches.trans {s t u : S} (h : Reaches step ok s t) (h' : Reaches step ok t u) :
    Reaches step ok s u := Relation.ReflTransGen.trans h h'

theorem Reaches.head {s t u : S} (e : E) (ho : ok s e) (he : step s e = some t)
    (h : Reaches step ok t u) : Reaches step ok s u :=
  Relation.ReflTransGen.head ⟨e, ho, he⟩ h

theorem Reaches.mono (h : ∀ s e, ok s e → ok' s e) {s s' : S} (hr : Reaches step ok s s') :
    Reaches step ok' s s' := by
  induction hr with
  | refl => exact Reaches.refl _
  | tail _ hm ih =>
    obtain ⟨e, ho, he⟩ := hm
    exact ih.tail ⟨e, h _ e ho, he⟩

theorem Reaches.of_foldlM {s s' : S} (es : List E) (ho : ∀ s e, ok s e)
    (h : es.foldlM step s = some s') : Reaches step ok s s' := by
  induction es generalizing s with
  | nil =>
    cases h
    exact Reaches.refl _
  | cons e es ih =>
    rw [List.foldlM_cons] at h
    obtain ⟨t, ht, h⟩ := Option.bind_eq_some_iff.mp h
    exact Reaches.head e (ho s e) ht (ih h)

theorem Reaches.lift {S' E' : Type} {step' : S' → E' → Option S'} {ok' : S' → E' → Prop}
    (f : S → S') (h : ∀ s e s', ok s e → step s e = some s' →
      ∃ e', ok' (f s) e' ∧ step' (f s) e' = some (f s')) {s s' : S} (hr : Reaches step ok s s') :
    Reaches step' ok' (f s) (f s') := by
  induction hr with
  | refl => exact Reaches.refl _
  | tail _ hm ih =>
    obtain ⟨e, ho, he⟩ := hm
    exact ih.tail (h _ e _ ho he)

section Follow

variable [∀ s e, Decidable (ok s e)]

variable (step ok) in
/-- The events one after another, as long as each of them is allowed. -/
def follow (s : S) (es : List E) : Option S :=
  es.foldlM (fun s e => if ok s e then step s e else none) s

theorem Reaches.of_follow {s s' : S} {es : List E} (h : follow step ok s es = some s') :
    Reaches step ok s s' := by
  have hrun : Reaches (fun s e => if ok s e then step s e else none) (fun _ _ => True) s s' :=
    .of_foldlM es (fun _ _ => trivial) h
  refine hrun.lift id ?_
  intro s e s' _ he
  exact ⟨e, Option.ite_none_right_eq_some.mp he⟩

end Follow

/-- What holds at first and is kept by every allowed event holds at the end of a run. -/
theorem Reaches.invariant {I : S → Prop}
    (hstep : ∀ s e s', I s → ok s e → step s e = some s' → I s')
    {s s' : S} (h : Reaches step ok s s') (h0 : I s) : I s' := by
  induction h with
  | refl => exact h0
  | tail _ hm ih =>
    obtain ⟨e, ho, he⟩ := hm
    exact hstep _ e _ ih ho he

end OCamlStudy.Program
