import Mathlib.Tactic

/-! # First in, first out

The history of a queue: what has entered, what has left, and what is still queued.
A queue that answers as the list of what is queued lets everything out in the order
in which it entered.
-/

namespace OCamlStudy.Fifo

variable {α : Type*}

/-- An operation on a queue. -/
inductive Op (α : Type*) where
  | enqueue (x : α)
  | dequeue
  deriving DecidableEq, Repr

/-- What the operations put into the queue, the oldest first. -/
def entered : List (Op α) → List α
  | [] => []
  | .enqueue x :: ops => x :: entered ops
  | .dequeue :: ops => entered ops

theorem entered_append (ops ops' : List (Op α)) :
    entered (ops ++ ops') = entered ops ++ entered ops' := by
  induction ops with
  | nil => rfl
  | cons op ops ih =>
    cases op with
    | enqueue x => exact congrArg (x :: ·) ih
    | dequeue => exact ih

structure State (Q α : Type*) where
  queue : Q
  left : List α

section Queue

variable {Q : Type*} (enqueue : α → Q → Q) (dequeue : Q → Option (α × Q))

/-- One operation; an empty queue is left as it is. -/
def step (s : State Q α) : Op α → State Q α
  | .enqueue x => { s with queue := enqueue x s.queue }
  | .dequeue =>
    match dequeue s.queue with
    | some (x, queue) => ⟨queue, s.left ++ [x]⟩
    | none => s

/-- The operations from an empty queue. -/
def run (empty : Q) (ops : List (Op α)) : State Q α := ops.foldl (step enqueue dequeue) ⟨empty, []⟩

variable {enqueue dequeue}

/-- A queue holds the elements of a list and answers as the list does. -/
structure Refines (enqueue : α → Q → Q) (dequeue : Q → Option (α × Q)) (holds : Q → List α → Prop) :
    Prop where
  enqueue : ∀ x q queued, holds q queued → holds (enqueue x q) (queued ++ [x])
  dequeue_nil : ∀ q, holds q [] → dequeue q = none
  dequeue_cons : ∀ q x queued, holds q (x :: queued) →
    ∃ q', dequeue q = some (x, q') ∧ holds q' queued

variable {holds : Q → List α → Prop} {empty : Q}

theorem run_concat (ops : List (Op α)) (op : Op α) :
    run enqueue dequeue empty (ops ++ [op]) =
      step enqueue dequeue (run enqueue dequeue empty ops) op := by
  rw [run, List.foldl_append]
  rfl

theorem Refines.run (h : Refines enqueue dequeue holds) (hempty : holds empty [])
    (ops : List (Op α)) : ∃ queued, holds (run enqueue dequeue empty ops).queue queued ∧
      entered ops = (run enqueue dequeue empty ops).left ++ queued := by
  induction ops using List.reverseRecOn with
  | nil => exact ⟨[], hempty, rfl⟩
  | append_singleton ops op ih =>
    obtain ⟨queued, hqueue, hentered⟩ := ih
    rw [run_concat, entered_append, hentered]
    cases op with
    | enqueue x => exact ⟨queued ++ [x], h.enqueue x _ _ hqueue, List.append_assoc _ _ _⟩
    | dequeue =>
      have hnone : entered [(.dequeue : Op α)] = [] := rfl
      rw [hnone, List.append_nil]
      cases queued with
      | nil =>
        refine ⟨[], ?_, ?_⟩
        · rwa [step, h.dequeue_nil _ hqueue]
        · rw [step, h.dequeue_nil _ hqueue]
      | cons x queued =>
        obtain ⟨q, hdequeue, hq⟩ := h.dequeue_cons _ _ _ hqueue
        refine ⟨queued, ?_, ?_⟩
        · rwa [step, hdequeue]
        · rw [step, hdequeue, List.append_assoc]
          rfl

def queued (enqueue : α → Q → Q) (dequeue : Q → Option (α × Q)) (empty : Q) (ops : List (Op α)) :
    List α := (entered ops).drop (run enqueue dequeue empty ops).left.length

theorem Refines.left_append_queued (h : Refines enqueue dequeue holds) (hempty : holds empty [])
    (ops : List (Op α)) :
    (Fifo.run enqueue dequeue empty ops).left ++ queued enqueue dequeue empty ops =
      entered ops := by
  obtain ⟨held, -, hentered⟩ := h.run hempty ops
  rw [queued, hentered, List.drop_left]

theorem Refines.holds_queued (h : Refines enqueue dequeue holds) (hempty : holds empty [])
    (ops : List (Op α)) :
    holds (Fifo.run enqueue dequeue empty ops).queue (queued enqueue dequeue empty ops) := by
  obtain ⟨held, hheld, hentered⟩ := h.run hempty ops
  rwa [queued, hentered, List.drop_left]

theorem Refines.run_drain (h : Refines enqueue dequeue holds) (hempty : holds empty [])
    (ops : List (Op α)) :
    (Fifo.run enqueue dequeue empty
      (ops ++ List.replicate (queued enqueue dequeue empty ops).length .dequeue)).left =
        entered ops := by
  have hdrain (l : List α) (s : State Q α) (hs : holds s.queue l) :
      ((List.replicate l.length .dequeue).foldl (step enqueue dequeue) s).left = s.left ++ l := by
    induction l generalizing s with
    | nil => exact (List.append_nil _).symm
    | cons x l ih =>
      obtain ⟨q, hdequeue, hq⟩ := h.dequeue_cons _ _ _ hs
      rw [List.length_cons, List.replicate_succ, List.foldl_cons, step, hdequeue, ih _ hq,
        List.append_assoc]
      rfl
  rw [Fifo.run, List.foldl_append]
  exact (hdrain _ _ (h.holds_queued hempty ops)).trans (h.left_append_queued hempty ops)

end Queue

end OCamlStudy.Fifo
