import OCamlStudy.Program.Fifo

/-! # The queue of two lists

The front of the queue is in order and the back is reversed. `norm` keeps the front
from running out before the back, so that `peek` and `dequeue` need the front only.
-/

namespace OCamlStudy.Modula.Queue

open Fifo (Op entered)

variable {α : Type*}

abbrev T (α : Type*) := List α × List α

def norm : T α → T α
  | ([], back) => (back.reverse, [])
  | q => q

def empty : T α := ([], [])

def isEmpty : T α → Bool
  | ([], []) => true
  | _ => false

def enqueue (x : α) : T α → T α
  | (front, back) => norm (front, x :: back)

def peek : T α → Option α
  | (x :: _, _) => some x
  | ([], _) => none

def dequeue : T α → Option (α × T α)
  | ([], _) => none
  | (x :: xs, back) => some (x, norm (xs, back))

/-- The front runs out last. -/
def Normal (q : T α) : Prop := q.1 = [] → q.2 = []

/-- A normal queue with the elements of a list, the oldest first. -/
structure Holds (q : T α) (queued : List α) : Prop where
  normal : Normal q
  elements : q.1 ++ q.2.reverse = queued

theorem norm_holds (front back : List α) : Holds (norm (front, back)) (front ++ back.reverse) := by
  cases front with
  | nil => exact ⟨fun _ => rfl, List.append_nil _⟩
  | cons x front => exact ⟨fun h => absurd h (List.cons_ne_nil _ _), rfl⟩

/-- A queue answers as the list of its elements. -/
theorem refines : Fifo.Refines (α := α) enqueue dequeue Holds where
  enqueue := by
    rintro x ⟨front, back⟩ queued ⟨-, rfl⟩
    have h := norm_holds front (x :: back)
    rwa [List.reverse_cons, ← List.append_assoc] at h
  dequeue_nil := by
    rintro ⟨front, back⟩ ⟨-, hnil⟩
    obtain ⟨rfl, -⟩ := List.append_eq_nil_iff.mp hnil
    rfl
  dequeue_cons := by
    rintro ⟨front, back⟩ x queued ⟨hnormal, hcons⟩
    cases front with
    | nil =>
      obtain rfl : back = [] := hnormal rfl
      cases hcons
    | cons y front =>
      cases hcons
      exact ⟨norm (front, back), rfl, norm_holds front back⟩

theorem empty_holds : Holds (empty : T α) [] := ⟨fun _ => rfl, rfl⟩

variable {q : T α} {queued : List α}

theorem Holds.isEmpty_iff (h : Holds q queued) : isEmpty q = true ↔ queued = [] := by
  obtain ⟨front, back⟩ := q
  obtain ⟨hnormal, rfl⟩ := h
  cases front with
  | nil =>
    obtain rfl : back = [] := hnormal rfl
    exact iff_of_true rfl rfl
  | cons x front => exact iff_of_false Bool.false_ne_true (List.cons_ne_nil _ _)

theorem Holds.peek_eq (h : Holds q queued) : peek q = queued.head? := by
  obtain ⟨front, back⟩ := q
  obtain ⟨hnormal, rfl⟩ := h
  cases front with
  | nil =>
    obtain rfl : back = [] := hnormal rfl
    rfl
  | cons x front => rfl

theorem Holds.dequeue_eq (h : Holds q queued) : (dequeue q).map Prod.fst = queued.head? := by
  rw [← h.peek_eq]
  obtain ⟨front, back⟩ := q
  cases front <;> rfl

/-- The queue after the operations, and what they have let out. -/
def run (ops : List (Op α)) : Fifo.State (T α) α := Fifo.run enqueue dequeue empty ops

def queuedAfter (ops : List (Op α)) : List α := (entered ops).drop (run ops).left.length

/-- **First in, first out**, after every sequence of operations from the empty queue. -/
theorem fifo (ops : List (Op α)) :
    Normal (run ops).queue ∧
      (isEmpty (run ops).queue = true ↔ queuedAfter ops = []) ∧
      peek (run ops).queue = (queuedAfter ops).head? ∧
      (dequeue (run ops).queue).map Prod.fst = (queuedAfter ops).head? ∧
      (run ops).left ++ queuedAfter ops = entered ops ∧
      (run (ops ++ List.replicate (queuedAfter ops).length .dequeue)).left = entered ops := by
  have h : Holds (run ops).queue (queuedAfter ops) := refines.holds_queued empty_holds ops
  exact ⟨h.normal, h.isEmpty_iff, h.peek_eq, h.dequeue_eq,
    refines.left_append_queued empty_holds ops, refines.run_drain empty_holds ops⟩

example : run [.enqueue 1, .enqueue 2, .dequeue, .enqueue 3] = ⟨([2], [3]), [1]⟩ := rfl

end OCamlStudy.Modula.Queue
