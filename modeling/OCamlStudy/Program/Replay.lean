import Mathlib.Data.List.Basic

/-! # Requests of several clients to one object

An object answers one request at a time. A log names the client of every request;
what a client sees is its own part of the log and of the replies.
-/

namespace OCamlStudy.Program

variable {ι α Q R S : Type}

/-- Perform the requests of a log in its order; the replies, and the object afterwards. -/
def replay (perform : S → Q → R × S) : S → List (ι × Q) → List (ι × R) × S
  | s, [] => ([], s)
  | s, p :: log =>
    let (r, s) := perform s p.2
    let (replies, s) := replay perform s log
    ((p.1, r) :: replies, s)

/-- The part of a log that belongs to one client. -/
def ofClient [DecidableEq ι] (i : ι) (log : List (ι × α)) : List α :=
  (log.filter fun p => p.1 = i).map Prod.snd

section OfClient

variable [DecidableEq ι] {i j : ι}

@[simp]
theorem ofClient_nil : ofClient i ([] : List (ι × α)) = [] := rfl

@[simp]
theorem ofClient_append (log log' : List (ι × α)) :
    ofClient i (log ++ log') = ofClient i log ++ ofClient i log' := by
  simp [ofClient]

@[simp]
theorem ofClient_self (a : α) : ofClient i [(i, a)] = [a] := by
  simp [ofClient]

theorem ofClient_ne (a : α) (h : j ≠ i) : ofClient i [(j, a)] = [] := by
  simp [ofClient, h]

theorem ofClient_eq_nil {log : List (ι × α)} (h : ∀ p ∈ log, p.1 ≠ i) : ofClient i log = [] := by
  rw [ofClient, List.filter_eq_nil_iff.mpr, List.map_nil]
  intro p hp
  simpa using h p hp

end OfClient

section Replay

variable {perform : S → Q → R × S}

theorem replay_append (s : S) (log log' : List (ι × Q)) :
    replay perform s (log ++ log') =
      ((replay perform s log).1 ++ (replay perform (replay perform s log).2 log').1,
        (replay perform (replay perform s log).2 log').2) := by
  induction log generalizing s with
  | nil => rfl
  | cons p log ih => simp only [List.cons_append, replay, ih]

theorem replay_clients (s : S) (log : List (ι × Q)) :
    (replay perform s log).1.map Prod.fst = log.map Prod.fst := by
  induction log generalizing s with
  | nil => rfl
  | cons p log ih => simp only [replay, List.map_cons, ih]

theorem replay_concat (s : S) (log : List (ι × Q)) (i : ι) (q : Q) :
    replay perform s (log ++ [(i, q)]) =
      ((replay perform s log).1 ++ [(i, (perform (replay perform s log).2 q).1)],
        (perform (replay perform s log).2 q).2) := by
  rw [replay_append]
  rfl

end Replay

end OCamlStudy.Program
