import Mathlib.Data.BitVec
import Mathlib.Data.Matrix.Mul
import OCamlStudy.OCaml.Array
import OCamlStudy.OCaml.Decimal

/-! # Matrices over a ring

`MatrixRing` multiplies arrays of arrays with three nested loops. Over a lawful ring
the arrays of `n` rows of length `n` compute the matrix ring of size `n`.
-/

namespace OCamlStudy.Modula

open OCaml Loop

structure Ring where
  t : Type
  zero : t
  add : t → t → Raises t
  mul : t → t → Raises t
  toString : t → Bytes

namespace MakeMath

def square (R : Ring) (x : R.t) : Raises R.t := R.mul x x

end MakeMath

/-- `int` is the ring of 63-bit words. -/
abbrev IntRing : Ring where
  t := BitVec 63
  zero := 0
  add := fun a b => .ok (a + b)
  mul := fun a b => .ok (a * b)
  toString := fun a => stringOfInt a.toInt

namespace MatrixRing

variable (R : Ring)

def add (m1 m2 : Array (Array R.t)) : Raises (Array (Array R.t)) := do
  let rows := m1.size
  let cols := (← arrayGet m1 0).size
  let res := makeMatrix rows cols R.zero
  forUpTo rows (fun i => forUpTo cols fun j res => do
    let x ← R.add (← matrixGet m1 i j) (← matrixGet m2 i j)
    matrixSet res i j x) res

def mul (m1 m2 : Array (Array R.t)) : Raises (Array (Array R.t)) :=
  let n := m1.size
  let res := makeMatrix n n R.zero
  forUpTo n (fun i => forUpTo n fun j res => do
    let sum ← forUpTo n (fun k sum => do
      R.add sum (← R.mul (← matrixGet m1 i k) (← matrixGet m2 k j))) R.zero
    matrixSet res i j sum) res

end MatrixRing

abbrev MatrixRing (R : Ring) : Ring where
  t := Array (Array R.t)
  zero := makeMatrix 2 2 R.zero
  add := MatrixRing.add R
  mul := MatrixRing.mul R
  toString := fun _ => bytes "Matrix..."

/-- The implementation satisfies the ring axioms: its operations return, and are those of a ring.
A unit and negatives are not needed. -/
structure Ring.Lawful (R : Ring) [NonUnitalSemiring R.t] : Prop where
  zero : R.zero = 0
  add : ∀ a b, R.add a b = .ok (a + b)
  mul : ∀ a b, R.mul a b = .ok (a * b)

theorem IntRing.lawful : IntRing.Lawful := ⟨rfl, fun _ _ => rfl, fun _ _ => rfl⟩

namespace MatrixRing

variable {R : Ring} [NonUnitalSemiring R.t] {n : ℕ}

def ofMatrix (A : Matrix (Fin n) (Fin n) R.t) : Array (Array R.t) := ofEntries fun i j => A i j

theorem add_ofMatrix (hR : R.Lawful) (hn : 1 ≤ n) (A B : Matrix (Fin n) (Fin n) R.t) :
    add R (ofMatrix A) (ofMatrix B) = .ok (ofMatrix (A + B)) := by
  have hrow : arrayGet (ofMatrix A) 0 = .ok (Array.ofFn fun j => A ⟨0, hn⟩ j) :=
    arrayGet_ofEntries (⟨0, hn⟩ : Fin n)
  rw [add, hrow, Raises.ok_bind]
  dsimp only
  rw [Array.size_ofFn, ofMatrix, size_ofEntries, makeMatrix_eq]
  refine forUpTo_fill fun i j res => ?_
  rw [matrixGet_ofEntries, ofMatrix, matrixGet_ofEntries, Raises.ok_bind, Raises.ok_bind, hR.add]
  rfl

theorem sum_ofMatrix (hR : R.Lawful) (A B : Matrix (Fin n) (Fin n) R.t) (i j : Fin n) :
    forUpTo n (fun k sum => do
      R.add sum (← R.mul (← matrixGet (ofMatrix A) i k) (← matrixGet (ofMatrix B) k j))) R.zero =
      .ok ((A * B) i j) := by
  rw [hR.zero, Matrix.mul_apply]
  refine forUpTo_sum fun k sum => ?_
  rw [ofMatrix, ofMatrix, matrixGet_ofEntries, matrixGet_ofEntries, Raises.ok_bind, Raises.ok_bind,
    hR.mul, Raises.ok_bind, hR.add]

theorem mul_ofMatrix (hR : R.Lawful) (A B : Matrix (Fin n) (Fin n) R.t) :
    mul R (ofMatrix A) (ofMatrix B) = .ok (ofMatrix (A * B)) := by
  have hsize : (ofMatrix A).size = n := size_ofEntries
  rw [mul, hsize, makeMatrix_eq]
  refine forUpTo_fill fun i j res => ?_
  rw [sum_ofMatrix hR, Raises.ok_bind]

def IsMatrix (n : ℕ) (m : Array (Array R.t)) : Prop := m.size = n ∧ ∀ row ∈ m, row.size = n

omit [NonUnitalSemiring R.t] in
theorem IsMatrix.exists_ofMatrix {m : Array (Array R.t)} (h : IsMatrix n m) :
    ∃ A : Matrix (Fin n) (Fin n) R.t, m = ofMatrix A := by
  obtain ⟨A, rfl⟩ := exists_ofEntries h.1 h.2
  exact ⟨Matrix.of A, rfl⟩

/-- **Multiplication is associative and distributes over addition**, at every size. The operations
are those of the matrix ring, and so is the square. -/
theorem mul_assoc_and_distrib (hR : R.Lawful) (hn : 1 ≤ n) {a b c : Array (Array R.t)}
    (ha : IsMatrix n a) (hb : IsMatrix n b) (hc : IsMatrix n c) :
    (∃ m, (do mul R (← mul R a b) c) = .ok m ∧
      (do mul R a (← mul R b c)) = .ok m) ∧
    (∃ m, (do mul R a (← add R b c)) = .ok m ∧
      (do add R (← mul R a b) (← mul R a c)) = .ok m) ∧
    (∃ m, (do mul R (← add R a b) c) = .ok m ∧
      (do add R (← mul R a c) (← mul R b c)) = .ok m) ∧
    ∃ A B : Matrix (Fin n) (Fin n) R.t, a = ofMatrix A ∧ b = ofMatrix B ∧
      add R a b = .ok (ofMatrix (A + B)) ∧ mul R a b = .ok (ofMatrix (A * B)) ∧
      MakeMath.square (MatrixRing R) a = .ok (ofMatrix (A * A)) := by
  obtain ⟨A, rfl⟩ := ha.exists_ofMatrix
  obtain ⟨B, rfl⟩ := hb.exists_ofMatrix
  obtain ⟨C, rfl⟩ := hc.exists_ofMatrix
  simp only [mul_ofMatrix hR, add_ofMatrix hR hn, Raises.ok_bind]
  refine ⟨⟨_, rfl, ?_⟩, ⟨_, rfl, ?_⟩, ⟨_, rfl, ?_⟩, A, B, rfl, rfl, rfl, rfl, mul_ofMatrix hR A A⟩
  · rw [Matrix.mul_assoc]
  · rw [Matrix.mul_add]
  · rw [Matrix.add_mul]

/-- Two integer matrices that do not commute. -/
theorem mul_assoc_and_distrib_int :
    (∃ m,
      (do mul IntRing (← mul IntRing #[#[1, 1], #[0, 1]] #[#[0, 1], #[1, 0]]) #[#[1, 1], #[0, 1]])
        = .ok m ∧
      (do mul IntRing #[#[1, 1], #[0, 1]] (← mul IntRing #[#[0, 1], #[1, 0]] #[#[1, 1], #[0, 1]]))
        = .ok m) ∧
    mul IntRing #[#[1, 1], #[0, 1]] #[#[0, 1], #[1, 0]] ≠
      mul IntRing #[#[0, 1], #[1, 0]] #[#[1, 1], #[0, 1]] := by
  have hshear : IsMatrix (R := IntRing) 2 #[#[1, 1], #[0, 1]] := ⟨rfl, by decide⟩
  have hflip : IsMatrix (R := IntRing) 2 #[#[0, 1], #[1, 0]] := ⟨rfl, by decide⟩
  exact ⟨(mul_assoc_and_distrib IntRing.lawful (by decide) hshear hflip hshear).1, by decide⟩

end MatrixRing

end OCamlStudy.Modula
