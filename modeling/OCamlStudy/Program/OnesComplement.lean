import Mathlib.Data.Nat.ModEq
import Mathlib.Tactic

/-! # One's-complement sums

A sum of `w`-bit words is folded by adding what is carried out of the word back in,
until nothing is carried. Folding keeps the residue modulo `2 ^ w - 1`, so the sum
of anything with the complement of its fold folds to the word of ones.
-/

namespace OCamlStudy.OnesComplement

variable {w n : ℕ}

def carry (w n : ℕ) : ℕ := n / 2 ^ w + n % 2 ^ w

theorem carry_add (w n : ℕ) : n = carry w n + n / 2 ^ w * (2 ^ w - 1) := by
  have hdiv := Nat.div_add_mod n (2 ^ w)
  have hpos : 2 ^ w = 2 ^ w - 1 + 1 := (Nat.sub_add_cancel Nat.one_le_two_pow).symm
  calc
    n = 2 ^ w * (n / 2 ^ w) + n % 2 ^ w := hdiv.symm
    _ = (2 ^ w - 1 + 1) * (n / 2 ^ w) + n % 2 ^ w := by rw [← hpos]
    _ = carry w n + n / 2 ^ w * (2 ^ w - 1) := by rw [carry]; ring

theorem carry_lt (hw : 0 < w) (h : 2 ^ w ≤ n) : carry w n < n := by
  have hquot : 0 < n / 2 ^ w := Nat.div_pos h (by positivity)
  have hone : 0 < 2 ^ w - 1 := Nat.sub_pos_of_lt (Nat.one_lt_two_pow hw.ne')
  have hmul := Nat.mul_pos hquot hone
  have hadd := carry_add w n
  omega

def fold (w n : ℕ) : ℕ := if _ : w = 0 ∨ n < 2 ^ w then n else fold w (carry w n)
termination_by n
decreasing_by
  rename_i h
  rw [not_or, not_lt] at h
  exact carry_lt (Nat.pos_of_ne_zero h.1) h.2

theorem fold_of_lt (h : n < 2 ^ w) : fold w n = n := by
  rw [fold, dif_pos (.inr h)]

theorem fold_carry (w n : ℕ) : fold w (carry w n) = fold w n := by
  by_cases h : w = 0 ∨ n < 2 ^ w
  · have hcarry : carry w n = n := by
      rcases h with rfl | h
      · simp [carry, Nat.mod_one]
      · rw [carry, Nat.div_eq_of_lt h, Nat.mod_eq_of_lt h, Nat.zero_add]
    rw [hcarry]
  · rw [fold.eq_def w n, dif_neg h]

theorem carry_modEq (w n : ℕ) : carry w n ≡ n [MOD 2 ^ w - 1] := by
  have h := carry_add w n
  calc
    carry w n ≡ carry w n + n / 2 ^ w * (2 ^ w - 1) [MOD 2 ^ w - 1] := by simp [Nat.ModEq]
    _ = n := h.symm

theorem carry_pos (h : 0 < n) : 0 < carry w n := by
  have hdiv := Nat.div_add_mod n (2 ^ w)
  by_contra hc
  obtain ⟨hquot, hrem⟩ := Nat.add_eq_zero_iff.mp (Nat.eq_zero_of_not_pos hc)
  rw [hquot, hrem] at hdiv
  omega

theorem fold_lt (hw : 0 < w) (n : ℕ) : fold w n < 2 ^ w := by
  induction n using Nat.strong_induction_on with
  | h n ih =>
    rcases Nat.lt_or_ge n (2 ^ w) with h | h
    · rwa [fold_of_lt h]
    · rw [← fold_carry]
      exact ih _ (carry_lt hw h)

theorem fold_modEq (hw : 0 < w) (n : ℕ) : fold w n ≡ n [MOD 2 ^ w - 1] := by
  induction n using Nat.strong_induction_on with
  | h n ih =>
    rcases Nat.lt_or_ge n (2 ^ w) with h | h
    · rw [fold_of_lt h]
    · rw [← fold_carry]
      exact (ih _ (carry_lt hw h)).trans (carry_modEq w n)

theorem fold_pos (hw : 0 < w) (h : 0 < n) : 0 < fold w n := by
  induction n using Nat.strong_induction_on with
  | h n ih =>
    rcases Nat.lt_or_ge n (2 ^ w) with hlt | hge
    · rwa [fold_of_lt hlt]
    · rw [← fold_carry]
      exact ih _ (carry_lt hw hge) (carry_pos h)

theorem fold_eq_ones (hw : 0 < w) (hn : 0 < n) (h : 2 ^ w - 1 ∣ n) : fold w n = 2 ^ w - 1 := by
  have hlt := fold_lt hw n
  have hdvd : 2 ^ w - 1 ∣ fold w n := (fold_modEq hw n).dvd_iff dvd_rfl |>.mpr h
  exact le_antisymm (Nat.le_sub_one_of_lt hlt) (Nat.le_of_dvd (fold_pos hw hn) hdvd)

def complement (w n : ℕ) : ℕ := 2 ^ w - 1 - fold w n

theorem complement_lt (w n : ℕ) : complement w n < 2 ^ w := by
  have := Nat.one_le_two_pow (n := w)
  unfold complement
  omega

theorem fold_add_complement (hw : 0 < w) (n : ℕ) : fold w (n + complement w n) = 2 ^ w - 1 := by
  have hlt := fold_lt hw n
  have hones : 1 < 2 ^ w := Nat.one_lt_two_pow hw.ne'
  have hsum : fold w n + complement w n = 2 ^ w - 1 := by
    unfold complement
    omega
  refine fold_eq_ones hw ?_ ?_
  · rcases Nat.eq_zero_or_pos n with rfl | hn
    · rw [fold_of_lt (by positivity)] at hsum
      omega
    · omega
  · have hmod := (fold_modEq hw n).add_right (complement w n)
    rw [hsum] at hmod
    exact (Nat.modEq_zero_iff_dvd.mp (hmod.symm.trans (by simp [Nat.ModEq])))

/-- Two carries are enough for a sum of two words' width, and the second one is out of a
single bit, so it may be left in the sum that is cut to a word. -/
theorem fold_two_carries (hw : 0 < w) (h : n < 2 ^ w * 2 ^ w) :
    (carry w n + carry w n / 2 ^ w) % 2 ^ w = fold w n := by
  have hones : 1 < 2 ^ w := Nat.one_lt_two_pow hw.ne'
  have hquot : n / 2 ^ w < 2 ^ w := Nat.div_lt_of_lt_mul h
  have hrem : n % 2 ^ w < 2 ^ w := Nat.mod_lt n (by positivity)
  have hcarry : carry w n + 2 ≤ 2 * 2 ^ w := by
    unfold carry
    omega
  rw [← fold_carry]
  rcases Nat.lt_or_ge (carry w n) (2 ^ w) with hlt | hge
  · rw [Nat.div_eq_of_lt hlt, Nat.add_zero, Nat.mod_eq_of_lt hlt, fold_of_lt hlt]
  · have hone : carry w n / 2 ^ w = 1 := Nat.div_eq_of_lt_le (by omega) (by omega)
    have hmod : carry w n % 2 ^ w = carry w n - 2 ^ w := by
      rw [Nat.mod_eq_sub_mod hge, Nat.mod_eq_of_lt (by omega)]
    have hsecond : carry w (carry w n) = 1 + (carry w n - 2 ^ w) := by rw [carry, hone, hmod]
    rw [← fold_carry, hsecond, hone, fold_of_lt (by omega), Nat.mod_eq_sub_mod (by omega),
      Nat.mod_eq_of_lt (by omega)]
    omega

end OCamlStudy.OnesComplement
