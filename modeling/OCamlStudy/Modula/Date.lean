import OCamlStudy.OCaml.Decimal

/-! # Dates packed into an integer

A date is packed as `y * 10000 + m * 100 + d` and taken apart by truncating division
and its remainder. These give the fields back exactly if the year is not negative;
the packed integer determines the fields in any case.
-/

namespace OCamlStudy.Modula.Date

open OCaml

def isValid (_y m d : ℤ) : Bool :=
  if m < 1 ∨ m > 12 ∨ d < 1 ∨ d > 31 then false
  else if m = 2 ∧ d > 29 then false
  else true

/-- `make`; every operation is truncated to an `int`. -/
def make (y m d : ℤ) : Option ℤ :=
  if isValid y m d then some (wrap63 (wrap63 (wrap63 (y * 10000) + wrap63 (m * 100)) + d))
  else none

def fields (t : ℤ) : ℤ × ℤ × ℤ :=
  let y := t.tdiv 10000
  let m := (t.tmod 10000).tdiv 100
  let d := t.tmod 100
  (y, m, d)

/-- A number in the format `%0nd`; the sign counts. -/
def zeroPadded (width : ℕ) (n : ℤ) : Bytes :=
  let sign := if n < 0 then bytes "-" else []
  let digits := decimal n.natAbs
  sign ++ List.replicate (width - sign.length - digits.length) 48 ++ digits

def toString (t : ℤ) : Bytes :=
  let (y, m, d) := fields t
  zeroPadded 4 y ++ bytes "-" ++ zeroPadded 2 m ++ bytes "-" ++ zeroPadded 2 d

/-- The years for which `y * 10000` does not overflow. -/
def Fits (y : ℤ) : Prop := -2 ^ 62 ≤ y * 10000 ∧ y * 10000 < 2 ^ 62

variable {y m d t : ℤ}

theorem isValid_bounds (h : isValid y m d = true) : 1 ≤ m ∧ m ≤ 12 ∧ 1 ≤ d ∧ d ≤ 31 := by
  unfold isValid at h
  split_ifs at h with hout
  omega

theorem make_eq_some (hfits : Fits y) (h : make y m d = some t) :
    t = y * 10000 + m * 100 + d ∧ 1 ≤ m ∧ m ≤ 12 ∧ 1 ≤ d ∧ d ≤ 31 := by
  unfold make at h
  split_ifs at h with hvalid
  obtain ⟨hm1, hm12, hd1, hd31⟩ := isValid_bounds hvalid
  obtain rfl := Option.some.inj h
  obtain ⟨hlo, hhi⟩ := hfits
  refine ⟨?_, hm1, hm12, hd1, hd31⟩
  have hmonth : wrap63 (m * 100) = m * 100 := wrap63_eq (by omega) (by omega)
  have hsum : wrap63 (y * 10000 + m * 100) = y * 10000 + m * 100 := wrap63_eq (by omega) (by omega)
  rw [wrap63_eq hlo hhi, hmonth, hsum]
  exact wrap63_eq (by omega) (by omega)

theorem fields_of_nonneg (h : 0 ≤ t) : fields t = (t / 10000, t % 10000 / 100, t % 100) := by
  have hrem : 0 ≤ t % 10000 := Int.emod_nonneg t (by decide)
  rw [fields, Int.tdiv_eq_ediv_of_nonneg h, Int.tmod_eq_emod_of_nonneg h,
    Int.tmod_eq_emod_of_nonneg h, Int.tdiv_eq_ediv_of_nonneg hrem]

theorem fields_day_of_neg (h : t < 0) : (fields t).2.2 ≤ 0 := by
  have hday := Int.tmod_nonneg 100 (show 0 ≤ -t by omega)
  rw [Int.neg_tmod] at hday
  exact Int.neg_nonneg.mp hday

/-- **The fields are given back exactly if the year is not negative**, and the packed date is that
of no other fields. -/
theorem fields_eq_iff (hfits : Fits y) (h : make y m d = some t) :
    (fields t = (y, m, d) ↔ 0 ≤ y) ∧
      ∀ y' m' d', Fits y' → make y' m' d' = some t → (y', m', d') = (y, m, d) := by
  obtain ⟨ht, hm1, hm12, hd1, hd31⟩ := make_eq_some hfits h
  constructor
  · constructor
    · intro hfields
      by_contra hy
      have hday := fields_day_of_neg (show t < 0 by omega)
      rw [hfields] at hday
      change d ≤ 0 at hday
      omega
    · intro hy
      have hyear : t / 10000 = y := by omega
      have hmonth : t % 10000 / 100 = m := by omega
      have hday : t % 100 = d := by omega
      rw [fields_of_nonneg (by omega), hyear, hmonth, hday]
  · intro y' m' d' hfits' h'
    obtain ⟨ht', hm1', hm12', hd1', hd31'⟩ := make_eq_some hfits' h'
    obtain rfl : y' = y := by omega
    obtain rfl : m' = m := by omega
    obtain rfl : d' = d := by omega
    rfl

/-- The last day of February. -/
theorem fields_eq_iff_leap : (fields 20240229 = (2024, 2, 29) ↔ (0 : ℤ) ≤ 2024) ∧
    ∀ y' m' d', Fits y' → make y' m' d' = some 20240229 → (y', m', d') = (2024, 2, 29) :=
  fields_eq_iff (by unfold Fits; decide) (by decide)

/-- The first day of the year before year zero is taken apart as `0000--98--99`. -/
theorem fields_ne_negative : make (-1) 1 1 = some (-9899) ∧ fields (-9899) ≠ (-1, 1, 1) ∧
    toString (-9899) = bytes "0000--98--99" :=
  ⟨by decide, by decide, by decide +kernel⟩

end OCamlStudy.Modula.Date
