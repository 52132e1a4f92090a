import Mathlib.Data.Int.Order.Basic
import Mathlib.Order.SuccPred.Archimedean
import Mathlib.Tactic.SplitIfs

/-! # The order of dates

`is_before` compares year, month and day. The valid dates are ordered by the number of days that
precede them in a calendar whose months all have 31 days, and the day after a valid date is its
successor in that order.
-/

namespace OCamlStudy.DateProcessor

structure Date where
  month : ℤ
  day : ℤ
  year : ℤ
  deriving DecidableEq, Repr

def isBefore (d1 d2 : Date) : Bool :=
  if d1.year < d2.year then true
  else if d1.year > d2.year then false
  else if d1.month < d2.month then true
  else if d1.month > d2.month then false
  else d1.day < d2.day

/-- `mod` takes the sign of the year. -/
def isLeapYear (year : ℤ) : Bool :=
  (year.tmod 4 = 0 && year.tmod 100 ≠ 0) || year.tmod 400 = 0

def daysInMonth (month year : ℤ) : ℤ :=
  if month ∈ [1, 3, 5, 7, 8, 10, 12] then 31
  else if month ∈ [4, 6, 9, 11] then 30
  else if month = 2 then (if isLeapYear year then 29 else 28)
  else 0

def isValidDate (d : Date) : Bool :=
  d.month ≥ 1 && d.month ≤ 12 && d.day ≥ 1 && d.day ≤ daysInMonth d.month d.year

/-- The calendar day after a date. -/
def next (d : Date) : Date :=
  if d.day < daysInMonth d.month d.year then { d with day := d.day + 1 }
  else if d.month < 12 then { d with month := d.month + 1, day := 1 }
  else { month := 1, day := 1, year := d.year + 1 }

theorem daysInMonth_le (month year : ℤ) : daysInMonth month year ≤ 31 := by
  unfold daysInMonth
  split_ifs <;> decide

theorem daysInMonth_pos {month year : ℤ} (h1 : 1 ≤ month) (h12 : month ≤ 12) :
    1 ≤ daysInMonth month year := by
  unfold daysInMonth
  split_ifs with h31 h30 h2
  iterate 4 decide
  simp only [List.mem_cons, List.not_mem_nil, or_false] at h31 h30
  omega

theorem isValidDate_iff {d : Date} : isValidDate d = true ↔
    1 ≤ d.month ∧ d.month ≤ 12 ∧ 1 ≤ d.day ∧ d.day ≤ daysInMonth d.month d.year := by
  simp [isValidDate, and_assoc]

theorem isValidDate_next {d : Date} (h : isValidDate d = true) : isValidDate (next d) = true := by
  obtain ⟨hm1, hm12, hd1, hd⟩ := isValidDate_iff.mp h
  rw [isValidDate_iff, next]
  split_ifs with hday hmonth
  · exact ⟨hm1, hm12, Int.le_add_one hd1, hday⟩
  · exact ⟨Int.le_add_one hm1, hmonth, le_rfl, daysInMonth_pos (Int.le_add_one hm1) hmonth⟩
  · have hjanuary : (1 : ℤ) ≤ 12 := by decide
    exact ⟨le_rfl, hjanuary, le_rfl, daysInMonth_pos le_rfl hjanuary⟩

/-- The days before a date if every month had 31 days. -/
def dayNumber (d : Date) : ℤ := 372 * d.year + 31 * d.month + d.day

abbrev ValidDate := { d : Date // isValidDate d = true }

namespace ValidDate

theorem bounds (a : ValidDate) :
    1 ≤ a.1.month ∧ a.1.month ≤ 12 ∧ 1 ≤ a.1.day ∧ a.1.day ≤ 31 := by
  obtain ⟨hm1, hm12, hd1, hd⟩ := isValidDate_iff.mp a.2
  exact ⟨hm1, hm12, hd1, hd.trans (daysInMonth_le _ _)⟩

theorem dayNumber_injective : Function.Injective fun a : ValidDate => dayNumber a.1 := by
  intro a b h
  have ha := a.bounds
  have hb := b.bounds
  obtain ⟨⟨m, d, y⟩, hav⟩ := a
  obtain ⟨⟨m', d', y'⟩, hbv⟩ := b
  simp only [dayNumber] at h ha hb
  obtain rfl : y = y' := by omega
  obtain rfl : m = m' := by omega
  obtain rfl : d = d' := by omega
  rfl

instance : LinearOrder ValidDate := LinearOrder.lift' _ dayNumber_injective

theorem lt_iff {a b : ValidDate} : a < b ↔ dayNumber a.1 < dayNumber b.1 := Iff.rfl

theorem le_iff {a b : ValidDate} : a ≤ b ↔ dayNumber a.1 ≤ dayNumber b.1 := Iff.rfl

/-- **The order is the one that `is_before` decides.** -/
theorem isBefore_iff_lt {a b : ValidDate} : isBefore a.1 b.1 = true ↔ a < b := by
  have ha := a.bounds
  have hb := b.bounds
  rw [lt_iff, isBefore, dayNumber, dayNumber]
  split_ifs <;> simp <;> omega

def next (a : ValidDate) : ValidDate := ⟨DateProcessor.next a.1, isValidDate_next a.2⟩

@[simp] theorem next_val (a : ValidDate) : (next a).1 = DateProcessor.next a.1 := rfl

theorem next_le_iff {a b : ValidDate} : next a ≤ b ↔ a < b := by
  have ha := a.bounds
  have hb := b.bounds
  rw [le_iff, lt_iff, dayNumber, dayNumber, dayNumber, next_val, DateProcessor.next]
  split_ifs with hday hmonth
  · dsimp only
    omega
  all_goals
    -- `a` is the last day of its month.
    have hlast : b.1.year = a.1.year → b.1.month = a.1.month → b.1.day ≤ a.1.day := by
      intro hyear hmonth
      have hbd := (isValidDate_iff.mp b.2).2.2.2
      rw [hyear, hmonth] at hbd
      omega
    dsimp only
    omega

instance : SuccOrder ValidDate := SuccOrder.ofSuccLeIff next next_le_iff

theorem exists_next_iterate {a b : ValidDate} (h : a ≤ b) : ∃ n, next^[n] a = b := by
  generalize hgap : (dayNumber b.1 - dayNumber a.1).toNat = gap
  induction gap using Nat.strong_induction_on generalizing a with
  | _ gap ih =>
    obtain rfl | hlt := h.eq_or_lt
    · exact ⟨0, rfl⟩
    · have hnext : next a ≤ b := next_le_iff.mpr hlt
      have hstep : a < next a := next_le_iff.mp le_rfl
      rw [lt_iff] at hstep hlt
      obtain ⟨n, hn⟩ := ih _ (by omega) hnext rfl
      exact ⟨n + 1, hn⟩

instance : IsSuccArchimedean ValidDate := ⟨exists_next_iterate⟩

theorem next_iterate_val (n : ℕ) (a : ValidDate) : (next^[n] a).1 = DateProcessor.next^[n] a.1 := by
  induction n generalizing a with
  | zero => rfl
  | succ n ih => exact ih (next a)

theorem lt_iff_next_iterate {a b : ValidDate} :
    a < b ↔ ∃ n, DateProcessor.next^[n + 1] a.1 = b.1 := by
  rw [← next_le_iff, ← exists_succ_iterate_iff_le]
  apply exists_congr
  intro n
  rw [← next_iterate_val, Subtype.coe_inj]
  rfl

end ValidDate

/-- **`is_before` is chronological order**: it holds of two valid dates if the second is reached
from the first day by day, and any two valid dates are comparable in one way. -/
theorem isBefore_iff_next {d1 d2 : Date} (h1 : isValidDate d1 = true) (h2 : isValidDate d2 = true) :
    (isBefore d1 d2 = true ↔ ∃ n, next^[n + 1] d1 = d2) ∧
      (isBefore d1 d2 = true ∧ d1 ≠ d2 ∧ ¬ isBefore d2 d1 = true ∨
        ¬ isBefore d1 d2 = true ∧ d1 = d2 ∧ ¬ isBefore d2 d1 = true ∨
        ¬ isBefore d1 d2 = true ∧ d1 ≠ d2 ∧ isBefore d2 d1 = true) := by
  have hbefore := @ValidDate.isBefore_iff_lt ⟨d1, h1⟩ ⟨d2, h2⟩
  have hafter := @ValidDate.isBefore_iff_lt ⟨d2, h2⟩ ⟨d1, h1⟩
  refine ⟨hbefore.trans ValidDate.lt_iff_next_iterate, ?_⟩
  rw [hbefore, hafter]
  obtain hlt | heq | hgt := lt_trichotomy (⟨d1, h1⟩ : ValidDate) ⟨d2, h2⟩
  · exact .inl ⟨hlt, fun h => hlt.ne (Subtype.ext h), hlt.asymm⟩
  · exact .inr (.inl ⟨heq.not_lt, congrArg Subtype.val heq, heq.symm.not_lt⟩)
  · exact .inr (.inr ⟨hgt.asymm, fun h => hgt.ne (Subtype.ext h.symm), hgt⟩)

/-- Two days before the first of March of a leap year. -/
theorem isBefore_iff_next_leap :
    (isBefore ⟨2, 28, -400⟩ ⟨3, 1, -400⟩ = true ↔ ∃ n, next^[n + 1] ⟨2, 28, -400⟩ = ⟨3, 1, -400⟩) ∧
      next^[2] ⟨2, 28, -400⟩ = ⟨3, 1, -400⟩ :=
  ⟨(isBefore_iff_next rfl rfl).1, rfl⟩

end OCamlStudy.DateProcessor
