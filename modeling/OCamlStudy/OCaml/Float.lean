import Mathlib.Algebra.Order.Round
import Mathlib.Data.Int.Log
import Mathlib.Data.List.DropRight
import Mathlib.Data.NNRat.Floor
import OCamlStudy.OCaml.Decimal

/-! # Floating-point numbers in text

`float_of_string` of a decimal literal rounds its value to a double, to nearest and
ties to even. `string_of_float` prints twelve significant digits as the conversion
`%.12g` does, with a final point if nothing else says that this is a float. No
literal denotes a NaN.
-/

namespace OCamlStudy.OCaml

/-- A double with its sign; the magnitude of a finite one is exact. -/
inductive Double where
  | finite (negative : Bool) (magnitude : ℚ≥0)
  | infinity (negative : Bool)
  deriving DecidableEq

/-- The nearest natural number, of two the even one. -/
def roundHalfEven (q : ℚ≥0) : ℕ :=
  let below := ⌊q⌋₊
  if q < below + 1 / 2 then below
  else if below + 1 / 2 < q then below + 1
  else if below % 2 = 0 then below
  else below + 1

/-- The nearest double: 53 bits, or as many as stand above `2 ^ (-1074)`. -/
def Double.round (negative : Bool) (q : ℚ≥0) : Double :=
  let exponent := max (Int.log 2 q - 52) (-1074)
  let magnitude : ℚ≥0 := roundHalfEven (q / 2 ^ exponent) * 2 ^ exponent
  if 2 ^ 1024 ≤ magnitude then .infinity negative else .finite negative magnitude

def isDigit (c : UInt8) : Bool := 48 ≤ c && c ≤ 57

def digitsValue (digits : Bytes) : ℕ := digits.foldl (fun n c => 10 * n + (c.toNat - 48)) 0

/-- The digits after a decimal point, if there is one, and what follows. -/
def parseFraction : Bytes → Bytes × Bytes
  | 46 :: s => s.span isDigit
  | s => ([], s)

def parseExponent : Bytes → Option ℤ
  | [] => some 0
  | c :: s =>
    if c = 101 ∨ c = 69 then
      let (negative, digits) := parseSign s
      if digits ≠ [] ∧ digits.all isDigit then
        some (if negative then -(digitsValue digits : ℤ) else digitsValue digits)
      else none
    else none

/-- `float_of_string_opt` of a decimal literal; a lexer of digits, points, signs and the letter
of the exponent passes no other. -/
def floatOfString (s : Bytes) : Option Double :=
  let (negative, s) := parseSign (s.filter (· ≠ 95))
  let (whole, s) := s.span isDigit
  let (fraction, s) := parseFraction s
  if whole = [] ∧ fraction = [] then none
  else (parseExponent s).map fun exponent =>
    Double.round negative
      ((digitsValue (whole ++ fraction) : ℚ≥0) * 10 ^ (exponent - (fraction.length : ℤ)))

/-- Twelve significant digits, and the power of ten of the first. -/
def significant (q : ℚ≥0) : ℕ × ℤ :=
  let exponent := Int.log 10 q
  let digits := roundHalfEven (q / 10 ^ (exponent - 11))
  if digits = 10 ^ 12 then (10 ^ 11, exponent + 1) else (digits, exponent)

def printFraction (digits : Bytes) : Bytes :=
  match digits.rdropWhile (· = 48) with
  | [] => []
  | fraction => 46 :: fraction

def printExponent (exponent : ℤ) : Bytes :=
  bytes "e" ++ (if exponent < 0 then bytes "-" else bytes "+") ++
    (if exponent.natAbs < 10 then bytes "0" else []) ++ decimal exponent.natAbs

def percentG12 (q : ℚ≥0) : Bytes :=
  if q = 0 then bytes "0"
  else
    let (number, exponent) := significant q
    let digits := decimal number
    if exponent < -4 ∨ 12 ≤ exponent then
      digits.take 1 ++ printFraction (digits.drop 1) ++ printExponent exponent
    else if exponent < 0 then
      bytes "0" ++ printFraction (List.replicate (-exponent - 1).toNat 48 ++ digits)
    else
      digits.take (exponent.toNat + 1) ++ printFraction (digits.drop (exponent.toNat + 1))

def validFloatLexem (s : Bytes) : Bytes :=
  if s.all fun c => isDigit c || c = 45 then s ++ bytes "." else s

def printSign (negative : Bool) : Bytes := if negative then bytes "-" else []

def stringOfFloat : Double → Bytes
  | .finite negative q => validFloatLexem (printSign negative ++ percentG12 q)
  | .infinity negative => validFloatLexem (printSign negative ++ bytes "inf")

theorem floor_le_roundHalfEven (q : ℚ≥0) : ⌊q⌋₊ ≤ roundHalfEven q := by
  unfold roundHalfEven
  dsimp only
  split_ifs <;> omega

theorem roundHalfEven_le_floor (q : ℚ≥0) : roundHalfEven q ≤ ⌊q⌋₊ + 1 := by
  unfold roundHalfEven
  dsimp only
  split_ifs <;> omega

theorem roundHalfEven_le_iff {q : ℚ≥0} {n : ℕ} (hn : n % 2 = 1) :
    roundHalfEven q ≤ n ↔ q < n + 1 / 2 := by
  rcases lt_trichotomy ⌊q⌋₊ n with hlt | heq | hgt
  · have hq : q < n := (Nat.floor_lt' (by omega)).mp hlt
    have hle := roundHalfEven_le_floor q
    exact iff_of_true (by omega) (hq.trans_le le_self_add)
  · rw [roundHalfEven, heq]
    split_ifs with hbelow habove heven
    · exact iff_of_true le_rfl hbelow
    · exact iff_of_false (by omega) hbelow
    · omega
    · exact iff_of_false (by omega) hbelow
  · have hq : (n + 1 : ℚ≥0) ≤ q := by
      exact_mod_cast (Nat.le_floor_iff' (by omega)).mp (Nat.succ_le_of_lt hgt)
    have hle := floor_le_roundHalfEven q
    refine iff_of_false (by omega) (not_lt.mpr (le_trans ?_ hq))
    gcongr
    norm_num

/-- Twelve digits do not fill the places before the point from here on. -/
def printLimit : ℚ≥0 := 999999999999 + 1 / 2

theorem significant_lt_iff {q : ℚ≥0} (hq : q ≠ 0) : (significant q).2 < 12 ↔ q < printLimit := by
  have hpos : 0 < q := pos_iff_ne_zero.mpr hq
  have hlog (n : ℤ) : q < 10 ^ n ↔ Int.log 10 q < n := by
    exact_mod_cast Int.lt_zpow_iff_log_lt (R := ℚ≥0) (by norm_num) hpos
  have hexponent : Int.log 10 q ≤ (significant q).2 ∧ (significant q).2 ≤ Int.log 10 q + 1 := by
    unfold significant
    dsimp only
    split_ifs <;> dsimp only <;> omega
  rcases lt_trichotomy (Int.log 10 q) 11 with hlt | heq | hgt
  · have hsmall : q < 10 ^ (11 : ℤ) := (hlog 11).mpr hlt
    refine iff_of_true (by omega) (hsmall.trans ?_)
    rw [printLimit]
    norm_num
  · have hdigits : q / 10 ^ (Int.log 10 q - 11) = q := by
      rw [heq]
      norm_num
    have hround := roundHalfEven_le_iff (q := q) (n := 999999999999) (by norm_num)
    have hfloor : ⌊q⌋₊ < 10 ^ 12 := by
      rw [Nat.floor_lt']
      · exact_mod_cast (hlog 12).mpr (by omega)
      · norm_num
    have hle := roundHalfEven_le_floor q
    have hlimit : printLimit = ((999999999999 : ℕ) : ℚ≥0) + 1 / 2 := by
      rw [printLimit]
      norm_num
    rw [hlimit, ← hround, significant, hdigits, heq]
    split_ifs with hpower
    · exact iff_of_false (by norm_num) (by omega)
    · exact iff_of_true (by norm_num) (by omega)
  · have hlarge : (10 : ℚ≥0) ^ (12 : ℤ) ≤ q := not_lt.mp fun h => by
      have := (hlog 12).mp h
      omega
    have hlimit : printLimit ≤ 10 ^ (12 : ℤ) := by decide +kernel
    exact iff_of_false (by omega) (not_lt.mpr (hlimit.trans hlarge))

/-- The text of a number without its sign that is read as one. -/
inductive IsLiteral : Bytes → Prop
  | mk {whole point exponent : Bytes} (hne : whole ≠ []) (hwhole : ∀ c ∈ whole, isDigit c = true)
      (hpoint : point = [] ∨ ∃ digits, (∀ c ∈ digits, isDigit c = true) ∧ point = 46 :: digits)
      (hexponent : exponent = [] ∨
        ∃ digits ≠ [], (∀ c ∈ digits, isDigit c = true) ∧ exponent = 101 :: 45 :: digits) :
      IsLiteral (whole ++ (point ++ exponent))

theorem isDigit_of_mem_decimal {n : ℕ} {c : UInt8} (h : c ∈ decimal n) : isDigit c = true := by
  obtain ⟨d, hd, rfl⟩ := mem_decimal h
  interval_cases d <;> rfl

theorem digit_of_isDigit {c : UInt8} (h : isDigit c = true) : ∃ d < 10, c = digit d := by
  simp only [isDigit, Bool.and_eq_true, decide_eq_true_eq, UInt8.le_iff_toNat_le,
    UInt8.reduceToNat] at h
  refine ⟨c.toNat - 48, by omega, UInt8.toNat_inj.mp ?_⟩
  rw [digit, Nat.add_sub_cancel' h.1, Nat.toUInt8_eq, UInt8.ofNat_toNat]

theorem decimal_ne_nil (n : ℕ) : decimal n ≠ [] := by
  obtain ⟨d, s, -, heq, -⟩ := decimal_cons n
  rw [heq]
  exact List.cons_ne_nil _ _

theorem printFraction_cases {digits : Bytes} (h : ∀ c ∈ digits, isDigit c = true) :
    printFraction digits = [] ∨
      ∃ fraction, (∀ c ∈ fraction, isDigit c = true) ∧ printFraction digits = 46 :: fraction := by
  unfold printFraction
  split
  · exact .inl rfl
  · refine .inr ⟨_, ?_, rfl⟩
    intro c hc
    exact h c ((List.rdropWhile_prefix _ digits).subset hc)

theorem printExponent_neg {exponent : ℤ} (h : exponent < 0) : ∃ digits ≠ [],
    (∀ c ∈ digits, isDigit c = true) ∧ printExponent exponent = 101 :: 45 :: digits := by
  refine ⟨(if exponent.natAbs < 10 then bytes "0" else []) ++ decimal exponent.natAbs, ?_, ?_, ?_⟩
  · simp [decimal_ne_nil]
  · intro c hc
    rcases List.mem_append.mp hc with hc | hc
    · split_ifs at hc
      · obtain rfl := List.mem_singleton.mp hc
        rfl
      · cases hc
    · exact isDigit_of_mem_decimal hc
  · rw [printExponent, if_pos h]
    simp [bytes]

/-- **A number below the limit is printed as a literal.** -/
theorem isLiteral_percentG12 {q : ℚ≥0} (h : q < printLimit) : IsLiteral (percentG12 q) := by
  unfold percentG12
  split_ifs with hq
  · have hzero : IsLiteral (bytes "0" ++ ([] ++ [])) :=
      .mk (by decide) (List.all_eq_true.mp rfl) (.inl rfl) (.inl rfl)
    exact hzero
  have hexponent := (significant_lt_iff hq).mpr h
  generalize significant q = p at hexponent
  obtain ⟨number, exponent⟩ := p
  have hdigits : ∀ c ∈ decimal number, isDigit c = true := fun c => isDigit_of_mem_decimal
  have hdrop (n : ℕ) : ∀ c ∈ (decimal number).drop n, isDigit c = true :=
    fun c hc => hdigits c (List.mem_of_mem_drop hc)
  have htake (n : ℕ) : (decimal number).take (n + 1) ≠ [] ∧
      ∀ c ∈ (decimal number).take (n + 1), isDigit c = true := by
    refine ⟨?_, fun c hc => hdigits c (List.mem_of_mem_take hc)⟩
    simp [decimal_ne_nil]
  dsimp only at hexponent ⊢
  split_ifs with hscientific hnegative
  · rw [List.append_assoc]
    exact .mk (htake 0).1 (htake 0).2 (printFraction_cases (hdrop 1))
      (.inr (printExponent_neg (by omega)))
  · have hzeros : ∀ c ∈ List.replicate (-exponent - 1).toNat 48 ++ decimal number,
        isDigit c = true := by
      intro c hc
      rcases List.mem_append.mp hc with hc | hc
      · obtain rfl := List.eq_of_mem_replicate hc
        rfl
      · exact hdigits c hc
    have hpoint := printFraction_cases hzeros
    have hliteral : IsLiteral (bytes "0" ++ (_ ++ [])) :=
      .mk (by decide) (List.all_eq_true.mp rfl) hpoint (.inl rfl)
    rwa [List.append_nil] at hliteral
  · have hliteral := IsLiteral.mk (htake exponent.toNat).1 (htake exponent.toNat).2
      (printFraction_cases (hdrop (exponent.toNat + 1))) (.inl rfl)
    rwa [List.append_nil] at hliteral

theorem percentG12_large {q : ℚ≥0} (h : printLimit ≤ q) : ∃ number exponent, 12 ≤ exponent ∧
    percentG12 q = (decimal number).take 1 ++ printFraction ((decimal number).drop 1) ++
      printExponent exponent := by
  have hq : q ≠ 0 := by
    rintro rfl
    exact absurd h (by decide +kernel)
  have hexponent := not_lt.mp (mt (significant_lt_iff hq).mp (not_lt.mpr h))
  refine ⟨(significant q).1, (significant q).2, hexponent, ?_⟩
  rw [percentG12, if_neg hq]
  dsimp only
  rw [if_pos (.inr hexponent)]

example : percentG12 999999999999 = bytes "999999999999" := by decide +kernel
example : percentG12 printLimit = bytes "1e+12" := by decide +kernel
example : percentG12 (1 / 100000) = bytes "1e-05" := by decide +kernel

theorem plus_mem_printExponent {exponent : ℤ} (h : 12 ≤ exponent) :
    43 ∈ printExponent exponent := by
  rw [printExponent, if_neg (by omega)]
  simp [bytes]

theorem IsLiteral.mem {s : Bytes} (h : IsLiteral s) {c : UInt8} (hc : c ∈ s) :
    isDigit c = true ∨ c = 46 ∨ c = 45 ∨ c = 101 := by
  obtain ⟨-, hwhole, hpoint, hexponent⟩ := h
  rcases List.mem_append.mp hc with hc | hc
  · exact .inl (hwhole c hc)
  rcases List.mem_append.mp hc with hc | hc
  · rcases hpoint with rfl | ⟨digits, hdigits, rfl⟩
    · cases hc
    · rcases List.mem_cons.mp hc with rfl | hc
      · exact .inr (.inl rfl)
      · exact .inl (hdigits c hc)
  · rcases hexponent with rfl | ⟨digits, -, hdigits, rfl⟩
    · cases hc
    · rcases List.mem_cons.mp hc with rfl | hc
      · exact .inr (.inr (.inr rfl))
      rcases List.mem_cons.mp hc with rfl | hc
      · exact .inr (.inr (.inl rfl))
      · exact .inl (hdigits c hc)

theorem IsLiteral.cons {s : Bytes} (h : IsLiteral s) : ∃ c t, s = c :: t ∧ isDigit c = true := by
  obtain ⟨hne, hwhole, -, -⟩ := h
  obtain ⟨c, t, rfl⟩ := List.exists_cons_of_ne_nil hne
  exact ⟨c, _, rfl, hwhole c List.mem_cons_self⟩

theorem span_isDigit {s t : Bytes} (hs : ∀ c ∈ s, isDigit c = true)
    (ht : ∀ c, t.head? = some c → isDigit c = false) : (s ++ t).span isDigit = (s, t) := by
  rw [List.span_eq_takeWhile_dropWhile, List.takeWhile_append_of_pos hs,
    List.dropWhile_append_of_pos hs]
  cases t with
  | nil => rw [List.takeWhile_nil, List.dropWhile_nil, List.append_nil]
  | cons c t =>
    have hc : ¬ isDigit c = true := Bool.eq_false_iff.mp (ht c rfl)
    rw [List.takeWhile_cons_of_neg hc, List.dropWhile_cons_of_neg hc, List.append_nil]

theorem parseSign_printSign {s : Bytes} (h : IsLiteral s) (negative : Bool) :
    parseSign (printSign negative ++ s) = (negative, s) := by
  obtain ⟨c, t, rfl, hc⟩ := h.cons
  cases negative with
  | false =>
    change parseSign (c :: t) = _
    unfold parseSign
    split
    · rename_i heq
      cases heq
      cases hc
    · rename_i heq
      cases heq
      cases hc
    · rfl
  | true => rfl

theorem parseExponent_literal {exponent : Bytes} (h : exponent = [] ∨
    ∃ digits ≠ [], (∀ c ∈ digits, isDigit c = true) ∧ exponent = 101 :: 45 :: digits) :
    (∀ c, exponent.head? = some c → isDigit c = false) ∧
      (∃ e, parseExponent exponent = some e) ∧ parseFraction exponent = ([], exponent) := by
  rcases h with rfl | ⟨digits, hdigits, hall, rfl⟩
  · refine ⟨?_, ⟨0, rfl⟩, rfl⟩
    rintro c hc
    cases hc
  · refine ⟨?_, ⟨-(digitsValue digits : ℤ), ?_⟩, rfl⟩
    · rintro c hc
      obtain rfl := Option.some.inj hc
      rfl
    · have hsign : parseSign (45 :: digits) = (true, digits) := rfl
      rw [parseExponent, if_pos (.inl rfl), hsign]
      dsimp only
      rw [if_pos ⟨hdigits, List.all_eq_true.mpr hall⟩]
      rfl

theorem parseFraction_literal {point exponent : Bytes}
    (h : point = [] ∨ ∃ digits, (∀ c ∈ digits, isDigit c = true) ∧ point = 46 :: digits)
    (hhead : ∀ c, exponent.head? = some c → isDigit c = false)
    (hfraction : parseFraction exponent = ([], exponent)) :
    (∀ c, (point ++ exponent).head? = some c → isDigit c = false) ∧
      ∃ fraction, parseFraction (point ++ exponent) = (fraction, exponent) := by
  rcases h with rfl | ⟨digits, hall, rfl⟩
  · exact ⟨hhead, [], hfraction⟩
  · refine ⟨?_, digits, span_isDigit hall hhead⟩
    rintro c hc
    obtain rfl := Option.some.inj hc
    rfl

/-- **A literal is read as a number.** -/
theorem floatOfString_literal {s : Bytes} (h : IsLiteral s) (negative : Bool) :
    ∃ f, floatOfString (printSign negative ++ s) = some f := by
  have hfilter : (printSign negative ++ s).filter (· ≠ 95) = printSign negative ++ s := by
    rw [List.filter_eq_self]
    intro c hc
    rw [decide_eq_true_eq]
    rintro rfl
    rcases List.mem_append.mp hc with hc | hc
    · cases negative <;> simp [printSign, bytes] at hc
    · simpa [isDigit] using h.mem hc
  rw [floatOfString, hfilter, parseSign_printSign h]
  dsimp only
  obtain @⟨whole, point, exponent, hne, hwhole, hpoint, hexponent⟩ := h
  obtain ⟨hhead, ⟨e, he⟩, hfraction⟩ := parseExponent_literal hexponent
  obtain ⟨hhead', fraction, hfraction'⟩ := parseFraction_literal hpoint hhead hfraction
  rw [span_isDigit hwhole hhead']
  dsimp only
  rw [hfraction']
  dsimp only
  rw [if_neg (fun hempty => hne hempty.1), he]
  exact ⟨_, rfl⟩

example : floatOfString (bytes "0.1") =
    some (.finite false (3602879701896397 / 36028797018963968)) := by decide +kernel
example : floatOfString (bytes "1e") = none := by decide +kernel

theorem validFloatLexem_literal {s : Bytes} (h : IsLiteral s) (negative : Bool) :
    ∃ t, validFloatLexem (printSign negative ++ s) = printSign negative ++ t ∧ IsLiteral t ∧
      (46 ∈ t ∨ 101 ∈ t) := by
  rw [validFloatLexem]
  split_ifs with hall
  · refine ⟨s ++ bytes ".", List.append_assoc _ _ _, ?_, .inl (by simp [bytes])⟩
    obtain @⟨whole, point, exponent, hne, hwhole, hpoint, hexponent⟩ := h
    have hnone (c : UInt8) (hc : c ∈ point ++ exponent) : isDigit c = true ∨ c = 45 := by
      have hmem := List.all_eq_true.mp hall c
      simpa using hmem (List.mem_append_right _ (List.mem_append_right _ hc))
    have hpoint' : point = [] := by
      rcases hpoint with hpoint | ⟨digits, -, rfl⟩
      · exact hpoint
      · exact absurd (hnone 46 List.mem_cons_self) (by decide)
    have hexponent' : exponent = [] := by
      rcases hexponent with hexponent | ⟨digits, -, -, rfl⟩
      · exact hexponent
      · exact absurd (hnone 101 (List.mem_append_right _ List.mem_cons_self)) (by decide)
    subst hpoint' hexponent'
    have htext : whole ++ ([] ++ []) ++ bytes "." = whole ++ ([46] ++ []) := by simp [bytes]
    rw [htext]
    exact .mk hne hwhole (.inr ⟨[], List.forall_mem_nil _, rfl⟩) (.inl rfl)
  · refine ⟨s, rfl, h, ?_⟩
    simp only [List.all_eq_true, not_forall, Bool.or_eq_true, decide_eq_true_eq, not_or] at hall
    obtain ⟨c, hc, hdigit, hminus⟩ := hall
    rcases List.mem_append.mp hc with hc | hc
    · cases negative <;> simp [printSign, bytes, hminus] at hc
    · rcases h.mem hc with hc' | rfl | hc' | rfl
      · exact absurd hc' hdigit
      · exact .inl hc
      · exact absurd hc' hminus
      · exact .inr hc

/-- A finite number whose text has no exponent, or a negative one. -/
def Double.Plain : Double → Prop
  | .finite _ q => q < printLimit
  | .infinity _ => False

theorem stringOfFloat_plain {f : Double} (h : f.Plain) :
    ∃ negative s, stringOfFloat f = printSign negative ++ s ∧ IsLiteral s ∧ (46 ∈ s ∨ 101 ∈ s) := by
  cases f with
  | finite negative q => exact ⟨negative, validFloatLexem_literal (isLiteral_percentG12 h) negative⟩
  | infinity negative => exact absurd h id

theorem parseDigits_eq_none {base : ℕ} {s : Bytes} {c : UInt8} (hc : c ∈ s) (h95 : c ≠ 95)
    (hdigit : digitIn base c = none) (res : ℕ) : parseDigits base res s = none := by
  induction s generalizing res with
  | nil => cases hc
  | cons x s ih =>
    unfold parseDigits
    split_ifs with hx
    · subst hx
      exact ih ((List.mem_cons.mp hc).resolve_left h95) res
    · split
      · rename_i d hd
        refine ih ((List.mem_cons.mp hc).resolve_left ?_) _
        rintro rfl
        rw [hdigit] at hd
        cases hd
      · rfl

theorem intOfString_literal {s : Bytes} (h : IsLiteral s) (hfloat : 46 ∈ s ∨ 101 ∈ s)
    (negative : Bool) : intOfString (printSign negative ++ s) = none := by
  obtain ⟨c, t, rfl, hc⟩ := h.cons
  have hbase : parseBase (c :: t) = (10, true, c :: t) := by
    unfold parseBase
    split
    · rename_i x t' heq
      obtain ⟨rfl, rfl⟩ := List.cons.inj heq
      have hx := h.mem (List.mem_cons_of_mem _ List.mem_cons_self)
      have hletter : ∀ y ∈ bytes "xXoObBuU", x ≠ y := by
        rintro y hy rfl
        simp only [bytes, String.reduceToList, List.map_cons, List.map_nil, List.mem_cons,
          List.not_mem_nil, or_false] at hy
        rcases hy with rfl | rfl | rfl | rfl | rfl | rfl | rfl | rfl <;> revert hx <;> decide
      rw [if_neg, if_neg, if_neg, if_neg]
      · exact not_or.mpr ⟨hletter 117 (by decide), hletter 85 (by decide)⟩
      · exact not_or.mpr ⟨hletter 98 (by decide), hletter 66 (by decide)⟩
      · exact not_or.mpr ⟨hletter 111 (by decide), hletter 79 (by decide)⟩
      · exact not_or.mpr ⟨hletter 120 (by decide), hletter 88 (by decide)⟩
    · rfl
  have htail : 46 ∈ t ∨ 101 ∈ t := by
    refine hfloat.imp (fun hmem => ?_) fun hmem => ?_
    all_goals
      refine (List.mem_cons.mp hmem).resolve_left ?_
      rintro rfl
      cases hc
  have hdigits (d : ℕ) : parseDigits 10 d t = none := by
    rcases htail with hmem | hmem
    · exact parseDigits_eq_none hmem (by decide) (by decide) d
    · exact parseDigits_eq_none hmem (by decide) (by decide) d
  rw [intOfString, parseSign_printSign h]
  dsimp only
  rw [hbase]
  dsimp only
  cases digitIn 10 c with
  | none => rfl
  | some d =>
    dsimp only
    rw [hdigits]

theorem mem_validFloatLexem {s : Bytes} {c : UInt8} :
    (c ∈ s → c ∈ validFloatLexem s) ∧ (c ∈ validFloatLexem s → c ∈ s ∨ c = 46) := by
  unfold validFloatLexem
  split_ifs
  · exact ⟨List.mem_append_left _, fun h => (List.mem_append.mp h).imp id List.mem_singleton.mp⟩
  · exact ⟨id, .inl⟩

theorem mem_stringOfFloat {f : Double} (h : ¬ f.Plain) :
    43 ∈ stringOfFloat f ∨ 105 ∈ stringOfFloat f := by
  cases f with
  | finite negative q =>
    left
    obtain ⟨number, exponent, hexponent, htext⟩ := percentG12_large (not_lt.mp h)
    refine mem_validFloatLexem.1 (List.mem_append_right _ ?_)
    rw [htext]
    exact List.mem_append_right _ (plus_mem_printExponent hexponent)
  | infinity negative =>
    right
    exact mem_validFloatLexem.1 (List.mem_append_right _ (by decide))

theorem quote_not_mem_decimal (n : ℕ) : 34 ∉ decimal n := by
  intro h
  cases isDigit_of_mem_decimal h

theorem quote_not_mem_percentG12 (q : ℚ≥0) : 34 ∉ percentG12 q := by
  rcases lt_or_ge q printLimit with h | h
  · intro hmem
    simpa [isDigit] using (isLiteral_percentG12 h).mem hmem
  · obtain ⟨number, exponent, hexponent, htext⟩ := percentG12_large h
    have hdigits : ∀ c ∈ (decimal number).drop 1, isDigit c = true :=
      fun c hc => isDigit_of_mem_decimal (List.mem_of_mem_drop hc)
    have hwhole : 34 ∉ (decimal number).take 1 :=
      fun hmem => quote_not_mem_decimal number (List.mem_of_mem_take hmem)
    have hfraction : 34 ∉ printFraction ((decimal number).drop 1) := by
      rcases printFraction_cases hdigits with heq | ⟨fraction, hall, heq⟩
      · rw [heq]
        exact List.not_mem_nil
      · rw [heq, List.mem_cons, not_or]
        exact ⟨by decide, fun hmem => absurd (hall 34 hmem) (by decide)⟩
    have hprinted : 34 ∉ printExponent exponent := by
      rw [printExponent, if_neg (by omega), if_neg (by omega)]
      simp [bytes, quote_not_mem_decimal]
    rw [htext, List.mem_append, List.mem_append, not_or, not_or]
    exact ⟨⟨hwhole, hfraction⟩, hprinted⟩

theorem quote_not_mem_stringOfFloat (f : Double) : 34 ∉ stringOfFloat f := by
  have hsign (negative : Bool) : 34 ∉ printSign negative := by
    cases negative <;> decide
  have hfloat : ∀ s : Bytes, 34 ∉ s → 34 ∉ validFloatLexem s :=
    fun s hs hmem => (mem_validFloatLexem.2 hmem).elim hs (by decide)
  cases f with
  | finite negative q =>
    refine hfloat _ ?_
    rw [List.mem_append, not_or]
    exact ⟨hsign negative, quote_not_mem_percentG12 q⟩
  | infinity negative =>
    refine hfloat _ ?_
    rw [List.mem_append, not_or]
    exact ⟨hsign negative, by decide⟩

end OCamlStudy.OCaml
