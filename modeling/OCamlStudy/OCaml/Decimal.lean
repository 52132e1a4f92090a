import OCamlStudy.OCaml.Basic

/-! # Integers in text

`int_of_string` and `string_of_int` of a 64-bit runtime. The parser reads a sign,
a base prefix and digits with underscores; a decimal literal must lie in the
signed 63-bit range, a prefixed one below `2 ^ 63`, and is then truncated.
Printing and parsing an `int` gives it back.
-/

namespace OCamlStudy.OCaml

def parseDigit (c : UInt8) : Option ℕ :=
  if 48 ≤ c ∧ c ≤ 57 then some (c.toNat - 48)
  else if 65 ≤ c ∧ c ≤ 70 then some (c.toNat - 55)
  else if 97 ≤ c ∧ c ≤ 102 then some (c.toNat - 87)
  else none

def digitIn (base : ℕ) (c : UInt8) : Option ℕ :=
  (parseDigit c).filter (· < base)

/-- Continue a number by digits, skipping underscores. -/
def parseDigits (base : ℕ) : ℕ → Bytes → Option ℕ
  | res, [] => some res
  | res, c :: s =>
    if c = 95 then parseDigits base res s
    else
      match digitIn base c with
      | some d => parseDigits base (base * res + d) s
      | none => none

def parseSign : Bytes → Bool × Bytes
  | 45 :: s => (true, s)
  | 43 :: s => (false, s)
  | s => (false, s)

/-- The base of a literal, whether its range is signed, and what follows the prefix. -/
def parseBase : Bytes → ℕ × Bool × Bytes
  | 48 :: c :: s =>
    if c = 120 ∨ c = 88 then (16, false, s)
    else if c = 111 ∨ c = 79 then (8, false, s)
    else if c = 98 ∨ c = 66 then (2, false, s)
    else if c = 117 ∨ c = 85 then (10, false, s)
    else (10, true, 48 :: c :: s)
  | s => (10, true, s)

/-- The `int` of a literal with the given sign and magnitude, if it is in range. -/
def inRange (signed negative : Bool) (res : ℕ) : Option ℤ :=
  match signed, negative with
  | true, true => if res ≤ 2 ^ 62 then some (-res) else none
  | true, false => if res < 2 ^ 62 then some res else none
  | false, true => if res < 2 ^ 63 then some (wrap63 (-res)) else none
  | false, false => if res < 2 ^ 63 then some (wrap63 res) else none

/-- `int_of_string_opt`. -/
def intOfString (s : Bytes) : Option ℤ :=
  let (negative, s) := parseSign s
  let (base, signed, s) := parseBase s
  match s with
  | [] => none
  | c :: s =>
    match digitIn base c with
    | none => none
    | some d =>
      match parseDigits base d s with
      | none => none
      | some res => inRange signed negative res

def digit (d : ℕ) : UInt8 := (48 + d).toUInt8

def decimal (n : ℕ) : Bytes :=
  if n < 10 then [digit n] else decimal (n / 10) ++ [digit (n % 10)]

def stringOfInt : ℤ → Bytes
  | .ofNat n => decimal n
  | .negSucc n => 45 :: decimal (n + 1)

theorem stringOfInt_natCast (n : ℕ) : stringOfInt n = decimal n := rfl

theorem stringOfInt_digit {n : ℕ} (h : n < 10) : stringOfInt n = [digit n] := by
  rw [stringOfInt_natCast, decimal, if_pos h]

theorem digitIn_digit {d : ℕ} (h : d < 10) : digitIn 10 (digit d) = some d := by
  interval_cases d <;> decide

theorem digit_ne_underscore {d : ℕ} (h : d < 10) : digit d ≠ 95 := by
  interval_cases d <;> decide

theorem parseDigits_append (base : ℕ) (s t : Bytes) (res : ℕ) :
    parseDigits base res (s ++ t) = (parseDigits base res s).bind (parseDigits base · t) := by
  induction s generalizing res with
  | nil => simp [parseDigits]
  | cons c s ih =>
    simp only [List.cons_append, parseDigits]
    split
    · exact ih res
    · split
      · exact ih _
      · simp

theorem parseDigits_digit {d : ℕ} (h : d < 10) (res : ℕ) :
    parseDigits 10 res [digit d] = some (10 * res + d) := by
  simp [parseDigits, digit_ne_underscore h, digitIn_digit h]

theorem mem_decimal {n : ℕ} {c : UInt8} (h : c ∈ decimal n) : ∃ d < 10, c = digit d := by
  induction n using Nat.strong_induction_on with
  | _ n ih =>
    rw [decimal] at h
    split at h
    · rename_i hn
      exact ⟨n, hn, List.mem_singleton.mp h⟩
    · rcases List.mem_append.mp h with h | h
      · exact ih (n / 10) (by omega) h
      · exact ⟨n % 10, by omega, List.mem_singleton.mp h⟩

theorem decimal_cons (n : ℕ) : ∃ d s, d < 10 ∧ decimal n = digit d :: s ∧
    parseDigits 10 d s = some n ∧ (d = 0 → n = 0 ∧ s = []) := by
  induction n using Nat.strong_induction_on with
  | _ n ih =>
    rw [decimal]
    split
    · rename_i hn
      exact ⟨n, [], hn, rfl, rfl, fun h => ⟨h, rfl⟩⟩
    · rename_i hn
      obtain ⟨d, s, hd, he, hp, h0⟩ := ih (n / 10) (by omega)
      refine ⟨d, s ++ [digit (n % 10)], hd, by rw [he, List.cons_append], ?_, ?_⟩
      · rw [parseDigits_append, hp, Option.bind_some, parseDigits_digit (by omega)]
        congr 1; omega
      · intro h; have := (h0 h).1; omega

theorem decimal_length_le (n : ℕ) : (decimal n).length ≤ n + 1 := by
  induction n using Nat.strong_induction_on with
  | _ n ih =>
    rw [decimal]
    split
    · simp
    · rw [List.length_append, List.length_singleton]
      have := ih (n / 10) (by omega)
      omega

theorem parseSign_decimal (n : ℕ) : parseSign (decimal n) = (false, decimal n) := by
  obtain ⟨d, s, hd, he, _⟩ := decimal_cons n
  rw [he]
  interval_cases d <;> rfl

theorem parseBase_decimal (n : ℕ) : parseBase (decimal n) = (10, true, decimal n) := by
  obtain ⟨d, s, hd, he, _, h0⟩ := decimal_cons n
  rw [he]
  by_cases hz : d = 0
  · obtain ⟨_, rfl⟩ := h0 hz
    subst hz; rfl
  · interval_cases d <;> first | exact absurd rfl hz | rfl

theorem intOfString_stringOfInt {n : ℤ} (h : -2 ^ 62 ≤ n) (h' : n < 2 ^ 62) :
    intOfString (stringOfInt n) = some n := by
  cases n with
  | ofNat n =>
    obtain ⟨d, s, hd, he, hp, _⟩ := decimal_cons n
    have hn : n < 2 ^ 62 := by simpa using h'
    rw [stringOfInt, intOfString, parseSign_decimal]
    dsimp only
    rw [parseBase_decimal, he]
    simp only [digitIn_digit hd, hp, inRange, if_pos hn]
    rfl
  | negSucc n =>
    obtain ⟨d, s, hd, he, hp, _⟩ := decimal_cons (n + 1)
    have hn : n + 1 ≤ 2 ^ 62 := by omega
    have hs : parseSign (45 :: decimal (n + 1)) = (true, decimal (n + 1)) := rfl
    rw [stringOfInt, intOfString, hs]
    dsimp only
    rw [parseBase_decimal, he]
    simp only [digitIn_digit hd, hp, inRange, if_pos hn]
    rfl

theorem inRange_bounds {signed negative : Bool} {res : ℕ} {n : ℤ}
    (h : inRange signed negative res = some n) : -2 ^ 62 ≤ n ∧ n < 2 ^ 62 := by
  cases signed <;> cases negative <;> simp only [inRange, Option.ite_none_right_eq_some,
    Option.some.injEq] at h <;> obtain ⟨hr, rfl⟩ := h <;> first | omega | (unfold wrap63; omega)

theorem intOfString_bounds {s : Bytes} {n : ℤ} (h : intOfString s = some n) :
    -2 ^ 62 ≤ n ∧ n < 2 ^ 62 := by
  unfold intOfString at h
  dsimp only at h
  split at h
  · cases h
  · split at h
    · cases h
    · split at h
      · cases h
      · exact inRange_bounds h

theorem cr_not_mem_stringOfInt (n : ℤ) : (13 : UInt8) ∉ stringOfInt n := by
  have hd (m : ℕ) : (13 : UInt8) ∉ decimal m := by
    intro h
    obtain ⟨d, hd, he⟩ := mem_decimal h
    interval_cases d <;> exact absurd he (by decide)
  cases n with
  | ofNat n => exact hd n
  | negSucc n =>
    rw [stringOfInt, List.mem_cons]
    exact not_or.mpr ⟨by decide, hd _⟩

end OCamlStudy.OCaml
