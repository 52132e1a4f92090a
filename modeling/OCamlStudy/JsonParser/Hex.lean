import OCamlStudy.JsonParser.RoundTrip

/-! # Hexadecimal literals

The digits after `0x` are handed to `int_of_string`, which accepts every number
below `2 ^ 63` and keeps 63 bits of it. So a literal of `2 ^ 62` or more that has
63 bits is read as a negative number.
-/

namespace OCamlStudy.JsonParser

open OCaml

def hexDigitValue (c : UInt8) : ℕ :=
  if c ≤ 57 then c.toNat - 48 else if c ≤ 70 then c.toNat - 55 else c.toNat - 87

def hexValue (ds : Bytes) : ℕ := Nat.ofDigits 16 (ds.reverse.map hexDigitValue)

theorem hexValue_cons (c : UInt8) (ds : Bytes) :
    hexValue (c :: ds) = 16 ^ ds.length * hexDigitValue c + hexValue ds := by
  rw [hexValue, List.reverse_cons, List.map_append, Nat.ofDigits_append, List.length_map,
    List.length_reverse, List.map_singleton, Nat.ofDigits_singleton, add_comm]
  rfl

theorem digitIn_hex {c : UInt8} (h : isHexDigit c = true) :
    digitIn 16 c = some (hexDigitValue c) := by
  simp only [isHexDigit, Bool.or_eq_true, Bool.and_eq_true, decide_eq_true_eq,
    UInt8.le_iff_toNat_le, UInt8.reduceToNat] at h
  simp only [digitIn, parseDigit, hexDigitValue, UInt8.le_iff_toNat_le, UInt8.reduceToNat]
  rcases h with (⟨hlo, hhi⟩ | ⟨hlo, hhi⟩) | ⟨hlo, hhi⟩
  · rw [if_pos ⟨hlo, hhi⟩, if_pos hhi, Option.filter_some, if_pos (by simp; omega)]
  · rw [if_neg (by omega), if_neg (by omega), if_pos ⟨hlo, hhi⟩, if_neg (by omega),
      if_neg (by omega), Option.filter_some, if_pos (by simp; omega)]
  · rw [if_neg (by omega), if_pos ⟨hlo, hhi⟩, if_neg (by omega), if_pos hhi, Option.filter_some,
      if_pos (by simp; omega)]

theorem isHexDigit_ne_underscore {c : UInt8} (h : isHexDigit c = true) : c ≠ 95 := by
  rintro rfl
  cases h

theorem parseDigits_hex {ds : Bytes} (h : ∀ c ∈ ds, isHexDigit c = true) (res : ℕ) :
    parseDigits 16 res ds = some (16 ^ ds.length * res + hexValue ds) := by
  induction ds generalizing res with
  | nil => simp [parseDigits, hexValue]
  | cons c ds ih =>
    have hc := h c List.mem_cons_self
    rw [parseDigits, if_neg (isHexDigit_ne_underscore hc), digitIn_hex hc]
    dsimp only
    rw [ih (fun c' hc' => h c' (List.mem_cons_of_mem _ hc')), hexValue_cons, List.length_cons]
    congr 1
    ring

/-- `int_of_string` of a hexadecimal literal keeps 63 bits of its value. -/
theorem intOfString_hex {ds : Bytes} (hne : ds ≠ []) (h : ∀ c ∈ ds, isHexDigit c = true) :
    intOfString (bytes "0x" ++ ds) =
      if hexValue ds < 2 ^ 63 then some (wrap63 (hexValue ds)) else none := by
  obtain ⟨c, s, rfl⟩ := List.exists_cons_of_ne_nil hne
  have hsign : parseSign (bytes "0x" ++ c :: s) = (false, bytes "0x" ++ c :: s) := rfl
  have hbase : parseBase (bytes "0x" ++ c :: s) = (16, false, c :: s) := rfl
  have hdigits := parseDigits_hex (fun c' hc' => h c' (List.mem_cons_of_mem _ hc'))
    (hexDigitValue c)
  rw [← hexValue_cons] at hdigits
  rw [intOfString, hsign]
  dsimp only
  rw [hbase]
  dsimp only
  rw [digitIn_hex (h c List.mem_cons_self)]
  dsimp only
  rw [hdigits]
  rfl

section Lex

variable {F : Type} {conv : FloatConv F} {ds rest : Bytes} {x : UInt8}

theorem hexToken_lt (hne : ds ≠ []) (h : ∀ c ∈ ds, isHexDigit c = true)
    (hlt : hexValue ds < 2 ^ 63) :
    ∃ n : Int63, n.val = wrap63 (hexValue ds) ∧
      (hexToken ds : Raises (Token F)) = .ok (.intTok n) := by
  have hint := intOfString_hex hne h
  rw [if_pos hlt] at hint
  refine ⟨⟨wrap63 (hexValue ds), intOfString_bounds hint⟩, rfl, ?_⟩
  obtain ⟨c, s, rfl⟩ := List.exists_cons_of_ne_nil hne
  simp only [hexToken, int63OfString, hint, Option.pmap_some]

theorem hexToken_large (hne : ds ≠ []) (h : ∀ c ∈ ds, isHexDigit c = true)
    (hle : 2 ^ 63 ≤ hexValue ds) : (hexToken ds : Raises (Token F)) =
      .error (.failure ("Hex number too large: 0x" ++ asciiString ds)) := by
  have hint := intOfString_hex hne h
  rw [if_neg (not_lt.mpr hle)] at hint
  obtain ⟨c, s, rfl⟩ := List.exists_cons_of_ne_nil hne
  simp only [hexToken, int63OfString, hint, Option.pmap_none]

theorem lexToken_hex (hx : x = 120 ∨ x = 88) (hne : ds ≠ []) (h : ∀ c ∈ ds, isHexDigit c = true)
    (hrest : ∀ c, rest.head? = some c → isHexDigit c = false) :
    lexToken conv 48 (x :: (ds ++ rest)) = (hexToken ds).map fun token => (some token, rest) := by
  have hinitial : hexPrefix (48 :: x :: (ds ++ rest)) = some (ds ++ rest) := by
    obtain ⟨c, s, rfl⟩ := List.exists_cons_of_ne_nil hne
    rw [hexPrefix, List.cons_append, List.head?_cons, Option.getD_some, h c List.mem_cons_self]
    rcases hx with rfl | rfl <;> rfl
  have htake : (ds ++ rest).takeWhile isHexDigit = ds ∧
      (ds ++ rest).dropWhile isHexDigit = rest := by
    rw [List.takeWhile_append_of_pos h, List.dropWhile_append_of_pos h]
    cases rest with
    | nil => exact ⟨List.append_nil _, rfl⟩
    | cons c rest =>
      have hc := hrest c rfl
      rw [List.takeWhile_cons_of_neg (by simp [hc]), List.dropWhile_cons_of_neg (by simp [hc])]
      exact ⟨List.append_nil _, rfl⟩
  have hstep : lexToken conv 48 (x :: (ds ++ rest)) =
      lexHexNumber [] (ds ++ rest) >>= fun p => .ok (some p.1, p.2) := by
    have hpunctuation : (punctuation 48 : Option (Token F)) = none := rfl
    have hword : (word (48 :: x :: (ds ++ rest)) : Option (Token F × Bytes)) = none := rfl
    rw [lexToken, if_neg (by decide), hpunctuation]
    dsimp only
    rw [if_neg (by decide), hword]
    dsimp only
    rw [hinitial]
    rfl
  rw [hstep, lexHexNumber, scan_eq, htake.1, htake.2, List.reverse_nil, List.nil_append]
  cases (hexToken ds : Raises (Token F)) <;> rfl

/-- **A literal below `2 ^ 63` is read as 63 bits of its value.** -/
theorem lex_hex_lt (conv : FloatConv F) (hx : x = 120 ∨ x = 88) (hne : ds ≠ [])
    (h : ∀ c ∈ ds, isHexDigit c = true)
    (hrest : ∀ c, rest.head? = some c → isHexDigit c = false) (hlt : hexValue ds < 2 ^ 63) :
    ∃ n : Int63, n.val = wrap63 (hexValue ds) ∧
      lex conv (48 :: x :: (ds ++ rest)) = (.intTok n :: ·) <$> lex conv rest := by
  obtain ⟨n, hn, htoken⟩ := hexToken_lt (F := F) hne h hlt
  have hstep : lexToken conv 48 (x :: (ds ++ rest)) = .ok (some (.intTok n), rest) := by
    rw [lexToken_hex hx hne h hrest, htoken]
    rfl
  exact ⟨n, hn, lex_cons conv hstep⟩

theorem lex_hex_large (hx : x = 120 ∨ x = 88) (hne : ds ≠ []) (h : ∀ c ∈ ds, isHexDigit c = true)
    (hrest : ∀ c, rest.head? = some c → isHexDigit c = false) (hle : 2 ^ 63 ≤ hexValue ds) :
    ∃ msg, lex conv (48 :: x :: (ds ++ rest)) = .error (.failure msg) := by
  have hstep : lexToken conv 48 (x :: (ds ++ rest)) =
      .error (.failure ("Hex number too large: 0x" ++ asciiString ds)) := by
    rw [lexToken_hex hx hne h hrest, hexToken_large hne h hle]
    rfl
  exact ⟨_, lex_cons_error conv hstep⟩

end Lex

/-- Wherever it stands, the literal is read as its value if that is an `int`, else rejected. -/
def Denotes {F : Type} (conv : FloatConv F) (x : UInt8) (ds : Bytes) : Prop :=
  ∀ rest : Bytes, (∀ c, rest.head? = some c → isHexDigit c = false) →
    (hexValue ds ≤ 2 ^ 62 - 1 → ∃ n : Int63, n.val = hexValue ds ∧
      lex conv (48 :: x :: (ds ++ rest)) = (.intTok n :: ·) <$> lex conv rest) ∧
    (2 ^ 62 - 1 < hexValue ds →
      ∃ msg, lex conv (48 :: x :: (ds ++ rest)) = .error (.failure msg))

section Denotes

variable {F : Type} {conv : FloatConv F} {x : UInt8} {ds : Bytes}

theorem not_denotes (hx : x = 120 ∨ x = 88) (hne : ds ≠ []) (h : ∀ c ∈ ds, isHexDigit c = true)
    (hle : 2 ^ 62 ≤ hexValue ds) (hlt : hexValue ds < 2 ^ 63) : ¬ Denotes conv x ds := by
  intro hd
  obtain ⟨msg, hmsg⟩ := (hd [] nofun).2 (by omega)
  have hread : ∃ n : Int63, n.val = wrap63 (hexValue ds) ∧
      lex conv (48 :: x :: (ds ++ [])) = (.intTok n :: ·) <$> lex conv [] :=
    lex_hex_lt conv hx hne h nofun hlt
  obtain ⟨n, -, hlex⟩ := hread
  rw [hmsg, lex_nil] at hlex
  cases hlex

/-- **A hexadecimal literal denotes its value or is rejected exactly if it has not 63 bits.** -/
theorem denotes_iff (conv : FloatConv F) (hx : x = 120 ∨ x = 88) (hne : ds ≠ [])
    (h : ∀ c ∈ ds, isHexDigit c = true) :
    Denotes conv x ds ↔ hexValue ds < 2 ^ 62 ∨ 2 ^ 63 ≤ hexValue ds := by
  constructor
  · intro hd
    by_contra hbits
    rw [not_or, not_lt, not_le] at hbits
    exact not_denotes hx hne h hbits.1 hbits.2 hd
  · intro hbits rest hrest
    constructor
    · intro hle
      obtain ⟨n, hn, hlex⟩ := lex_hex_lt conv hx hne h hrest (by omega)
      rw [wrap63_eq (by omega) (by omega)] at hn
      exact ⟨n, hn, hlex⟩
    · intro hlt
      exact lex_hex_large hx hne h hrest (by omega)

/-- `0xFf` is 255. -/
theorem denotes_iff_byte : Denotes zeroFloat 120 (bytes "Ff") ↔
    hexValue (bytes "Ff") < 2 ^ 62 ∨ 2 ^ 63 ≤ hexValue (bytes "Ff") :=
  denotes_iff zeroFloat (.inl rfl) (by decide) (List.all_eq_true.mp rfl)

/-- `0x4000000000000000` is read as the least `int`. -/
theorem denotes_power : ¬ Denotes zeroFloat 120 (bytes "4000000000000000") :=
  not_denotes (.inl rfl) (by decide) (List.all_eq_true.mp rfl) (by decide) (by decide)

end Denotes

end OCamlStudy.JsonParser
