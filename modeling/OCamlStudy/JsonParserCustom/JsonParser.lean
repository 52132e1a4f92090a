import OCamlStudy.JsonParser.Hex
import OCamlStudy.JsonParser.Outside
import OCamlStudy.SimpleLwt.JsonParser

/-! # The parser without hexadecimal numbers

The file is the same text as the parser of the web server. Its lexer and the one
with hexadecimal numbers take the same steps up to the first `0x` before a
hexadecimal digit, where this one stops: it reads a zero, and no token starts
with the letter that follows.
-/

namespace OCamlStudy.JsonParserCustom

open OCaml JsonParser

variable {F : Type} (conv : FloatConv F)

def lex (chars : Bytes) : Raises (List (Token F)) := SimpleLwt.lex conv chars

def parseJson (str : Bytes) : Raises (Json F) := do
  let tokens ← lex conv str
  let (json, rest) ← parseValue tokens
  match rest with
  | [] => return json
  | _ => .error (.failure "Extra data after JSON")

/-- `0x` or `0X` and a hexadecimal digit that are not inside a string literal. -/
def HexOutside (chars : Bytes) : Prop :=
  ∃ before x digit after, chars = before ++ 48 :: x :: digit :: after ∧ Outside before ∧
    isHexPrefixChar x = true ∧ isHexDigit digit = true

variable {conv}

theorem lex_nil : lex conv [] = .ok [] := SimpleLwt.lex_nil conv

theorem lex_cons {c : UInt8} {rest : Bytes} {p : Option (Token F) × Bytes}
    (hx : hexPrefix (c :: rest) = none) (h : JsonParser.lexToken conv c rest = .ok p) :
    lex conv (c :: rest) = (p.1.toList ++ ·) <$> lex conv p.2 :=
  SimpleLwt.lex_cons conv ((SimpleLwt.lexToken_eq hx).trans h)

theorem lex_hex {c : UInt8} {rest digits : Bytes} (hx : hexPrefix (c :: rest) = some digits) :
    lex conv (c :: rest) = .error (.failure "Unknown character") := by
  obtain ⟨x, rfl, rfl, hinitial, -⟩ := hexPrefix_ok hx
  have hletter : SimpleLwt.lexToken conv x digits = .error (.failure "Unknown character") := by
    rw [isHexPrefixChar, Bool.or_eq_true, decide_eq_true_eq, decide_eq_true_eq] at hinitial
    rcases hinitial with rfl | rfl <;> rfl
  have hrest : SimpleLwt.lex conv (x :: digits) = .error (.failure "Unknown character") :=
    SimpleLwt.lex_cons_error conv hletter
  rw [lex, SimpleLwt.lex_cons conv (SimpleLwt.lexToken_hex hx), hrest]
  rfl

theorem lex_cons_error {c : UInt8} {rest : Bytes} {exn : Exn} (hx : hexPrefix (c :: rest) = none)
    (h : JsonParser.lexToken conv c rest = .error exn) : lex conv (c :: rest) = .error exn :=
  SimpleLwt.lex_cons_error conv ((SimpleLwt.lexToken_eq hx).trans h)

/-- **The lexers agree**, unless this one stops at a hexadecimal number that is not in a string. -/
theorem lex_eq_or (conv : FloatConv F) (chars : Bytes) :
    lex conv chars = JsonParser.lex conv chars ∨
    (∃ exn, lex conv chars = .error exn) ∧ HexOutside chars := by
  induction hn : chars.length using Nat.strong_induction_on generalizing chars with
  | _ n ih =>
    cases chars with
    | nil => exact .inl (lex_nil.trans (JsonParser.lex_nil conv).symm)
    | cons c rest =>
      cases hx : hexPrefix (c :: rest) with
      | some digits =>
        refine .inr ⟨⟨_, lex_hex hx⟩, ?_⟩
        obtain ⟨x, rfl, rfl, hinitial, hdigit⟩ := hexPrefix_ok hx
        cases digits with
        | nil => cases hdigit
        | cons digit after => exact ⟨[], x, digit, after, rfl, outside_nil, hinitial, hdigit⟩
      | none =>
        cases hstep : JsonParser.lexToken conv c rest with
        | error exn =>
          left
          rw [lex_cons_error hx hstep, JsonParser.lex_cons_error conv hstep]
        | ok p =>
          obtain ⟨token, remaining⟩ := p
          have hle := lexToken_length_le hstep
          rw [List.length_cons] at hn
          rw [lex_cons hx hstep, JsonParser.lex_cons conv hstep]
          rcases ih _ (by omega) remaining rfl with heq | ⟨⟨exn, hexn⟩, hhex⟩
          · exact .inl (by rw [heq])
          · right
            obtain ⟨text, rfl, hlexeme⟩ := lexeme_of_lexToken hstep
            obtain ⟨before, x, digit, after, rfl, ho, hinitial, hdigit⟩ := hhex
            refine ⟨⟨exn, by rw [hexn]; rfl⟩, c :: text ++ before, x, digit, after, by simp, ?_,
              hinitial, hdigit⟩
            exact hlexeme.outside.append.mpr ho

/-- **The extension is conservative.** -/
theorem parseJson_conservative (conv : FloatConv F) (str : Bytes) :
    (∀ j, parseJson conv str = .ok j → JsonParser.parseJson conv str = .ok j) ∧
      ∀ j exn, JsonParser.parseJson conv str = .ok j → parseJson conv str = .error exn →
        HexOutside str := by
  rcases lex_eq_or conv str with heq | ⟨⟨exn, hexn⟩, hhex⟩
  · have hparse : parseJson conv str = JsonParser.parseJson conv str := by
      rw [parseJson, heq]
      rfl
    rw [hparse]
    refine ⟨fun j hj => hj, fun j exn hj hexn => ?_⟩
    rw [hj] at hexn
    cases hexn
  · refine ⟨fun j hj => ?_, fun _ _ _ _ => hhex⟩
    rw [parseJson, hexn] at hj
    cases hj

/-- A word is read by both, `0x1f` by one of them. -/
theorem parseJson_conservative_hex :
    JsonParser.parseJson zeroFloat (bytes "true") = .ok (.bool true) ∧
      HexOutside (bytes "0x1f") := by
  have hword : JsonParser.lexToken zeroFloat 116 (bytes "rue") = .ok (some (.bool true), []) := rfl
  have hlex : lex zeroFloat (bytes "true") = .ok [.bool true] := by
    have hstep := lex_cons rfl hword
    rw [lex_nil] at hstep
    exact hstep
  have hcustom : parseJson zeroFloat (bytes "true") = .ok (.bool true) := by
    rw [parseJson, hlex, Raises.ok_bind, parseValue_eq]
    rfl
  have hread : ∃ n : Int63, n.val = wrap63 (hexValue (bytes "1f")) ∧
      JsonParser.lex zeroFloat (bytes "0x1f") = (.intTok n :: ·) <$> JsonParser.lex zeroFloat [] :=
    lex_hex_lt zeroFloat (.inl rfl) (by decide) (List.all_eq_true.mp rfl) nofun (by decide)
  obtain ⟨n, -, hhex⟩ := hread
  have hparse : JsonParser.parseJson zeroFloat (bytes "0x1f") = .ok (.int n) := by
    rw [JsonParser.parseJson, hhex, JsonParser.lex_nil]
    change (parseValue [.intTok n] >>= _) = _
    rw [parseValue_eq]
    rfl
  have hfails : parseJson zeroFloat (bytes "0x1f") = .error (.failure "Unknown character") := by
    have hstop : lex zeroFloat (bytes "0x1f") = .error (.failure "Unknown character") := lex_hex rfl
    rw [parseJson, hstop]
    rfl
  exact ⟨(parseJson_conservative zeroFloat _).1 _ hcustom,
    (parseJson_conservative zeroFloat _).2 _ _ hparse hfails⟩

end OCamlStudy.JsonParserCustom
