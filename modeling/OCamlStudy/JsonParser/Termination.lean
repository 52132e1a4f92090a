import OCamlStudy.JsonParser.Grammar

/-! # Termination and consumption

The calls that the recursive functions of the lexer and the parser make, with the
arguments they make them with. A number that combines the length of the input with the
function's place among the calls that keep the input is smaller for every callee.
-/

namespace OCamlStudy.JsonParser

open OCaml

/-- A call of a recursive function of the source. -/
inductive Call (F : Type)
  | lexHexNumber (acc chars : Bytes)
  | lexNumber (acc chars : Bytes)
  | lexString (acc chars : Bytes)
  | lex (chars : Bytes)
  | parseValue (tokens : List (Token F))
  | parseArray (tokens : List (Token F))
  | parseCommaSeparatedValue (acc : List (Json F)) (tokens : List (Token F))
  | parseObject (tokens : List (Token F))
  | parseObjectFields (acc : List (Bytes × Json F)) (tokens : List (Token F))

section Calls

variable {F : Type} (conv : FloatConv F)

/-- The calls made by a call. One that follows another is made with what that one returned. The
earlier cases of a `match` are excluded only where an argument depends on it. -/
inductive Calls : Call F → Call F → Prop
  | hexDigit {c : UInt8} {acc rest : Bytes} (h : isHexDigit c = true) :
      Calls (.lexHexNumber acc (c :: rest)) (.lexHexNumber (c :: acc) rest)
  | digitOrDot {c : UInt8} {acc rest : Bytes} (h : isDigitOrDot c = true) :
      Calls (.lexNumber acc (c :: rest)) (.lexNumber (c :: acc) rest)
  | inString {c : UInt8} {acc rest : Bytes} (h : c ≠ 34) :
      Calls (.lexString acc (c :: rest)) (.lexString (c :: acc) rest)
  | string {rest : Bytes} : Calls (.lex (34 :: rest)) (.lexString [] rest)
  | hexNumber {chars digits : Bytes} (h : hexPrefix chars = some digits) :
      Calls (.lex chars) (.lexHexNumber [] digits)
  | number {c : UInt8} {rest : Bytes} (h : isDigitOrDot c = true) :
      Calls (.lex (c :: rest)) (.lexNumber [] (c :: rest))
  | nextToken {c : UInt8} {rest remaining : Bytes} {token : Option (Token F)}
      (h : lexToken conv c rest = .ok (token, remaining)) :
        Calls (.lex (c :: rest)) (.lex remaining)
  | object {rest : List (Token F)} : Calls (.parseValue (.lBrace :: rest)) (.parseObject rest)
  | array {rest : List (Token F)} : Calls (.parseValue (.lBracket :: rest)) (.parseArray rest)
  | elements {tokens : List (Token F)} (h : ∀ rest, tokens ≠ .rBracket :: rest) :
      Calls (.parseArray tokens) (.parseCommaSeparatedValue [] tokens)
  | element {acc : List (Json F)} {tokens : List (Token F)}
      (h : ∀ rest, tokens ≠ .rBracket :: rest) :
      Calls (.parseCommaSeparatedValue acc tokens) (.parseValue tokens)
  | nextElement {acc : List (Json F)} {v : Json F} {tokens rest2 : List (Token F)}
      (h : ∀ rest, tokens ≠ .rBracket :: rest) (hv : parseValue tokens = .ok (v, .comma :: rest2)) :
      Calls (.parseCommaSeparatedValue acc tokens) (.parseCommaSeparatedValue (v :: acc) rest2)
  | fields {tokens : List (Token F)} (h : ∀ rest, tokens ≠ .rBrace :: rest) :
      Calls (.parseObject tokens) (.parseObjectFields [] tokens)
  | field {acc : List (Bytes × Json F)} {k : Bytes} {rest2 : List (Token F)} :
      Calls (.parseObjectFields acc (.str k :: .colon :: rest2)) (.parseValue rest2)
  | nextField {acc : List (Bytes × Json F)} {k : Bytes} {v : Json F} {rest2 rest4 : List (Token F)}
      (hv : parseValue rest2 = .ok (v, .comma :: rest4)) :
      Calls (.parseObjectFields acc (.str k :: .colon :: rest2))
        (.parseObjectFields ((k, v) :: acc) rest4)

/-- Three for every character or token left, and the place of the function among the calls that
read the same input. -/
def Call.rank : Call F → ℕ
  | .lexHexNumber _ chars => 3 * chars.length
  | .lexNumber _ chars => 3 * chars.length
  | .lexString _ chars => 3 * chars.length
  | .lex chars => 3 * chars.length + 1
  | .parseValue tokens => 3 * tokens.length
  | .parseCommaSeparatedValue _ tokens => 3 * tokens.length + 1
  | .parseObjectFields _ tokens => 3 * tokens.length + 1
  | .parseArray tokens => 3 * tokens.length + 2
  | .parseObject tokens => 3 * tokens.length + 2

end Calls

section Consumption

variable {F : Type} {conv : FloatConv F}

theorem Reads.ne_nil {v : Json F} {ts : List (Token F)} {k : ℕ} (h : Reads v ts k) : ts ≠ [] := by
  cases h <;> exact List.cons_ne_nil _ _

theorem parseValue_consumes {tokens rest : List (Token F)} {v : Json F}
    (h : parseValue tokens = .ok (v, rest)) : rest <:+ tokens ∧ rest.length < tokens.length := by
  obtain ⟨ts, k, hread, rfl⟩ := parseValue_eq_ok_iff.mp h
  have hpos := List.length_pos_iff.mpr hread.ne_nil
  refine ⟨List.suffix_append ts rest, ?_⟩
  rw [List.length_append]
  omega

theorem scan_consumes {belongs : UInt8 → Bool} {finish : Bytes → Raises (Token F)}
    {acc chars remaining : Bytes} {token : Token F}
    (h : scan belongs finish acc chars = .ok (token, remaining)) : remaining <:+ chars := by
  rw [(scan_ok h).2]
  exact List.dropWhile_suffix _

theorem lexNumber_cons_consumes {c : UInt8} {acc rest remaining : Bytes} {token : Token F}
    (hc : isDigitOrDot c = true) (h : lexNumber conv acc (c :: rest) = .ok (token, remaining)) :
    remaining <:+ rest := by
  rw [(scan_ok h).2, List.dropWhile_cons_of_pos hc]
  exact List.dropWhile_suffix _

theorem lexString_consumes {acc chars remaining : Bytes} {token : Token F}
    (h : lexString acc chars = .ok (token, remaining)) : remaining <:+ chars := by
  obtain ⟨s, _, _, rfl⟩ := lexString_ok h
  exact ⟨s ++ [34], by rw [List.append_assoc, List.singleton_append]⟩

theorem hexPrefix_length {chars digits : Bytes} (h : hexPrefix chars = some digits) :
    chars.length = digits.length + 2 := by
  cases chars with
  | nil => cases h
  | cons c rest =>
    obtain ⟨x, rfl, -⟩ := hexPrefix_ok h
    rfl

/-- Every call is made with a smaller rank. -/
theorem Calls.rank_lt {caller callee : Call F} (h : Calls conv caller callee) :
    callee.rank < caller.rank := by
  cases h with
  | hexNumber h =>
    have := hexPrefix_length h
    simp only [Call.rank]
    omega
  | nextToken h =>
    have := lexToken_length_le h
    simp only [Call.rank, List.length_cons]
    omega
  | nextElement _ hv | nextField hv =>
    have := (parseValue_consumes hv).2
    simp only [Call.rank, List.length_cons] at this ⊢
    omega
  | _ =>
    simp only [Call.rank, List.length_cons]
    omega

theorem Calls.wellFounded (conv : FloatConv F) :
    WellFounded fun callee caller => Calls conv caller callee :=
  Subrelation.wf Calls.rank_lt (measure Call.rank).wf

end Consumption

/-- **The lexer and the parser terminate and consume**: their calls are well-founded, the helpers
of `lex` leave a suffix shorter than its input, and `parse_value` leaves a proper suffix. -/
theorem terminates_and_consumes {F : Type} (conv : FloatConv F) :
    (WellFounded fun callee caller => Calls conv caller callee) ∧
      (∀ acc c rest token remaining, isDigitOrDot c = true →
        lexNumber conv acc (c :: rest) = .ok (token, remaining) →
        remaining <:+ c :: rest ∧ remaining.length < (c :: rest).length) ∧
      (∀ acc chars digits (token : Token F) remaining, hexPrefix chars = some digits →
        lexHexNumber acc digits = .ok (token, remaining) →
        remaining <:+ digits ∧ remaining.length < chars.length) ∧
      (∀ acc rest (token : Token F) remaining, lexString acc rest = .ok (token, remaining) →
        remaining <:+ rest ∧ remaining.length < (34 :: rest).length) ∧
      ∀ (tokens : List (Token F)) v rest, parseValue tokens = .ok (v, rest) →
        rest <:+ tokens ∧ rest ≠ tokens := by
  refine ⟨Calls.wellFounded conv, ?_, ?_, ?_, ?_⟩
  · intro acc c rest token remaining hc h
    have hsuffix := lexNumber_cons_consumes hc h
    exact ⟨scan_consumes h, Nat.lt_succ_of_le hsuffix.length_le⟩
  · intro acc chars digits token remaining hx h
    have hsuffix := scan_consumes h
    refine ⟨hsuffix, ?_⟩
    rw [hexPrefix_length hx]
    exact Nat.lt_succ_of_le (hsuffix.length_le.trans (Nat.le_succ _))
  · intro acc rest token remaining h
    have hsuffix := lexString_consumes h
    exact ⟨hsuffix, Nat.lt_succ_of_le hsuffix.length_le⟩
  · intro tokens v rest h
    obtain ⟨hsuffix, hlt⟩ := parseValue_consumes h
    refine ⟨hsuffix, ?_⟩
    rintro rfl
    exact lt_irrefl _ hlt

/-- A number, a string, and an array in an array. -/
theorem terminates_and_consumes_nested :
    (bytes ",3" <:+ bytes "12,3" ∧ (bytes ",3").length < (bytes "12,3").length) ∧
      (bytes ":1" <:+ bytes "k\":1" ∧ (bytes ":1").length < (34 :: bytes "k\":1").length) ∧
      ([.comma, .null] : List (Token Unit)) <:+
        [.lBracket, .lBracket, .null, .rBracket, .rBracket, .comma, .null] ∧
      ([.comma, .null] : List (Token Unit)) ≠
        [.lBracket, .lBracket, .null, .rBracket, .rBracket, .comma, .null] := by
  obtain ⟨-, hnumber, -, hstring, hvalue⟩ :=
    terminates_and_consumes (⟨fun _ => none, fun _ => []⟩ : FloatConv Unit)
  have hread : Reads (.array [.array [.null]])
      ([.lBracket, .lBracket, .null, .rBracket, .rBracket] : List (Token Unit)) 0 :=
    .array (.last (.array (.last .null)))
  exact ⟨hnumber [] 49 (bytes "2,3") (.intTok ⟨12, by decide⟩) _ rfl rfl,
    hstring [] (bytes "k\":1") (.str (bytes "k")) _ rfl,
    hvalue _ (.array [.array [.null]]) _ (hread.parse [.comma, .null])⟩

end OCamlStudy.JsonParser
