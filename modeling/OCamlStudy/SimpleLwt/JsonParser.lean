import OCamlStudy.JsonParser.RoundTrip

/-! # The parser of the web server

The library of the server is the JSON parser without hexadecimal numbers: the
lexer has one case less, and the other functions are the same text.
-/

namespace OCamlStudy.SimpleLwt

open OCaml JsonParser

variable {F : Type} (conv : FloatConv F)

def lexToken (c : UInt8) (rest : Bytes) : Raises (Option (Token F) × Bytes) :=
  if c = 32 ∨ c = 10 ∨ c = 13 ∨ c = 9 then .ok (none, rest)
  else
    match punctuation c with
    | some token => .ok (some token, rest)
    | none =>
      if c = 34 then do
        let (token, remaining) ← lexString [] rest
        return (some token, remaining)
      else
        match word (c :: rest) with
        | some (token, remaining) => .ok (some token, remaining)
        | none =>
          if isDigitOrDot c then do
            let (token, remaining) ← lexNumber conv [] (c :: rest)
            return (some token, remaining)
          else .error (.failure "Unknown character")

variable {conv}

theorem lexToken_eq {c : UInt8} {rest : Bytes} (hx : hexPrefix (c :: rest) = none) :
    lexToken conv c rest = JsonParser.lexToken conv c rest := by
  rw [JsonParser.lexToken, hx]
  rfl

theorem lexToken_hex {c : UInt8} {rest digits : Bytes} (hx : hexPrefix (c :: rest) = some digits) :
    lexToken conv c rest = .ok (some (.intTok ⟨0, by decide⟩), rest) := by
  obtain ⟨x, rfl, rfl, hinitial, -⟩ := hexPrefix_ok hx
  have hnot : isDigitOrDot x = false := by
    rw [isHexPrefixChar, Bool.or_eq_true, decide_eq_true_eq, decide_eq_true_eq] at hinitial
    rcases hinitial with rfl | rfl <;> rfl
  change (lexNumber conv [] (48 :: x :: digits) >>= fun p => .ok (some p.1, p.2)) = _
  have hdigit : isDigitOrDot 48 = true := rfl
  rw [lexNumber, scan_eq, List.takeWhile_cons_of_pos hdigit, List.dropWhile_cons_of_pos hdigit,
    List.takeWhile_cons_of_neg (by simp [hnot]), List.dropWhile_cons_of_neg (by simp [hnot])]
  rfl

theorem lexToken_ok {c : UInt8} {rest : Bytes} {p : Option (Token F) × Bytes}
    (h : lexToken conv c rest = .ok p) :
    p.2 <:+ rest ∧ ∀ s, p.1 = some (.str s) → 34 ∉ s := by
  cases hx : hexPrefix (c :: rest) with
  | none =>
    rw [lexToken_eq hx] at h
    exact JsonParser.lexToken_ok h
  | some digits =>
    rw [lexToken_hex hx] at h
    cases h
    exact ⟨List.suffix_refl _, nofun⟩

variable (conv)

def steps : Steps F := ⟨lexToken conv, fun _ _ _ h => lexToken_ok h⟩

def lex (chars : Bytes) : Raises (List (Token F)) := (steps conv).lex chars

theorem lex_nil : lex conv [] = .ok [] := (steps conv).lex_nil

theorem lex_cons {c : UInt8} {rest : Bytes} {p : Option (Token F) × Bytes}
    (h : lexToken conv c rest = .ok p) :
    lex conv (c :: rest) = (p.1.toList ++ ·) <$> lex conv p.2 := (steps conv).lex_cons h

theorem lex_cons_error {c : UInt8} {rest : Bytes} {exn : Exn}
    (h : lexToken conv c rest = .error exn) : lex conv (c :: rest) = .error exn :=
  (steps conv).lex_cons_error h

def parseJson (str : Bytes) : Raises (Json F) := do
  let tokens ← lex conv str
  let (json, rest) ← parseValue tokens
  match rest with
  | [] => return json
  | _ => .error (.failure "Extra data after JSON")

def assocOpt (key : Bytes) : List (Bytes × Json F) → Option (Json F)
  | [] => none
  | (k, v) :: fields => if k = key then some v else assocOpt key fields

def member (key : Bytes) : Json F → Option (Json F)
  | .object fields => assocOpt key fields
  | _ => none

variable {conv}

/-- The tokens of a parsed value are among those that were lexed. -/
theorem parseJson_ok {str : Bytes} {j : Json F} (h : parseJson conv str = .ok j) :
    ∃ tokens, lex conv str = .ok tokens ∧ ∀ token ∈ toks j, token ∈ tokens := by
  obtain ⟨tokens, hlex, h⟩ := Raises.bind_ok h
  obtain ⟨k, hread⟩ := parse_whole_iff.mp h
  exact ⟨tokens, hlex, fun token htoken => hread.sublist.1.subset htoken⟩

theorem mem_fieldToks_of_assocOpt {key : Bytes} {fields : List (Bytes × Json F)} {v : Json F}
    {token : Token F} (h : assocOpt key fields = some v) (ht : token ∈ toks v) :
    ∃ x ∈ fieldToks fields, token ∈ x := by
  induction fields with
  | nil => cases h
  | cons field fields ih =>
    obtain ⟨k, w⟩ := field
    rw [assocOpt] at h
    rw [fieldToks]
    split_ifs at h with hk
    · cases h
      exact ⟨_, List.mem_cons_self, List.mem_cons_of_mem _ (List.mem_cons_of_mem _ ht)⟩
    · obtain ⟨x, hx, hmem⟩ := ih h
      exact ⟨x, List.mem_cons_of_mem _ hx, hmem⟩

theorem mem_toks_of_member {key : Bytes} {j v : Json F} {token : Token F}
    (h : member key j = some v) (ht : token ∈ toks v) : token ∈ toks j := by
  cases j with
  | object fields =>
    obtain ⟨x, hx, hmem⟩ := mem_fieldToks_of_assocOpt h ht
    apply List.mem_cons_of_mem
    apply List.mem_append_left
    exact mem_intercalate_of_mem hx hmem
  | _ => cases h

/-- A string in a parsed object holds no double quote. -/
theorem quoteFree_of_member {key str s : Bytes} {j : Json F} (h : parseJson conv str = .ok j)
    (hs : member key j = some (.string s)) : 34 ∉ s := by
  obtain ⟨tokens, hlex, hsub⟩ := parseJson_ok h
  exact Steps.lex_quoteFree hlex s (hsub _ (mem_toks_of_member hs List.mem_cons_self))

theorem lex_string {s t : Bytes} {ts : List (Token F)} (hs : 34 ∉ s) (hlex : lex conv t = .ok ts) :
    lex conv (34 :: (s ++ 34 :: t)) = .ok (.str s :: ts) := by
  have h : lexToken conv 34 (s ++ 34 :: t) = .ok (some (.str s), t) :=
    (lexToken_eq rfl).trans (lexToken_string hs t)
  exact Steps.lex_token h hlex

theorem parseJson_toString_field {key s : Bytes} (hkey : 34 ∉ key) (hs : 34 ∉ s) :
    parseJson conv (Json.toString conv (.object [(key, .string s)])) =
      .ok (.object [(key, .string s)]) := by
  have htext : Json.toString conv (.object [(key, .string s)]) =
      123 :: 34 :: (key ++ 34 :: 58 :: 32 :: 34 :: (s ++ 34 :: [125])) := by
    simp [Json.toString, fieldStrs, stringConcat, bytes]
  have hclose : lex conv [125] = .ok [.rBrace] := Steps.lex_token rfl (lex_nil conv)
  have hvalue : lex conv (32 :: 34 :: (s ++ 34 :: [125])) = .ok [.str s, .rBrace] := by
    have hblank : lexToken conv 32 (34 :: (s ++ 34 :: [125])) =
        .ok (none, 34 :: (s ++ 34 :: [125])) := rfl
    exact Steps.lex_blank hblank (lex_string hs hclose)
  have hlex : lex conv (Json.toString conv (.object [(key, .string s)])) =
      .ok [.lBrace, .str key, .colon, .str s, .rBrace] := by
    rw [htext]
    apply Steps.lex_token rfl
    apply lex_string hkey
    exact Steps.lex_token rfl hvalue
  have hparse := (reads_toks (.object [(key, .string s)] : Json F)).parse []
  rw [List.append_nil] at hparse
  rw [parseJson, hlex, Raises.ok_bind]
  have htoks : toks (.object [(key, .string s)] : Json F) =
      [.lBrace, .str key, .colon, .str s, .rBrace] := rfl
  rw [← htoks, hparse]
  rfl

end OCamlStudy.SimpleLwt
