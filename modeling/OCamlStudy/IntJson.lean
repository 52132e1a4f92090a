import OCamlStudy.JsonParser.Language
import OCamlStudy.JsonParserCustom.JsonParser

/-! # The first version of the parser

Its numbers are runs of decimal digits, which are integers; the parser over the
tokens is that of the later versions without floats. What it lexes the later
versions lex alike, so they return the same value or raise the same exception.
Of what it prints it reads back all but the negative numbers.
-/

namespace OCamlStudy.IntJson

open OCaml JsonParser

-- The values and the tokens are those of the later versions; no float is made of any text.
variable {F : Type}

def isDigit (c : UInt8) : Bool := 48 ≤ c && c ≤ 57

def numToken (numStr : Bytes) : Raises (Token F) :=
  match int63OfString numStr with
  | some n => .ok (.intTok n)
  | none => .error (.failure "int_of_string")

def lexNumber : Bytes → Bytes → Raises (Token F × Bytes) := scan isDigit numToken

/-- One case of `lex` at a character: the token, none for white space, and what follows it. -/
def lexToken (c : UInt8) (rest : Bytes) : Raises (Option (Token F) × Bytes) :=
  if c = 32 ∨ c = 10 ∨ c = 13 ∨ c = 9 then .ok (none, rest)
  else
    match punctuation c with
    | some token => .ok (some token, rest)
    | none =>
      if c = 34 then do
        let (token, remaining) ← lexString [] rest
        return (some token, remaining)
      else
        match word (c :: rest) with
        | some (token, remaining) => .ok (some token, remaining)
        | none =>
          if isDigit c then do
            let (token, remaining) ← lexNumber [] (c :: rest)
            return (some token, remaining)
          else .error (.failure "Unknown character")

section Step

variable {c : UInt8} {rest remaining : Bytes} {token : Option (Token F)}

theorem isDigitOrDot_of_isDigit (h : isDigit c = true) : isDigitOrDot c = true := by
  rw [isDigit] at h
  simp [isDigitOrDot, h]

theorem lexToken_eq (conv : FloatConv F) (hc : isDigit c = false)
    (h : lexToken c rest = .ok (token, remaining)) :
    JsonParser.lexToken conv c rest = .ok (token, remaining) := by
  by_cases hblank : c = 32 ∨ c = 10 ∨ c = 13 ∨ c = 9
  · rw [lexToken, if_pos hblank] at h
    rw [JsonParser.lexToken, if_pos hblank, h]
  rw [lexToken, if_neg hblank] at h
  rw [JsonParser.lexToken, if_neg hblank]
  cases hp : (punctuation c : Option (Token F)) with
  | some token' =>
    rw [hp] at h
    exact h
  | none =>
    rw [hp] at h
    by_cases hquote : c = 34
    · simp only [if_pos hquote] at h ⊢
      exact h
    simp only [if_neg hquote] at h ⊢
    cases hw : (word (c :: rest) : Option (Token F × Bytes)) with
    | some found =>
      rw [hw] at h
      exact h
    | none =>
      rw [hw] at h
      simp [hc] at h

theorem lexToken_digit (hc : isDigit c = true) :
    (lexToken c rest : Raises (Option (Token F) × Bytes)) =
    (numToken ((c :: rest).takeWhile isDigit)).map fun token =>
      (some token, (c :: rest).dropWhile isDigit) := by
  obtain ⟨hblank, hpunctuation, hquote, hword⟩ :=
    isDigitOrDot_cases (F := F) (isDigitOrDot_of_isDigit hc)
  rw [lexToken, if_neg hblank, hpunctuation]
  dsimp only
  rw [if_neg hquote, hword]
  dsimp only
  rw [if_pos hc, lexNumber, scan_eq, List.reverse_nil, List.nil_append]
  cases (numToken ((c :: rest).takeWhile isDigit) : Raises (Token F)) <;> rfl

theorem lexToken_ok {p : Option (Token F) × Bytes} (h : lexToken c rest = .ok p) :
    p.2 <:+ rest ∧ ∀ s, p.1 = some (.str s) → 34 ∉ s := by
  cases hc : isDigit c with
  | false => exact JsonParser.lexToken_ok (lexToken_eq ⟨fun _ => none, fun _ => []⟩ hc h)
  | true =>
    rw [lexToken_digit hc] at h
    obtain ⟨number, hnumber, rfl⟩ := Raises.map_ok h
    constructor
    · rw [List.dropWhile_cons_of_pos hc]
      exact List.dropWhile_suffix isDigit
    · rintro s hs
      obtain rfl := Option.some.inj hs
      rw [numToken] at hnumber
      split at hnumber <;> cases hnumber

theorem lexToken_unknown (hc : isDigit c = false)
    (h : isDigitOrDot c = true ∨ isHexPrefixChar c = true) :
    (lexToken c rest : Raises (Option (Token F) × Bytes)) =
      .error (.failure "Unknown character") := by
  have hcases : c = 46 ∨ c = 45 ∨ c = 101 ∨ c = 69 ∨ c = 120 ∨ c = 88 := by
    rw [isDigit] at hc
    simpa [isDigitOrDot, hc, isHexPrefixChar, or_assoc] using h
  rcases hcases with rfl | rfl | rfl | rfl | rfl | rfl <;> rfl

end Step

def steps : Steps F := ⟨lexToken, fun _ _ _ h => lexToken_ok h⟩

def lex (chars : Bytes) : Raises (List (Token F)) := steps.lex chars

theorem lex_nil : (lex [] : Raises (List (Token F))) = .ok [] := steps.lex_nil

def parseJson (str : Bytes) : Raises (Json F) := do
  let tokens ← lex str
  let (json, rest) ← parseValue tokens
  match rest with
  | [] => return json
  | _ => .error (.failure "Extra data after JSON")

section Later

variable {c : UInt8} {rest remaining : Bytes} {token : Option (Token F)} {tokens : List (Token F)}
  (conv : FloatConv F)

theorem lex_head (h : lex remaining = .ok tokens) (hstop : Stops isDigit remaining) :
    Stops isDigitOrDot remaining ∧ Stops isHexPrefixChar remaining := by
  have hhead : ∀ x, remaining.head? = some x →
      ¬ (isDigitOrDot x = true ∨ isHexPrefixChar x = true) := by
    intro x hx hnumber
    obtain ⟨r, rfl⟩ : ∃ r, remaining = x :: r := List.head?_eq_some_iff.mp hx
    rw [lex, steps.lex_cons_error (lexToken_unknown (hstop x rfl) hnumber)] at h
    cases h
  constructor
  · intro x hx
    exact eq_false_of_ne_true fun hdigit => hhead x hx (.inl hdigit)
  · intro x hx
    exact eq_false_of_ne_true fun hhex => hhead x hx (.inr hhex)

theorem hexPrefix_digits {text : Bytes} (htext : ∀ x ∈ text, isDigit x = true)
    (hstop : Stops isHexPrefixChar remaining) (hne : text ≠ []) :
    hexPrefix (text ++ remaining) = none := by
  obtain ⟨d, s, rfl⟩ := List.exists_cons_of_ne_nil hne
  unfold hexPrefix
  split
  · rename_i x after hchars
    obtain ⟨rfl, hrest⟩ := List.cons.inj hchars
    have hx : isHexPrefixChar x = false := by
      cases s with
      | nil =>
        have hremaining : remaining = x :: after := hrest
        exact hstop x (by rw [hremaining]; rfl)
      | cons y s =>
        obtain ⟨rfl, -⟩ := List.cons.inj hrest
        exact isHexPrefixChar_of_digit (isDigitOrDot_of_isDigit (htext y (by simp)))
    simp [hx]
  · rfl

theorem numberToken_of_numToken {text : Bytes} {number : Token F} (h : numToken text = .ok number) :
    numberToken conv text = .ok number := by
  cases hn : int63OfString text with
  | some n =>
    rw [numToken, hn] at h
    rw [numberToken, hn]
    exact h
  | none =>
    rw [numToken, hn] at h
    cases h

theorem lexToken_later (h : lexToken c rest = .ok (token, remaining))
    (hlex : lex remaining = .ok tokens) :
    JsonParser.lexToken conv c rest = .ok (token, remaining) ∧ hexPrefix (c :: rest) = none := by
  cases hc : isDigit c with
  | false =>
    refine ⟨lexToken_eq conv hc h, hexPrefix_of_ne ?_ rest⟩
    rintro rfl
    cases hc
  | true =>
    rw [lexToken_digit hc] at h
    obtain ⟨number, hnumber, hpair⟩ := Raises.map_ok h
    cases hpair
    have hsplit := List.takeWhile_append_dropWhile (p := isDigit) (l := c :: rest)
    have htext := takeWhile_all isDigit (c :: rest)
    have hne : (c :: rest).takeWhile isDigit ≠ [] := by
      rw [List.takeWhile_cons_of_pos hc]
      exact List.cons_ne_nil _ _
    obtain ⟨hdigit, hhex⟩ := lex_head hlex (stops_dropWhile isDigit (c :: rest))
    have hprefix := hexPrefix_digits htext hhex hne
    have hfirst := First.number hne (fun x hx => isDigitOrDot_of_isDigit (htext x hx)) hdigit
      hprefix
      (numberToken_of_numToken conv hnumber)
    rw [hsplit] at hfirst hprefix
    exact ⟨lexToken_of_first hfirst, hprefix⟩

/-- **What this version lexes the later versions lex alike.** -/
theorem lex_later {chars : Bytes} (h : lex chars = .ok tokens) :
    JsonParser.lex conv chars = .ok tokens ∧ JsonParserCustom.lex conv chars = .ok tokens := by
  refine Steps.lex_induction (motive := fun chars tokens =>
    JsonParser.lex conv chars = .ok tokens ∧ JsonParserCustom.lex conv chars = .ok tokens)
    ⟨JsonParser.lex_nil conv, JsonParserCustom.lex_nil⟩ ?_ h
  rintro c rest token remaining tokens hstep hlex ⟨hjson, hcustom⟩
  obtain ⟨hlater, hhex⟩ := lexToken_later conv hstep hlex
  constructor
  · rw [JsonParser.lex_cons conv hlater, hjson]
    rfl
  · rw [JsonParserCustom.lex_cons hhex hlater, hcustom]
    rfl

/-- The later versions return the same value, or raise the same exception. -/
theorem parseJson_eq {str : Bytes} (h : lex str = .ok tokens) :
    JsonParser.parseJson conv str = parseJson str ∧
      JsonParserCustom.parseJson conv str = parseJson str := by
  obtain ⟨hjson, hcustom⟩ := lex_later conv h
  rw [JsonParser.parseJson, JsonParserCustom.parseJson, parseJson, hjson, hcustom, h]
  exact ⟨rfl, rfl⟩

end Later

/-- The tokens that this version makes. -/
def Natural : Token F → Prop
  | .floatTok _ => False
  | .str s => 34 ∉ s
  | .intTok n => 0 ≤ n.val
  | _ => True

section Read

variable {c : UInt8} {rest remaining : Bytes} {token : Token F} {tokens : List (Token F)}

theorem natural_punctuation (h : punctuation c = some token) : Natural token := by
  unfold punctuation at h
  split_ifs at h <;> cases h <;> exact trivial

theorem natural_word {text : Bytes} (h : (text, token) ∈ wordTokens) : Natural token := by
  simp only [wordTokens, List.mem_cons, Prod.mk.injEq, List.not_mem_nil, or_false] at h
  rcases h with ⟨-, rfl⟩ | ⟨-, rfl⟩ | ⟨-, rfl⟩ <;> exact trivial

theorem parseBase_digits {text : Bytes} (htext : ∀ x ∈ text, isDigit x = true) :
    parseSign text = (false, text) ∧ parseBase text = (10, true, text) := by
  constructor
  · unfold parseSign
    split
    · exact absurd (htext 45 List.mem_cons_self) (by decide)
    · exact absurd (htext 43 List.mem_cons_self) (by decide)
    · rfl
  · unfold parseBase
    split
    · rename_i x s
      have hx := htext x (by simp)
      split_ifs with h1 h2 h3 h4
      · rcases h1 with rfl | rfl <;> cases hx
      · rcases h2 with rfl | rfl <;> cases hx
      · rcases h3 with rfl | rfl <;> cases hx
      · rcases h4 with rfl | rfl <;> cases hx
      · rfl
    · rfl

theorem nonneg_of_digits {text : Bytes} {n : ℤ} (htext : ∀ x ∈ text, isDigit x = true)
    (h : intOfString text = some n) : 0 ≤ n := by
  obtain ⟨hsign, hbase⟩ := parseBase_digits htext
  simp only [intOfString, hsign, hbase] at h
  split at h
  · cases h
  · split at h
    · cases h
    · split at h
      · cases h
      · rw [inRange, Option.ite_none_right_eq_some, Option.some.injEq] at h
        exact h.2 ▸ Int.natCast_nonneg _

theorem natural_numToken {text : Bytes} (htext : ∀ x ∈ text, isDigit x = true)
    (h : numToken text = .ok token) : Natural token := by
  rw [numToken] at h
  split at h
  · rename_i n hn
    cases h
    obtain ⟨m, hm, hint, rfl⟩ := Option.pmap_eq_some_iff.mp hn
    exact nonneg_of_digits htext hint
  · cases h

theorem natural_lexToken (h : lexToken c rest = .ok (some token, remaining)) : Natural token := by
  cases hc : isDigit c with
  | true =>
    rw [lexToken_digit hc] at h
    obtain ⟨number, hnumber, hpair⟩ := Raises.map_ok h
    cases hpair
    exact natural_numToken (takeWhile_all isDigit (c :: rest)) hnumber
  | false =>
    obtain ⟨text, -, hlexeme⟩ := lexeme_of_lexToken (lexToken_eq ⟨fun _ => none, fun _ => []⟩ hc h)
    cases hlexeme with
    | punctuation hpunctuation => exact natural_punctuation hpunctuation
    | string hquote => exact hquote
    | word hword => exact natural_word hword
    | hex => cases hc
    | number hs hnumber =>
      -- This version has no token that begins so.
      rw [lexToken_unknown hc (.inl (hs c List.mem_cons_self))] at h
      cases h

theorem natural_lex {chars : Bytes} (h : lex chars = .ok tokens) :
    ∀ token ∈ tokens, Natural token :=
  Steps.forall_mem_lex (fun _ _ _ _ hstep => natural_lexToken hstep) h

/-- No value that is read holds a negative number, a float, or a string with a double quote. -/
theorem natural_parseJson {str : Bytes} {j : Json F} (h : parseJson str = .ok j) :
    ∀ token ∈ toks j, Natural token := by
  obtain ⟨tokens, hlex, h⟩ := Raises.bind_ok h
  obtain ⟨k, hread⟩ := parse_whole_iff.mp h
  intro token htoken
  exact natural_lex hlex token (hread.sublist.1.subset htoken)

/-- **The later versions extend this one.** A text that this version lexes is lexed to the same
tokens by both later versions, and then read as the same value, or they raise the same exception; a
value that this version returns is returned by both, and holds neither a float, nor a negative
number, nor a string with a double quote. -/
theorem later_versions (conv : FloatConv F) (str : Bytes) :
    (∀ tokens : List (Token F), lex str = .ok tokens →
      JsonParser.lex conv str = .ok tokens ∧ JsonParserCustom.lex conv str = .ok tokens ∧
      JsonParser.parseJson conv str = parseJson str ∧
        JsonParserCustom.parseJson conv str = parseJson str) ∧
    ∀ j : Json F, parseJson str = .ok j → JsonParser.parseJson conv str = .ok j ∧
      JsonParserCustom.parseJson conv str = .ok j ∧ ∀ token ∈ toks j, Natural token := by
  constructor
  · intro tokens hlex
    obtain ⟨hjson, hcustom⟩ := lex_later conv hlex
    exact ⟨hjson, hcustom, parseJson_eq conv hlex⟩
  · intro j h
    obtain ⟨tokens, hlex, -⟩ := Raises.bind_ok h
    obtain ⟨hjson, hcustom⟩ := parseJson_eq conv hlex
    rw [hjson, hcustom]
    exact ⟨h, h, natural_parseJson h⟩

end Read

section Print

variable (conv : FloatConv F)

def spell : Token F → Bytes
  | .lBrace => bytes "\x7b"
  | .rBrace => bytes "\x7d"
  | .lBracket => bytes "["
  | .rBracket => bytes "]"
  | .colon => bytes ": "
  | .comma => bytes ", "
  | .str s => bytes "\"" ++ s ++ bytes "\""
  | .intTok n => stringOfInt n
  | .floatTok f => conv.stringOfFloat f
  | .bool b => if b then bytes "true" else bytes "false"
  | .null => bytes "null"

def spelled (tokens : List (Token F)) : Bytes := tokens.flatMap (spell conv)

@[simp]
theorem spelled_nil : spelled conv [] = [] := rfl

@[simp]
theorem spelled_cons (token : Token F) (tokens : List (Token F)) :
    spelled conv (token :: tokens) = spell conv token ++ spelled conv tokens := rfl

@[simp]
theorem spelled_append (tokens tokens' : List (Token F)) :
    spelled conv (tokens ++ tokens') = spelled conv tokens ++ spelled conv tokens' := by
  simp [spelled]

theorem spelled_intercalate (xs : List (List (Token F))) :
    spelled conv ([.comma].intercalate xs) = stringConcat (bytes ", ") (xs.map (spelled conv)) := by
  induction xs with
  | nil => rfl
  | cons x xs ih =>
    cases xs with
    | nil => simp [stringConcat]
    | cons y xs =>
      rw [List.intercalate_cons_cons, List.map_cons, List.map_cons, stringConcat_cons_cons,
        ← List.map_cons, ← ih]
      simp [spell]

mutual

theorem toString_spelled : (j : Json F) → j.toString conv = spelled conv (toks j)
  | .null | .bool _ | .int _ | .float _ | .string _ => by simp [Json.toString, toks, spell]
  | .array elems => by
    simp [Json.toString, toks, spell, spelled_intercalate, elemsStr_spelled elems]
  | .object fields => by
    simp [Json.toString, toks, spell, spelled_intercalate, fieldStrs_spelled fields]

theorem elemsStr_spelled : (elems : List (Json F)) →
    elemsStr conv elems = (elemToks elems).map (spelled conv)
  | [] => rfl
  | v :: elems => by
    rw [elemsStr, elemToks, List.map_cons, toString_spelled v, elemsStr_spelled elems]

theorem fieldStrs_spelled : (fields : List (Bytes × Json F)) →
    fieldStrs conv fields = (fieldToks fields).map (spelled conv)
  | [] => rfl
  | (k, v) :: fields => by
    rw [fieldStrs, fieldToks, List.map_cons, toString_spelled v, fieldStrs_spelled fields]
    simp [spell, bytes]

end

end Print

/-- The token ends a number that stands before it. -/
def Closes (token : Token F) : Prop := token = .comma ∨ token = .rBracket ∨ token = .rBrace

/-- Every number is followed by such a token, or by none. -/
def Spaced (tokens : List (Token F)) : Prop :=
  tokens.IsChain fun token next => (∃ n, token = .intTok n) → Closes next

section Spaced

variable {token : Token F} {tokens tokens' : List (Token F)}

theorem Spaced.cons (h : Spaced tokens) (hne : ∀ n, token ≠ .intTok n) :
    Spaced (token :: tokens) := by
  rw [Spaced, List.isChain_cons]
  refine ⟨?_, h⟩
  rintro next - ⟨n, rfl⟩
  exact absurd rfl (hne n)

theorem Spaced.append (h : Spaced tokens) (hcloses : Closes token) (h' : Spaced tokens') :
    Spaced (tokens ++ token :: tokens') := by
  have hcons : Spaced (token :: tokens') := by
    apply h'.cons
    rintro n rfl
    rcases hcloses with hn | hn | hn <;> cases hn
  rw [Spaced, List.isChain_append]
  refine ⟨h, hcons, ?_⟩
  intro last _ next hnext _
  obtain rfl := Option.some.inj hnext
  exact hcloses

mutual

theorem spaced_toks : (j : Json F) → Spaced (toks j)
  | .null | .bool _ | .int _ | .float _ | .string _ => List.isChain_singleton _
  | .array elems => by
    have hclosed := (spaced_elemToks elems).append (.inr (.inl rfl)) List.isChain_nil
    exact hclosed.cons (by simp)
  | .object fields => by
    have hclosed := (spaced_fieldToks fields).append (.inr (.inr rfl)) List.isChain_nil
    exact hclosed.cons (by simp)

theorem spaced_elemToks : (elems : List (Json F)) → Spaced ([.comma].intercalate (elemToks elems))
  | [] => List.isChain_nil
  | [v] => by
    rw [elemToks, elemToks, List.intercalate_singleton]
    exact spaced_toks v
  | v :: w :: elems => by
    rw [intercalate_elemToks_cons (List.cons_ne_nil _ _)]
    exact (spaced_toks v).append (.inl rfl) (spaced_elemToks (w :: elems))

theorem spaced_fieldToks : (fields : List (Bytes × Json F)) →
    Spaced ([.comma].intercalate (fieldToks fields))
  | [] => List.isChain_nil
  | [(key, v)] => by
    rw [fieldToks, fieldToks, List.intercalate_singleton]
    exact ((spaced_toks v).cons (by simp)).cons (by simp)
  | (key, v) :: field :: fields => by
    rw [intercalate_fieldToks_cons (List.cons_ne_nil _ _)]
    have hvalue := (spaced_toks v).append (.inl rfl) (spaced_fieldToks (field :: fields))
    exact (hvalue.cons (by simp)).cons (by simp)

end

end Spaced

section RoundTrip

variable {tokens : List (Token F)} (conv : FloatConv F)

theorem lexToken_string {s : Bytes} (hs : 34 ∉ s) (rest : Bytes) :
    (lexToken 34 (s ++ 34 :: rest) : Raises (Option (Token F) × Bytes)) =
      .ok (some (.str s), rest) :=
  lexString_some hs rest

theorem isDigit_digit {d : ℕ} (hd : d < 10) : isDigit (digit d) = true := by
  interval_cases d <;> decide

theorem stops_spelled (h : ∀ token, tokens.head? = some token → Closes token) :
    Stops isDigit (spelled conv tokens) := by
  cases tokens with
  | nil => simp [Stops]
  | cons token tokens =>
    intro c hc
    rcases h token rfl with rfl | rfl | rfl <;>
    · obtain rfl := Option.some.inj hc
      rfl

theorem lexToken_natural {n : Int63} (hn : 0 ≤ n.val) {rest : Bytes} (hstop : Stops isDigit rest) :
    ∃ c s, stringOfInt n ++ rest = c :: s ∧
      (lexToken c s : Raises (Option (Token F) × Bytes)) = .ok (some (.intTok n), rest) := by
  obtain ⟨m, hm⟩ := Int.eq_ofNat_of_zero_le hn
  have hdecimal : stringOfInt n = decimal m := by rw [hm, stringOfInt_natCast]
  have hdigits : ∀ x ∈ stringOfInt n, isDigit x = true := by
    intro x hx
    obtain ⟨d, hd, rfl⟩ := mem_decimal (hdecimal ▸ hx)
    exact isDigit_digit hd
  obtain ⟨d, s, hd, hcons, -⟩ := decimal_cons m
  obtain ⟨htake, hdrop⟩ := hstop.takeWhile hdigits
  have htoken : (numToken (stringOfInt n) : Raises (Token F)) = .ok (.intTok n) := by
    rw [numToken, int63OfString_stringOfInt]
  have htext : stringOfInt n ++ rest = digit d :: (s ++ rest) := by
    rw [hdecimal, hcons, List.cons_append]
  refine ⟨digit d, s ++ rest, htext, ?_⟩
  rw [lexToken_digit (isDigit_digit hd), ← htext, htake, hdrop, htoken]
  rfl

theorem lex_spelled (hspaced : Spaced tokens) (h : ∀ token ∈ tokens, Natural token) :
    lex (spelled conv tokens) = .ok tokens := by
  induction tokens with
  | nil => exact lex_nil
  | cons token tokens ih =>
    have hnatural := h token List.mem_cons_self
    rw [Spaced, List.isChain_cons] at hspaced
    have hlex := ih hspaced.2 fun token htoken => h token (List.mem_cons_of_mem _ htoken)
    rw [spelled_cons]
    cases token with
    | lBrace | rBrace | lBracket | rBracket => exact Steps.lex_token rfl hlex
    | colon | comma => exact Steps.lex_token rfl (Steps.lex_blank rfl hlex)
    | null =>
      have hword : (lexToken 110 (bytes "ull" ++ spelled conv tokens) :
        Raises (Option (Token F) × Bytes)) = .ok (some .null, spelled conv tokens) := rfl
      exact Steps.lex_token hword hlex
    | bool b =>
      cases b with
      | true =>
        have hword : (lexToken 116 (bytes "rue" ++ spelled conv tokens) :
          Raises (Option (Token F) × Bytes)) = .ok (some (.bool true), spelled conv tokens) := rfl
        exact Steps.lex_token hword hlex
      | false =>
        have hword : (lexToken 102 (bytes "alse" ++ spelled conv tokens) :
          Raises (Option (Token F) × Bytes)) = .ok (some (.bool false), spelled conv tokens) := rfl
        exact Steps.lex_token hword hlex
    | str s =>
      have htext : spell conv (.str s) ++ spelled conv tokens =
          34 :: (s ++ 34 :: spelled conv tokens) := by
        simp [spell, bytes]
      rw [htext]
      exact Steps.lex_token (lexToken_string hnatural _) hlex
    | intTok n =>
      have hstop := stops_spelled conv fun next hnext => hspaced.1 next hnext ⟨n, rfl⟩
      obtain ⟨c, s, htext, hstep⟩ := lexToken_natural hnatural hstop
      rw [spell, htext]
      exact Steps.lex_token hstep hlex
    | floatTok f => exact absurd hnatural id

/-- **What this version reads of what it prints.** A value without floats is read back exactly if it
holds neither a negative number nor a string with a double quote. -/
theorem printed_read_iff (conv : FloatConv Empty) (j : Json Empty) :
    parseJson (j.toString conv) = .ok j ↔ j.QuoteFree ∧ ∀ n, .intTok n ∈ toks j → 0 ≤ n.val := by
  constructor
  · intro h
    have hnatural := natural_parseJson h
    exact ⟨fun s hs => hnatural (.str s) hs, fun n hn => hnatural (.intTok n) hn⟩
  · rintro ⟨hquote, hint⟩
    have hnatural : ∀ token ∈ toks j, Natural token := by
      intro token htoken
      cases token with
      | str s => exact hquote s htoken
      | intTok n => exact hint n htoken
      | floatTok f => exact f.elim
      | _ => exact trivial
    have hlex := lex_spelled conv (spaced_toks j) hnatural
    have hparse := (reads_toks j).parse []
    rw [List.append_nil] at hparse
    rw [toString_spelled, parseJson, hlex, Raises.ok_bind, hparse, Raises.ok_bind]
    rfl

end RoundTrip

end OCamlStudy.IntJson
