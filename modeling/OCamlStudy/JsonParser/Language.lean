import OCamlStudy.JsonParser.Outside
import OCamlStudy.JsonParser.Hex

/-! # The texts that are read

Which texts the parser reads, and as which values: the text is cut into lexemes,
where a number goes on as far as it can, and their tokens are those of a value.
White space between two lexemes changes nothing.
-/

namespace OCamlStudy.JsonParser

open OCaml

variable {F : Type} {conv : FloatConv F}

/-- A text cut into lexemes, and their tokens. -/
inductive Laid (conv : FloatConv F) : Bytes → List (Token F) → Prop
  | nil : Laid conv [] []
  | cons {chars rest : Bytes} {token : Option (Token F)} {tokens : List (Token F)}
      (h : First conv chars token rest) (hrest : Laid conv rest tokens) :
      Laid conv chars (token.toList ++ tokens)

section Step

variable {c : UInt8} {rest remaining chars : Bytes} {token : Option (Token F)}
  {belongs : UInt8 → Bool}

theorem Stops.takeWhile (h : Stops belongs rest) {text : Bytes}
    (htext : ∀ c ∈ text, belongs c = true) : (text ++ rest).takeWhile belongs = text ∧
      (text ++ rest).dropWhile belongs = rest := by
  have hrest : rest.takeWhile belongs = [] ∧ rest.dropWhile belongs = rest := by
    cases rest with
    | nil => exact ⟨rfl, rfl⟩
    | cons c rest =>
      have hc := h c rfl
      exact ⟨List.takeWhile_cons_of_neg (by simp [hc]), List.dropWhile_cons_of_neg (by simp [hc])⟩
  rw [List.takeWhile_append_of_pos htext, List.dropWhile_append_of_pos htext, hrest.1, hrest.2]
  exact ⟨List.append_nil _, rfl⟩

theorem not_blank_of_punctuation {token : Token F} (h : punctuation c = some token) :
    ¬ Blank c := by
  rintro (rfl | rfl | rfl | rfl) <;> cases h

theorem isDigitOrDot_cases (h : isDigitOrDot c = true) :
    ¬ Blank c ∧ (punctuation c : Option (Token F)) = none ∧ c ≠ 34 ∧
      ∀ rest, (word (c :: rest) : Option (Token F × Bytes)) = none := by
  have hne : ∀ d, isDigitOrDot d = false → c ≠ d := by
    rintro d hd rfl
    rw [hd] at h
    cases h
  refine ⟨?_, ?_, hne 34 rfl, ?_⟩
  · rintro (rfl | rfl | rfl | rfl) <;> cases h
  · rw [punctuation, if_neg (hne 123 rfl), if_neg (hne 125 rfl), if_neg (hne 91 rfl),
      if_neg (hne 93 rfl), if_neg (hne 58 rfl), if_neg (hne 44 rfl)]
  · intro rest
    unfold word
    split
    · rename_i hchars
      exact absurd (List.cons.inj hchars).1 (hne 116 rfl)
    · rename_i hchars
      exact absurd (List.cons.inj hchars).1 (hne 102 rfl)
    · rename_i hchars
      exact absurd (List.cons.inj hchars).1 (hne 110 rfl)
    · rfl

theorem lexToken_of_first (h : First conv (c :: rest) token remaining) :
    lexToken conv c rest = .ok (token, remaining) := by
  generalize hchars : c :: rest = chars at h
  cases h with
  | blank h =>
    obtain ⟨rfl, rfl⟩ := List.cons.inj hchars
    rw [lexToken, if_pos h]
  | punctuation h =>
    obtain ⟨rfl, rfl⟩ := List.cons.inj hchars
    rw [lexToken, if_neg (not_blank_of_punctuation h), h]
  | string h =>
    obtain ⟨rfl, rfl⟩ := List.cons.inj hchars
    exact lexToken_string h _
  | word h =>
    simp only [wordTokens, List.mem_cons, Prod.mk.injEq, List.not_mem_nil, or_false] at h
    rcases h with ⟨rfl, rfl⟩ | ⟨rfl, rfl⟩ | ⟨rfl, rfl⟩ <;>
    · obtain ⟨rfl, rfl⟩ := List.cons.inj hchars
      rfl
  | @hex x digits _ token hx hdigits hstop h =>
    obtain ⟨rfl, rfl⟩ := List.cons.inj hchars
    rw [isHexPrefixChar, Bool.or_eq_true, decide_eq_true_eq, decide_eq_true_eq] at hx
    have hne : digits ≠ [] := by
      rintro rfl
      cases h
    rw [lexToken_hex hx hne hdigits hstop, h]
    rfl
  | @number text _ token hne htext hstop hhex h =>
    obtain ⟨d, s, rfl⟩ := List.exists_cons_of_ne_nil hne
    obtain ⟨rfl, rfl⟩ := List.cons.inj hchars
    have hdigit := htext c List.mem_cons_self
    obtain ⟨hblank, hpunctuation, hquote, hword⟩ := isDigitOrDot_cases (F := F) hdigit
    obtain ⟨htake, hdrop⟩ := hstop.takeWhile htext
    have hscan : lexNumber conv [] (c :: (s ++ remaining)) = .ok (token, remaining) := by
      rw [lexNumber, scan_eq, List.reverse_nil, List.nil_append]
      rw [List.cons_append] at htake hdrop
      rw [htake, hdrop, h]
      rfl
    rw [List.cons_append] at hhex
    change lexToken conv c (s ++ remaining) = _
    rw [lexToken, if_neg hblank, hpunctuation]
    dsimp only
    rw [if_neg hquote, hword]
    dsimp only
    rw [hhex]
    dsimp only
    rw [if_pos hdigit, hscan]
    rfl

end Step

theorem laid_of_lex {chars : Bytes} {tokens : List (Token F)} (h : lex conv chars = .ok tokens) :
    Laid conv chars tokens := by
  refine Steps.lex_induction (motive := Laid conv) .nil ?_ h
  intro c rest token remaining tokens hstep _ ih
  exact .cons (first_of_lexToken hstep) ih

theorem First.ne_nil {chars rest : Bytes} {token : Option (Token F)}
    (h : First conv chars token rest) : chars ≠ [] := by
  obtain ⟨c, s, rfl, -⟩ := h.lexeme
  exact List.cons_ne_nil _ _

theorem Laid.lex {chars : Bytes} {tokens : List (Token F)} (h : Laid conv chars tokens) :
    lex conv chars = .ok tokens := by
  induction h with
  | nil => exact lex_nil conv
  | cons h _ ih =>
    obtain ⟨c, s, rfl⟩ := List.exists_cons_of_ne_nil h.ne_nil
    rw [lex_cons conv (lexToken_of_first h), ih]
    rfl

theorem lex_eq_ok_iff {chars : Bytes} {tokens : List (Token F)} :
    JsonParser.lex conv chars = .ok tokens ↔ Laid conv chars tokens :=
  ⟨laid_of_lex, Laid.lex⟩

section Blanks

variable {text chars rest : Bytes} {tokens tokens' : List (Token F)} {token : Option (Token F)}

theorem laid_blanks (hblank : ∀ c ∈ text, Blank c) (h : Laid conv chars tokens) :
    Laid conv (text ++ chars) tokens := by
  induction text with
  | nil => exact h
  | cons c text ih =>
    have hrest := ih fun c hc => hblank c (List.mem_cons_of_mem _ hc)
    exact .cons (.blank (hblank c List.mem_cons_self)) hrest

theorem stops_append {belongs : UInt8 → Bool} (h : Stops belongs rest)
    (hchars : Stops belongs chars) : Stops belongs (rest ++ chars) := by
  cases rest with
  | nil => exact hchars
  | cons c rest => exact h

theorem stops_blank {belongs : UInt8 → Bool} (hbelongs : ∀ c, Blank c → belongs c = false)
    (hne : text ≠ []) (hblank : ∀ c ∈ text, Blank c) (chars : Bytes) :
    Stops belongs (text ++ chars) := by
  obtain ⟨c, s, rfl⟩ := List.exists_cons_of_ne_nil hne
  intro d hd
  obtain rfl := Option.some.inj hd
  exact hbelongs c (hblank c List.mem_cons_self)

theorem hexPrefix_of_ne {c : UInt8} (hc : c ≠ 48) (rest : Bytes) :
    hexPrefix (c :: rest) = none := by
  unfold hexPrefix
  split
  · rename_i hchars
    exact absurd (List.cons.inj hchars).1 hc
  · rfl

theorem hexPrefix_cons_cons (x : UInt8) (rest : Bytes) : hexPrefix (48 :: x :: rest) =
    if isHexPrefixChar x && isHexDigit (rest.head?.getD 32) then some rest else none := rfl

theorem hexPrefix_append_blanks (h : hexPrefix chars = none) (hne : text ≠ [])
    (hblank : ∀ c ∈ text, Blank c) (after : Bytes) :
    hexPrefix (chars ++ (text ++ after)) = none := by
  obtain ⟨d, s, rfl⟩ := List.exists_cons_of_ne_nil hne
  have hd : isHexPrefixChar d = false ∧ isHexDigit d = false ∧ d ≠ 48 := by
    rcases hblank d List.mem_cons_self with rfl | rfl | rfl | rfl <;> decide
  rcases chars with _ | ⟨c, chars⟩
  · exact hexPrefix_of_ne hd.2.2 _
  by_cases hc : c = 48
  · subst hc
    rcases chars with _ | ⟨x, _ | ⟨y, rest⟩⟩
    · simp [hexPrefix_cons_cons, hd.1]
    · simp [hexPrefix_cons_cons, hd.2.1]
    · rw [hexPrefix_cons_cons, List.head?_cons] at h
      rw [List.cons_append, List.cons_append, List.cons_append, hexPrefix_cons_cons,
        List.head?_cons]
      split_ifs at h ⊢
      rfl
  · exact hexPrefix_of_ne hc _

theorem First.append (h : First conv chars token rest) {text : Bytes} (hne : text ≠ [])
    (hblank : ∀ c ∈ text, Blank c) (after : Bytes) :
    First conv (chars ++ (text ++ after)) token (rest ++ (text ++ after)) := by
  have hhexDigit : Stops isHexDigit (text ++ after) :=
    stops_blank (by rintro c (rfl | rfl | rfl | rfl) <;> rfl) hne hblank after
  have hdigit : Stops isDigitOrDot (text ++ after) :=
    stops_blank (by rintro c (rfl | rfl | rfl | rfl) <;> rfl) hne hblank after
  cases h with
  | blank h => exact .blank h
  | punctuation h => exact .punctuation h
  | @string s rest h =>
    rw [List.cons_append, List.append_assoc, List.cons_append]
    exact .string h
  | word h =>
    rw [List.append_assoc]
    exact .word h
  | hex hx hdigits hstop h =>
    rw [List.cons_append, List.cons_append, List.append_assoc]
    exact .hex hx hdigits (stops_append hstop hhexDigit) h
  | number hne' htext hstop hhex h =>
    have hhex' := hexPrefix_append_blanks hhex hne hblank after
    rw [List.append_assoc] at hhex' ⊢
    exact .number hne' htext (stops_append hstop hdigit) hhex' h

/-- **White space between two lexemes.** -/
theorem Laid.append_blanks (h : Laid conv chars tokens) (hne : text ≠ [])
    (hblank : ∀ c ∈ text, Blank c) {after : Bytes} (h' : Laid conv after tokens') :
    Laid conv (chars ++ (text ++ after)) (tokens ++ tokens') := by
  induction h with
  | nil =>
    rw [List.nil_append, List.nil_append]
    exact laid_blanks hblank h'
  | cons h _ ih =>
    rw [List.append_assoc]
    exact .cons (h.append hne hblank after) ih

end Blanks

theorem parseJson_eq_ok_iff {str : Bytes} {v : Json F} : parseJson conv str = .ok v ↔
    ∃ tokens k, Laid conv str tokens ∧ Reads v tokens k := by
  rw [parseJson]
  constructor
  · intro h
    obtain ⟨tokens, hlex, h⟩ := Raises.bind_ok h
    obtain ⟨k, hread⟩ := parse_whole_iff.mp h
    exact ⟨tokens, k, lex_eq_ok_iff.mp hlex, hread⟩
  · rintro ⟨tokens, k, hlaid, hread⟩
    rw [lex_eq_ok_iff.mpr hlaid, Raises.ok_bind]
    exact parse_whole_iff.mpr ⟨k, hread⟩

/-- **The texts that the parser reads.** It reads a text as a value if the text can be cut into
lexemes whose tokens are those of the value, and only then; white space put between two lexemes
changes neither the value nor the error. -/
theorem parseJson_language :
    (∀ (str : Bytes) (v : Json F), parseJson conv str = .ok v ↔
      ∃ tokens k, Laid conv str tokens ∧ Reads v tokens k) ∧
    ∀ (before text after : Bytes) (tokens tokens' : List (Token F)), text ≠ [] →
      (∀ c ∈ text, Blank c) → Laid conv before tokens → Laid conv after tokens' →
      Laid conv (before ++ after) (tokens ++ tokens') →
        parseJson conv (before ++ (text ++ after)) = parseJson conv (before ++ after) := by
  refine ⟨fun _ _ => parseJson_eq_ok_iff, ?_⟩
  intro before text after tokens tokens' hne hblank hbefore hafter hboth
  have hlaid := hbefore.append_blanks hne hblank hafter
  rw [parseJson, parseJson, hlaid.lex, hboth.lex]

/-- The text `[31,true]` with a blank and a line end after the comma. -/
theorem parseJson_language_spaced :
    parseJson zeroFloat (bytes "[31," ++ (bytes " \n" ++ bytes "true]")) =
      .ok (.array [.int ⟨31, by decide⟩, .bool true]) := by
  have hnum : lexToken zeroFloat 51 (bytes "1,") =
      .ok (some (.intTok ⟨31, by decide⟩), bytes ",") := rfl
  have hnum' : lexToken zeroFloat 51 (bytes "1,true]") =
      .ok (some (.intTok ⟨31, by decide⟩), bytes ",true]") := rfl
  have htrue : lexToken zeroFloat 116 (bytes "rue]") = .ok (some (.bool true), bytes "]") := rfl
  have hafter : lex zeroFloat (bytes "true]") = .ok [.bool true, .rBracket] :=
    Steps.lex_token htrue (Steps.lex_token rfl (lex_nil zeroFloat))
  have hbefore : lex zeroFloat (bytes "[31,") = .ok [.lBracket, .intTok ⟨31, by decide⟩, .comma] :=
    Steps.lex_token rfl (Steps.lex_token hnum (Steps.lex_token rfl (lex_nil zeroFloat)))
  have hboth : lex zeroFloat (bytes "[31,true]") =
      .ok [.lBracket, .intTok ⟨31, by decide⟩, .comma, .bool true, .rBracket] :=
    Steps.lex_token rfl (Steps.lex_token hnum' (Steps.lex_token rfl hafter))
  have hread : Reads (.array [.int ⟨31, by decide⟩, .bool true])
      ([.lBracket, .intTok ⟨31, by decide⟩, .comma, .bool true, .rBracket] : List (Token Unit)) 0 :=
    .array (.cons (.int _) (.last (.bool true)))
  obtain ⟨hreads, hspaced⟩ := @parseJson_language Unit zeroFloat
  have hblank : ∀ c ∈ bytes " \n", Blank c := by simp [bytes, Blank]
  rw [hspaced (bytes "[31,") (bytes " \n") (bytes "true]") _ _ (by decide) hblank
    (laid_of_lex hbefore) (laid_of_lex hafter) (laid_of_lex hboth)]
  exact (hreads _ _).mpr ⟨_, _, laid_of_lex hboth, hread⟩

end OCamlStudy.JsonParser
