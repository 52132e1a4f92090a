import OCamlStudy.JsonParser.Grammar

/-! # Printing and parsing

The printer does not escape the double quote, so a value is read back from its
text exactly if no string in it holds one. Every value that the parser returns
is of this kind.
-/

namespace OCamlStudy.JsonParser

open OCaml

variable {F : Type} {conv : FloatConv F}

/-- The printer writes the token as the lexer reads it. -/
def Token.Printable : Token F → Prop
  | .floatTok _ => False
  | .str s => 34 ∉ s
  | _ => True

def Delimited (t : Bytes) : Prop :=
  ∀ c, t.head? = some c → isDigitOrDot c = false ∧ isHexPrefixChar c = false

theorem delimited_nil : Delimited [] := nofun

theorem delimited_cons {c : UInt8} {t : Bytes} (h : isDigitOrDot c = false)
    (h' : isHexPrefixChar c = false) : Delimited (c :: t) := by
  rintro x hx
  obtain rfl := Option.some.inj hx
  exact ⟨h, h'⟩

theorem delimited_separator (t : Bytes) : Delimited (bytes ", " ++ t) := delimited_cons rfl rfl

section Steps

variable {t : Bytes} {ts : List (Token F)}

theorem lex_separator (hlex : lex conv t = .ok ts) :
    lex conv (bytes ", " ++ t) = .ok (.comma :: ts) :=
  Steps.lex_token rfl (Steps.lex_blank rfl hlex)

theorem lexToken_string {s : Bytes} (hs : 34 ∉ s) (rest : Bytes) :
    lexToken conv 34 (s ++ 34 :: rest) = .ok (some (.str s), rest) :=
  lexString_some hs rest

theorem isDigitOrDot_digit {d : ℕ} (hd : d < 10) : isDigitOrDot (digit d) = true := by
  interval_cases d <;> decide

theorem lexToken_number {c : UInt8} (hc : c = 45 ∨ ∃ d < 10, c = digit d) {rest : Bytes}
    (hx : hexPrefix (c :: rest) = none) : lexToken conv c rest =
      lexNumber conv [] (c :: rest) >>= fun p => .ok (some p.1, p.2) := by
  have hcases : ¬ (c = 32 ∨ c = 10 ∨ c = 13 ∨ c = 9) ∧ (punctuation c : Option (Token F)) = none ∧
      c ≠ 34 ∧ (word (c :: rest) : Option (Token F × Bytes)) = none ∧ isDigitOrDot c = true := by
    rcases hc with rfl | ⟨d, hd, rfl⟩
    · exact ⟨by decide, rfl, by decide, rfl, by decide⟩
    · interval_cases d <;> exact ⟨by decide, rfl, by decide, rfl, by decide⟩
  obtain ⟨hspace, hpunctuation, hquote, hword, hdigit⟩ := hcases
  rw [lexToken, if_neg hspace, hpunctuation]
  dsimp only
  rw [if_neg hquote, hword]
  dsimp only
  rw [hx]
  dsimp only
  rw [if_pos hdigit]
  rfl

theorem isDigitOrDot_of_mem_decimal {n : ℕ} {x : UInt8} (hx : x ∈ decimal n) :
    isDigitOrDot x = true := by
  obtain ⟨d, hd, rfl⟩ := mem_decimal hx
  exact isDigitOrDot_digit hd

theorem stringOfInt_cons (n : ℤ) : ∃ c s, stringOfInt n = c :: s ∧
    (c = 45 ∨ ∃ d < 10, c = digit d) ∧ ∀ x ∈ c :: s, isDigitOrDot x = true := by
  cases n with
  | ofNat n =>
    obtain ⟨d, s, hd, heq, _⟩ := decimal_cons n
    refine ⟨digit d, s, heq, Or.inr ⟨d, hd, rfl⟩, ?_⟩
    rintro x hx
    exact isDigitOrDot_of_mem_decimal (heq ▸ hx)
  | negSucc n =>
    refine ⟨45, decimal (n + 1), rfl, Or.inl rfl, ?_⟩
    rintro x hx
    rcases List.mem_cons.mp hx with rfl | hx
    · decide
    · exact isDigitOrDot_of_mem_decimal hx

theorem isHexPrefixChar_of_digit {x : UInt8} (h : isDigitOrDot x = true) :
    isHexPrefixChar x = false := by
  rw [isHexPrefixChar, Bool.or_eq_false_iff, decide_eq_false_iff_not, decide_eq_false_iff_not]
  constructor <;> rintro rfl <;> cases h

theorem lex_number {c : UInt8} {s : Bytes} {token : Token F} (hc : c = 45 ∨ ∃ d < 10, c = digit d)
    (hall : ∀ x ∈ c :: s, isDigitOrDot x = true) (htoken : numberToken conv (c :: s) = .ok token)
    (ht : Delimited t) (hlex : lex conv t = .ok ts) :
    lex conv (c :: s ++ t) = .ok (token :: ts) := by
  have hx : hexPrefix (c :: (s ++ t)) = none := by
    unfold hexPrefix
    split
    · rename_i x rest hchars
      obtain ⟨rfl, hrest⟩ := List.cons.inj hchars
      have hinitial : isHexPrefixChar x = false := by
        cases s with
        | nil => exact (ht x (by rw [← List.nil_append t, hrest]; rfl)).2
        | cons y s =>
          obtain ⟨rfl, -⟩ := List.cons.inj hrest
          exact isHexPrefixChar_of_digit (hall y (by simp))
      rw [hinitial]
      rfl
    · rfl
  have htake : (c :: s ++ t).takeWhile isDigitOrDot = c :: s ∧
      (c :: s ++ t).dropWhile isDigitOrDot = t := by
    rw [List.takeWhile_append_of_pos hall, List.dropWhile_append_of_pos hall]
    cases t with
    | nil => exact ⟨List.append_nil _, rfl⟩
    | cons x t =>
      have hx := (ht x rfl).1
      rw [List.takeWhile_cons_of_neg (by simp [hx]), List.dropWhile_cons_of_neg (by simp [hx])]
      exact ⟨List.append_nil _, rfl⟩
  have hstep : lexToken conv c (s ++ t) = .ok (some token, t) := by
    rw [lexToken_number hc hx, lexNumber, scan_eq, ← List.cons_append, htake.1, htake.2,
      List.reverse_nil, List.nil_append, htoken]
    rfl
  exact Steps.lex_token hstep hlex

theorem lex_int (n : Int63) (ht : Delimited t) (hlex : lex conv t = .ok ts) :
    lex conv (stringOfInt n ++ t) = .ok (.intTok n :: ts) := by
  obtain ⟨c, s, heq, hstart, hall⟩ := stringOfInt_cons n.val
  have htoken : numberToken conv (stringOfInt n) = .ok (.intTok n) := by
    rw [numberToken, int63OfString_stringOfInt]
  rw [heq] at htoken ⊢
  exact lex_number hstart hall htoken ht hlex

end Steps

theorem stringConcat_cons_cons (sep x y : Bytes) (xs : List Bytes) :
    stringConcat sep (x :: y :: xs) = x ++ (sep ++ stringConcat sep (y :: xs)) := by
  rw [stringConcat, List.intercalate_cons_cons, List.append_assoc]
  rfl

theorem stringConcat_singleton (sep x : Bytes) : stringConcat sep [x] = x :=
  List.intercalate_singleton

theorem lex_field {key str t : Bytes} {vts ts : List (Token F)} (hkey : 34 ∉ key)
    (hlex : lex conv (str ++ t) = .ok (vts ++ ts)) :
    lex conv (bytes "\"" ++ key ++ bytes "\": " ++ str ++ t) =
      .ok (.str key :: .colon :: vts ++ ts) := by
  have htext : bytes "\"" ++ key ++ bytes "\": " ++ str ++ t =
      34 :: (key ++ 34 :: 58 :: 32 :: (str ++ t)) := by
    simp [bytes]
  rw [htext]
  have hstring := @lexToken_string F conv key hkey (58 :: 32 :: (str ++ t))
  refine Steps.lex_token hstring ?_
  exact Steps.lex_token rfl (Steps.lex_blank rfl hlex)

/-- The printer writes the token as the lexer reads it, or writes a float so that it is read as
another. -/
def Token.PrintableAs (conv : FloatConv F) (reread : F → F) : Token F → Prop
  | .floatTok f => ∃ c s, conv.stringOfFloat f = c :: s ∧ (c = 45 ∨ ∃ d < 10, c = digit d) ∧
      (∀ x ∈ c :: s, isDigitOrDot x = true) ∧ numberToken conv (c :: s) = .ok (.floatTok (reread f))
  | .str s => 34 ∉ s
  | _ => True

section Reread

variable {reread : F → F}

mutual

/-- The text of a value is read as the tokens of the value with the floats that are reread. -/
theorem lex_toString_reread {t : Bytes} {ts : List (Token F)} : (j : Json F) →
    (∀ token ∈ toks j, token.PrintableAs conv reread) → Delimited t → lex conv t = .ok ts →
      lex conv (j.toString conv ++ t) = .ok ((toks j).map (Token.mapFloat reread) ++ ts)
  | .null, _, _, hlex => by
    have hword : lexToken conv 110 (bytes "ull" ++ t) = .ok (some .null, t) := rfl
    exact Steps.lex_token hword hlex
  | .bool true, _, _, hlex => by
    have hword : lexToken conv 116 (bytes "rue" ++ t) = .ok (some (.bool true), t) := rfl
    exact Steps.lex_token hword hlex
  | .bool false, _, _, hlex => by
    have hword : lexToken conv 102 (bytes "alse" ++ t) = .ok (some (.bool false), t) := rfl
    exact Steps.lex_token hword hlex
  | .int n, _, ht, hlex => lex_int n ht hlex
  | .float f, hp, ht, hlex => by
    obtain ⟨c, s, heq, hc, hall, htoken⟩ := hp (.floatTok f) List.mem_cons_self
    rw [Json.toString, heq]
    exact lex_number hc hall htoken ht hlex
  | .string s, hp, _, hlex => by
    have hs : 34 ∉ s := hp (.str s) List.mem_cons_self
    have htext : (Json.string s).toString conv ++ t = 34 :: (s ++ 34 :: t) := by
      simp [Json.toString, bytes]
    rw [htext]
    have hstring := @lexToken_string F conv s hs t
    exact Steps.lex_token hstring hlex
  | .array elems, hp, _, hlex => by
    have hclose : lex conv (93 :: t) = .ok (.rBracket :: ts) := Steps.lex_token rfl hlex
    have htext : (Json.array elems).toString conv ++ t =
        91 :: (stringConcat (bytes ", ") (elemsStr conv elems) ++ 93 :: t) := by
      simp [Json.toString, bytes]
    rw [htext, toks, List.map_append, List.map_cons, List.cons_append, List.cons_append,
      List.append_assoc]
    refine Steps.lex_token rfl ?_
    by_cases hempty : elems = []
    · subst hempty
      exact hclose
    · refine lex_elemsStr_reread elems hempty (fun x hx token htoken => ?_)
        (delimited_cons rfl rfl) hclose
      exact hp token (List.mem_cons_of_mem _
        (List.mem_append_left _ (mem_intercalate_of_mem hx htoken)))
  | .object fields, hp, _, hlex => by
    have hclose : lex conv (125 :: t) = .ok (.rBrace :: ts) := Steps.lex_token rfl hlex
    have htext : (Json.object fields).toString conv ++ t =
        123 :: (stringConcat (bytes ", ") (fieldStrs conv fields) ++ 125 :: t) := by
      simp [Json.toString, bytes]
    rw [htext, toks, List.map_append, List.map_cons, List.cons_append, List.cons_append,
      List.append_assoc]
    refine Steps.lex_token rfl ?_
    by_cases hempty : fields = []
    · subst hempty
      exact hclose
    · refine lex_fieldStrs_reread fields hempty (fun x hx token htoken => ?_)
        (delimited_cons rfl rfl) hclose
      exact hp token (List.mem_cons_of_mem _
        (List.mem_append_left _ (mem_intercalate_of_mem hx htoken)))

theorem lex_elemsStr_reread {t : Bytes} {ts : List (Token F)} :
    (elems : List (Json F)) → elems ≠ [] →
    (∀ x ∈ elemToks elems, ∀ token ∈ x, token.PrintableAs conv reread) →
    Delimited t → lex conv t = .ok ts →
      lex conv (stringConcat (bytes ", ") (elemsStr conv elems) ++ t) =
        .ok (([.comma].intercalate (elemToks elems)).map (Token.mapFloat reread) ++ ts)
  | [], hne, _, _, _ => absurd rfl hne
  | [v], _, hp, ht, hlex => by
    rw [elemsStr, elemsStr, stringConcat_singleton, elemToks, elemToks, List.intercalate_singleton]
    exact lex_toString_reread v (hp _ List.mem_cons_self) ht hlex
  | v :: w :: elems, _, hp, ht, hlex => by
    have hrest := lex_elemsStr_reread (w :: elems) (List.cons_ne_nil _ _)
      (fun x hx => hp x (List.mem_cons_of_mem _ hx)) ht hlex
    rw [intercalate_elemToks_cons (List.cons_ne_nil _ _), elemsStr, elemsStr,
      stringConcat_cons_cons, List.map_append, List.append_assoc, List.append_assoc,
      List.append_assoc]
    exact lex_toString_reread v (hp _ List.mem_cons_self) (delimited_separator _)
      (lex_separator hrest)

theorem lex_fieldStrs_reread {t : Bytes} {ts : List (Token F)} :
    (fields : List (Bytes × Json F)) → fields ≠ [] →
    (∀ x ∈ fieldToks fields, ∀ token ∈ x, token.PrintableAs conv reread) →
    Delimited t → lex conv t = .ok ts →
      lex conv (stringConcat (bytes ", ") (fieldStrs conv fields) ++ t) =
        .ok (([.comma].intercalate (fieldToks fields)).map (Token.mapFloat reread) ++ ts)
  | [], hne, _, _, _ => absurd rfl hne
  | [(key, v)], _, hp, ht, hlex => by
    have hfield := hp _ List.mem_cons_self
    rw [fieldStrs, fieldStrs, stringConcat_singleton, fieldToks, fieldToks,
      List.intercalate_singleton]
    exact lex_field (hfield (.str key) List.mem_cons_self)
      (lex_toString_reread v (fun token htoken =>
        hfield token (List.mem_cons_of_mem _ (List.mem_cons_of_mem _ htoken))) ht hlex)
  | (key, v) :: field :: fields, _, hp, ht, hlex => by
    have hfield := hp _ List.mem_cons_self
    have hrest := lex_fieldStrs_reread (field :: fields) (List.cons_ne_nil _ _)
      (fun x hx => hp x (List.mem_cons_of_mem _ hx)) ht hlex
    have htext : stringConcat (bytes ", ") (fieldStrs conv ((key, v) :: field :: fields)) =
        bytes "\"" ++ key ++ bytes "\": " ++ v.toString conv ++
          (bytes ", " ++ stringConcat (bytes ", ") (fieldStrs conv (field :: fields))) :=
      stringConcat_cons_cons _ _ _ _
    have hvalue := lex_toString_reread v
      (fun token htoken => hfield token (List.mem_cons_of_mem _ (List.mem_cons_of_mem _ htoken)))
      (delimited_separator _) (lex_separator hrest)
    have hfirst := lex_field (hfield (.str key) List.mem_cons_self) hvalue
    rw [htext, intercalate_fieldToks_cons (List.cons_ne_nil _ _)]
    simpa only [List.append_assoc, List.cons_append, List.map_cons, List.map_append,
      Token.mapFloat] using hfirst

end

end Reread

theorem Token.Printable.printableAs {token : Token F} (h : token.Printable) :
    token.PrintableAs conv id := by
  cases token with
  | floatTok f => exact absurd h id
  | str s => exact h
  | _ => exact trivial

theorem lex_toString {t : Bytes} {ts : List (Token F)} (j : Json F)
    (hp : ∀ token ∈ toks j, token.Printable) (ht : Delimited t) (hlex : lex conv t = .ok ts) :
    lex conv (j.toString conv ++ t) = .ok (toks j ++ ts) := by
  have hmap : (toks j).map (Token.mapFloat id) = toks j := by
    rw [List.map_congr_left fun token _ => Token.mapFloat_id token, List.map_id']
  rw [← hmap]
  exact lex_toString_reread j (fun token htoken => (hp token htoken).printableAs) ht hlex

theorem parseJson_toString_reread {reread : F → F} {j : Json F}
    (hp : ∀ token ∈ toks j, token.PrintableAs conv reread) :
    ∃ j', parseJson conv (j.toString conv) = .ok j' := by
  have hlex := lex_toString_reread j hp delimited_nil (lex_nil conv)
  obtain ⟨j', hread⟩ := (reads_toks j).mapFloat reread
  have hparse := hread.parse []
  rw [List.append_nil] at hlex hparse
  rw [List.append_nil] at hlex
  refine ⟨j', ?_⟩
  rw [parseJson, hlex, Raises.ok_bind, hparse, Raises.ok_bind]
  rfl

theorem parseJson_toString {j : Json F} (hp : ∀ token ∈ toks j, token.Printable) :
    parseJson conv (j.toString conv) = .ok j := by
  have hlex := lex_toString j hp delimited_nil (lex_nil conv)
  have hparse := (reads_toks j).parse []
  rw [List.append_nil, List.append_nil] at hlex
  rw [List.append_nil] at hparse
  rw [parseJson, hlex, Raises.ok_bind, hparse, Raises.ok_bind]
  rfl

/-- The tokens of a value that the parser returns are among those that the lexer read. -/
theorem toks_subset_of_parseJson {str : Bytes} {tokens : List (Token F)} {j : Json F}
    (hlex : lex conv str = .ok tokens) (hparse : parseJson conv str = .ok j) :
    ∀ token ∈ toks j, token ∈ tokens := by
  have hvalue := (parseJson_ensures hlex).of_ok hparse
  obtain ⟨ts, k, hread, htokens⟩ := parseValue_eq_ok_iff.mp hvalue
  rw [List.append_nil] at htokens
  exact fun token htoken => htokens ▸ hread.sublist.1.subset htoken

/-- All that the lexer read is in the value, but for commas. -/
theorem mem_toks_of_parseJson {str : Bytes} {tokens : List (Token F)} {j : Json F}
    (hlex : lex conv str = .ok tokens) (hparse : parseJson conv str = .ok j) {token : Token F}
    (htoken : token ∈ tokens) (hcomma : token ≠ .comma) : token ∈ toks j := by
  have hvalue := (parseJson_ensures hlex).of_ok hparse
  obtain ⟨ts, k, hread, rfl⟩ := parseValue_eq_ok_iff.mp hvalue
  rw [List.append_nil] at htoken
  exact (hread.mem htoken).resolve_left hcomma

theorem lex_of_parseJson {str : Bytes} {j : Json F} (hparse : parseJson conv str = .ok j) :
    ∃ tokens, lex conv str = .ok tokens := by
  obtain ⟨tokens, hlex, _⟩ := Raises.bind_ok hparse
  exact ⟨tokens, hlex⟩

theorem printable_iff {token : Token F} :
    token.Printable ↔ (∀ f, token ≠ .floatTok f) ∧ ∀ s, token = .str s → 34 ∉ s := by
  cases token <;> simp [Token.Printable]

/-- **Printing and parsing give the value back exactly if no string holds a double quote.** -/
theorem parseJson_toString_iff (conv : FloatConv F) {j : Json F} (hf : j.FloatFree) :
    parseJson conv (j.toString conv) = .ok j ↔ j.QuoteFree := by
  constructor
  · intro hparse s hs
    obtain ⟨tokens, hlex⟩ := lex_of_parseJson hparse
    exact Steps.lex_quoteFree hlex s (toks_subset_of_parseJson hlex hparse _ hs)
  · intro hq
    apply parseJson_toString
    intro token htoken
    rw [printable_iff]
    constructor
    · rintro f rfl
      exact hf f htoken
    · rintro s rfl
      exact hq s htoken

def zeroFloat : FloatConv Unit where
  floatOfString s := if s = bytes "0." then some () else none
  stringOfFloat _ := bytes "0."

/-- An object with an array in it. -/
theorem parseJson_toString_iff_object :
    parseJson zeroFloat (Json.toString zeroFloat
        (.object [(bytes "a", .array [.int ⟨1, by decide⟩, .string (bytes "],")])])) =
      .ok (.object [(bytes "a", .array [.int ⟨1, by decide⟩, .string (bytes "],")])]) ↔
        Json.QuoteFree (.object [(bytes "a", .array [.int ⟨1, by decide⟩, .string (bytes "],")])] :
          Json Unit) := by
  apply parseJson_toString_iff
  intro f
  simp [toks, elemToks, fieldToks]

/-- The string of one double quote is printed as three of them. -/
theorem parseJson_toString_quote :
    parseJson zeroFloat (Json.toString zeroFloat (.string (bytes "\""))) =
      .error (.failure "Unclosed string") := by
  have hopen : lexToken zeroFloat 34 (bytes "\"\"") = .ok (some (.str []), bytes "\"") := rfl
  have hclosed : lexToken zeroFloat 34 [] = .error (.failure "Unclosed string") := rfl
  have hlex : lex zeroFloat (bytes "\"\"\"") = .error (.failure "Unclosed string") := by
    refine (lex_cons zeroFloat hopen).trans ?_
    have hrest : lex zeroFloat (bytes "\"") = .error (.failure "Unclosed string") :=
      lex_cons_error zeroFloat hclosed
    rw [hrest]
    rfl
  change (lex zeroFloat (bytes "\"\"\"") >>= _) = _
  rw [hlex]
  rfl

/-- **Parsing, printing and parsing is parsing.** -/
theorem parse_print_parse (conv : FloatConv F) {str : Bytes} {tokens : List (Token F)} {j : Json F}
    (hlex : lex conv str = .ok tokens) (hf : ∀ f, .floatTok f ∉ tokens)
    (hparse : parseJson conv str = .ok j) : parseJson conv (j.toString conv) = .ok j := by
  apply parseJson_toString
  intro token htoken
  have hmem := toks_subset_of_parseJson hlex hparse token htoken
  rw [printable_iff]
  constructor
  · rintro f rfl
    exact hf f hmem
  · rintro s rfl
    exact Steps.lex_quoteFree hlex s hmem

section Nested

/-- The tokens of the text `[{"k":[true,]},null]`. -/
def nestedTokens : List (Token Unit) :=
  [.lBracket, .lBrace, .str (bytes "k"), .colon, .lBracket, .bool true, .comma, .rBracket,
    .rBrace, .comma, .null, .rBracket]

def nested : Json Unit := .array [.object [(bytes "k", .array [.bool true])], .null]

theorem lex_nested : lex zeroFloat (bytes "[\x7b\"k\":[true,]\x7d,null]") = .ok nestedTokens := by
  have hkey : lexToken zeroFloat 34 (bytes "k\":[true,]\x7d,null]") =
      .ok (some (.str (bytes "k")), bytes ":[true,]\x7d,null]") := rfl
  have htrue : lexToken zeroFloat 116 (bytes "rue,]\x7d,null]") =
      .ok (some (.bool true), bytes ",]\x7d,null]") := rfl
  have hnull : lexToken zeroFloat 110 (bytes "ull]") = .ok (some .null, bytes "]") := rfl
  have hend : lex zeroFloat (bytes ",null]") = .ok [.comma, .null, .rBracket] :=
    Steps.lex_token rfl (Steps.lex_token hnull (Steps.lex_token rfl (lex_nil zeroFloat)))
  have hclose : lex zeroFloat (bytes ",]\x7d,null]") =
      .ok [.comma, .rBracket, .rBrace, .comma, .null, .rBracket] :=
    Steps.lex_token rfl (Steps.lex_token rfl (Steps.lex_token rfl hend))
  have hinner : lex zeroFloat (bytes ":[true,]\x7d,null]") =
      .ok (.colon :: .lBracket :: .bool true ::
      [.comma, .rBracket, .rBrace, .comma, .null, .rBracket]) :=
    Steps.lex_token rfl (Steps.lex_token rfl (Steps.lex_token htrue hclose))
  exact Steps.lex_token rfl (Steps.lex_token rfl (Steps.lex_token hkey hinner))

theorem reads_nested : Reads nested nestedTokens 1 :=
  .array (.cons (.object (.last (.array (.trailing (.bool true))))) (.last .null))

/-- A text with a comma before a bracket is printed without it. -/
theorem parse_print_parse_nested :
    nested.toString zeroFloat = bytes "[\x7b\"k\": [true]\x7d, null]" ∧
      parseJson zeroFloat (nested.toString zeroFloat) = .ok nested := by
  have hparse : parseJson zeroFloat (bytes "[\x7b\"k\":[true,]\x7d,null]") = .ok nested := by
    rw [parseJson, lex_nested, Raises.ok_bind, ← List.append_nil nestedTokens, reads_nested.parse]
    rfl
  exact ⟨rfl, parse_print_parse zeroFloat lex_nested (by simp [nestedTokens]) hparse⟩

end Nested

end OCamlStudy.JsonParser
