import OCamlStudy.JsonParser.Json

/-! # The lexer

The character lexer of the parser. One step reads white space or one token from a
non-empty input and leaves a shorter input, so the lexer ends.
-/

namespace OCamlStudy.JsonParser

open OCaml

def isDigitOrDot (c : UInt8) : Bool :=
  -- digits, '.', '-', 'e' and 'E'
  (48 ≤ c && c ≤ 57) || c = 46 || c = 45 || c = 101 || c = 69

def isHexDigit (c : UInt8) : Bool :=
  (48 ≤ c && c ≤ 57) || (97 ≤ c && c ≤ 102) || (65 ≤ c && c ≤ 70)

def isHexPrefixChar (c : UInt8) : Bool := c = 120 || c = 88

/-- The text of a message that contains bytes of the input. -/
def asciiString (s : Bytes) : String := String.ofList (s.map fun c => Char.ofNat c.toNat)

section Lexer

variable {F : Type} (conv : FloatConv F)

def hexToken (hexStr : Bytes) : Raises (Token F) :=
  match hexStr with
  | [] => .error (.failure "Invalid hex number: no digits after 0x")
  | _ =>
    match int63OfString (bytes "0x" ++ hexStr) with
    | some value => .ok (.intTok value)
    | none => .error (.failure ("Hex number too large: 0x" ++ asciiString hexStr))

/-- Collect characters in `acc` as long as they belong to the token, which is made of them. -/
def scan (belongs : UInt8 → Bool) (finish : Bytes → Raises (Token F)) (acc : Bytes) :
    Bytes → Raises (Token F × Bytes)
  | [] => do return (← finish acc.reverse, [])
  | c :: rest =>
    if belongs c then scan belongs finish (c :: acc) rest
    else do return (← finish acc.reverse, c :: rest)

def lexHexNumber : Bytes → Bytes → Raises (Token F × Bytes) := scan isHexDigit hexToken

/-- The token of a number: an integer if the text is one in range, else a float. -/
def numberToken (numStr : Bytes) : Raises (Token F) :=
  match int63OfString numStr with
  | some n => .ok (.intTok n)
  | none =>
    match conv.floatOfString numStr with
    | some f => .ok (.floatTok f)
    | none => .error (.failure "float_of_string")

def lexNumber : Bytes → Bytes → Raises (Token F × Bytes) := scan isDigitOrDot (numberToken conv)

def lexString (acc : Bytes) : Bytes → Raises (Token F × Bytes)
  | [] => .error (.failure "Unclosed string")
  | c :: rest =>
    if c = 34 then .ok (.str acc.reverse, rest)
    else lexString (c :: acc) rest

def punctuation (c : UInt8) : Option (Token F) :=
  if c = 123 then some .lBrace
  else if c = 125 then some .rBrace
  else if c = 91 then some .lBracket
  else if c = 93 then some .rBracket
  else if c = 58 then some .colon
  else if c = 44 then some .comma
  else none

/-- A token that is a word: `true`, `false` or `null`. -/
def word : Bytes → Option (Token F × Bytes)
  | 116 :: 114 :: 117 :: 101 :: rest => some (.bool true, rest)
  | 102 :: 97 :: 108 :: 115 :: 101 :: rest => some (.bool false, rest)
  | 110 :: 117 :: 108 :: 108 :: rest => some (.null, rest)
  | _ => none

/-- What follows `0x` or `0X`, if a hex digit does. -/
def hexPrefix : Bytes → Option Bytes
  | 48 :: x :: rest =>
    if isHexPrefixChar x && isHexDigit (rest.head?.getD 32) then some rest else none
  | _ => none

/-- One case of `lex` at a character: the token, none for white space, and what follows it. -/
def lexToken (c : UInt8) (rest : Bytes) : Raises (Option (Token F) × Bytes) :=
  if c = 32 ∨ c = 10 ∨ c = 13 ∨ c = 9 then .ok (none, rest)
  else
    match punctuation c with
    | some token => .ok (some token, rest)
    | none =>
      if c = 34 then do
        let (token, remaining) ← lexString [] rest
        return (some token, remaining)
      else
        match word (c :: rest) with
        | some (token, remaining) => .ok (some token, remaining)
        | none =>
          match hexPrefix (c :: rest) with
          | some digits => do
            let (token, remaining) ← lexHexNumber [] digits
            return (some token, remaining)
          | none =>
            if isDigitOrDot c then do
              let (token, remaining) ← lexNumber conv [] (c :: rest)
              return (some token, remaining)
            else .error (.failure "Unknown character")

variable {conv}

theorem scan_eq (belongs : UInt8 → Bool) (finish : Bytes → Raises (Token F)) (acc chars : Bytes) :
    scan belongs finish acc chars =
      (finish (acc.reverse ++ chars.takeWhile belongs)).map (·, chars.dropWhile belongs) := by
  induction chars generalizing acc with
  | nil =>
    rw [scan, List.takeWhile_nil, List.append_nil]
    cases finish acc.reverse <;> rfl
  | cons c rest ih =>
    rw [scan]
    split_ifs with hc
    · rw [ih, List.takeWhile_cons_of_pos hc, List.dropWhile_cons_of_pos hc, List.reverse_cons,
        List.append_assoc, List.singleton_append]
    · rw [List.takeWhile_cons_of_neg hc, List.dropWhile_cons_of_neg hc, List.append_nil]
      cases finish acc.reverse <;> rfl

theorem scan_ok {belongs : UInt8 → Bool} {finish : Bytes → Raises (Token F)}
    {acc chars remaining : Bytes} {token : Token F}
    (h : scan belongs finish acc chars = .ok (token, remaining)) :
    finish (acc.reverse ++ chars.takeWhile belongs) = .ok token ∧
      remaining = chars.dropWhile belongs := by
  rw [scan_eq] at h
  cases hf : finish (acc.reverse ++ chars.takeWhile belongs) with
  | error exn =>
    rw [hf] at h
    cases h
  | ok token' =>
    rw [hf] at h
    cases h
    exact ⟨rfl, rfl⟩

theorem lexString_append (acc : Bytes) {s : Bytes} (hs : 34 ∉ s) (rest : Bytes) :
    (lexString acc (s ++ 34 :: rest) : Raises (Token F × Bytes)) =
      .ok (.str (acc.reverse ++ s), rest) := by
  induction s generalizing acc with
  | nil => rw [List.nil_append, lexString, if_pos rfl, List.append_nil]
  | cons c s ih =>
    obtain ⟨hc, hs⟩ := not_or.mp (mt List.mem_cons.mpr hs)
    rw [List.cons_append, lexString, if_neg (Ne.symm hc), ih _ hs, List.reverse_cons,
      List.append_assoc, List.singleton_append]

theorem lexString_some {s : Bytes} (hs : 34 ∉ s) (rest : Bytes) :
    (lexString [] (s ++ 34 :: rest) >>= fun p => .ok (some p.1, p.2) :
      Raises (Option (Token F) × Bytes)) = .ok (some (.str s), rest) := by
  rw [lexString_append [] hs rest]
  rfl

theorem lexString_ok {acc chars remaining : Bytes} {token : Token F}
    (h : lexString acc chars = .ok (token, remaining)) :
    ∃ s, 34 ∉ s ∧ token = .str (acc.reverse ++ s) ∧ chars = s ++ 34 :: remaining := by
  induction chars generalizing acc with
  | nil => cases h
  | cons c rest ih =>
    rw [lexString] at h
    split_ifs at h with hc
    · cases h
      exact ⟨[], List.not_mem_nil, by rw [List.append_nil], by rw [hc, List.nil_append]⟩
    · obtain ⟨s, hs, rfl, rfl⟩ := ih h
      refine ⟨c :: s, ?_, ?_, rfl⟩
      · rw [List.mem_cons, not_or]
        exact ⟨Ne.symm hc, hs⟩
      · rw [List.reverse_cons, List.append_assoc, List.singleton_append]

theorem punctuation_ok {c : UInt8} {token : Token F} (h : punctuation c = some token) :
    c ≠ 34 ∧ ∀ s, token ≠ .str s := by
  unfold punctuation at h
  split_ifs at h with h1 h2 h3 h4 h5 h6
  all_goals
    cases h
    exact ⟨by rintro rfl; contradiction, nofun⟩

def wordTokens : List (Bytes × Token F) :=
  [(bytes "true", .bool true), (bytes "false", .bool false), (bytes "null", .null)]

theorem word_ok {c : UInt8} {rest remaining : Bytes} {token : Token F}
    (h : word (c :: rest) = some (token, remaining)) :
    ∃ s, rest = s ++ remaining ∧ (c :: s, token) ∈ wordTokens := by
  unfold word at h
  split at h
  · rename_i hchars
    cases h
    obtain ⟨rfl, rfl⟩ := List.cons.inj hchars
    exact ⟨bytes "rue", rfl, .head _⟩
  · rename_i hchars
    cases h
    obtain ⟨rfl, rfl⟩ := List.cons.inj hchars
    exact ⟨bytes "alse", rfl, .tail _ (.head _)⟩
  · rename_i hchars
    cases h
    obtain ⟨rfl, rfl⟩ := List.cons.inj hchars
    exact ⟨bytes "ull", rfl, .tail _ (.tail _ (.head _))⟩
  · cases h

theorem hexPrefix_ok {c : UInt8} {rest digits : Bytes} (h : hexPrefix (c :: rest) = some digits) :
    ∃ x, rest = x :: digits ∧ c = 48 ∧ isHexPrefixChar x = true ∧
      isHexDigit (digits.head?.getD 32) = true := by
  unfold hexPrefix at h
  split at h
  · rename_i x rest' hchars
    obtain ⟨rfl, rfl⟩ := List.cons.inj hchars
    obtain ⟨hx, hdigits⟩ := Option.ite_none_right_eq_some.mp h
    rw [Bool.and_eq_true] at hx
    obtain rfl := Option.some.inj hdigits
    exact ⟨x, rfl, rfl, hx⟩
  · cases h

theorem hexToken_ne_str {hexStr s : Bytes} : hexToken hexStr ≠ .ok (.str s : Token F) := by
  unfold hexToken
  split
  · simp
  · split <;> simp

theorem numberToken_ne_str {numStr s : Bytes} : numberToken conv numStr ≠ .ok (.str s) := by
  unfold numberToken
  split
  · simp
  · split <;> simp

abbrev Blank (c : UInt8) : Prop := c = 32 ∨ c = 10 ∨ c = 13 ∨ c = 9

def Stops (belongs : UInt8 → Bool) (chars : Bytes) : Prop :=
  ∀ c, chars.head? = some c → belongs c = false

/-- The first lexeme of a text, its token, and what is left. -/
inductive First (conv : FloatConv F) : Bytes → Option (Token F) → Bytes → Prop
  | blank {c : UInt8} {rest : Bytes} (h : Blank c) : First conv (c :: rest) none rest
  | punctuation {c : UInt8} {token : Token F} {rest : Bytes} (h : punctuation c = some token) :
      First conv (c :: rest) (some token) rest
  | string {s rest : Bytes} (h : 34 ∉ s) : First conv (34 :: (s ++ 34 :: rest)) (some (.str s)) rest
  | word {text rest : Bytes} {token : Token F} (h : (text, token) ∈ wordTokens) :
      First conv (text ++ rest) (some token) rest
  | hex {x : UInt8} {digits rest : Bytes} {token : Token F} (hx : isHexPrefixChar x = true)
      (hdigits : ∀ c ∈ digits, isHexDigit c = true) (hstop : Stops isHexDigit rest)
      (h : hexToken digits = .ok token) : First conv (48 :: x :: (digits ++ rest)) (some token) rest
  | number {text rest : Bytes} {token : Token F} (hne : text ≠ [])
      (htext : ∀ c ∈ text, isDigitOrDot c = true) (hstop : Stops isDigitOrDot rest)
      (hhex : hexPrefix (text ++ rest) = none) (h : numberToken conv text = .ok token) :
      First conv (text ++ rest) (some token) rest

theorem takeWhile_all (p : UInt8 → Bool) (chars : Bytes) : ∀ c ∈ chars.takeWhile p, p c = true :=
  List.all_eq_true.mp List.all_takeWhile

theorem stops_dropWhile (belongs : UInt8 → Bool) (chars : Bytes) :
    Stops belongs (chars.dropWhile belongs) := by
  intro c hc
  have hnot := List.head?_dropWhile_not belongs chars
  rw [hc] at hnot
  simpa using hnot

/-- **A step reads the first lexeme.** -/
theorem first_of_lexToken {c : UInt8} {rest remaining : Bytes} {token : Option (Token F)}
    (h : lexToken conv c rest = .ok (token, remaining)) :
    First conv (c :: rest) token remaining := by
  by_cases hspace : c = 32 ∨ c = 10 ∨ c = 13 ∨ c = 9
  · rw [lexToken, if_pos hspace] at h
    cases h
    exact .blank hspace
  rw [lexToken, if_neg hspace] at h
  cases hp : (punctuation c : Option (Token F)) with
  | some token' =>
    rw [hp] at h
    cases h
    exact .punctuation hp
  | none =>
    rw [hp] at h
    by_cases hquote : c = 34
    · simp only [if_pos hquote] at h
      obtain ⟨⟨token', remaining'⟩, hstring, hreturn⟩ := Raises.bind_ok h
      cases hreturn
      obtain ⟨s, hs, rfl, rfl⟩ := lexString_ok hstring
      subst hquote
      exact .string hs
    simp only [if_neg hquote] at h
    cases hw : (word (c :: rest) : Option (Token F × Bytes)) with
    | some found =>
      rw [hw] at h
      cases h
      obtain ⟨s, rfl, hmem⟩ := word_ok hw
      exact .word hmem
    | none =>
      rw [hw] at h
      cases hx : hexPrefix (c :: rest) with
      | some digits =>
        rw [hx] at h
        obtain ⟨⟨token', remaining'⟩, hscan, hreturn⟩ := Raises.bind_ok h
        cases hreturn
        obtain ⟨htoken, rfl⟩ := scan_ok hscan
        obtain ⟨x, rfl, rfl, hinitial, -⟩ := hexPrefix_ok hx
        have hfirst := @First.hex F conv _ _ _ _ hinitial (takeWhile_all isHexDigit digits)
          (stops_dropWhile isHexDigit digits) htoken
        rwa [List.takeWhile_append_dropWhile] at hfirst
      | none =>
        rw [hx] at h
        by_cases hdigit : isDigitOrDot c
        · simp only [if_pos hdigit] at h
          obtain ⟨⟨token', remaining'⟩, hscan, hreturn⟩ := Raises.bind_ok h
          cases hreturn
          obtain ⟨htoken, rfl⟩ := scan_ok hscan
          have hsplit := List.takeWhile_append_dropWhile (p := isDigitOrDot) (l := c :: rest)
          have hne : (c :: rest).takeWhile isDigitOrDot ≠ [] := by
            rw [List.takeWhile_cons_of_pos hdigit]
            exact List.cons_ne_nil _ _
          have hfirst := First.number hne (takeWhile_all isDigitOrDot (c :: rest))
            (stops_dropWhile isDigitOrDot (c :: rest)) (by rwa [hsplit]) htoken
          rwa [hsplit] at hfirst
        · simp only [if_neg hdigit] at h
          cases h

/-- The text of one step, and the token that it is read as. -/
inductive Lexeme (conv : FloatConv F) : Bytes → Option (Token F) → Prop
  | blank {c : UInt8} (h : c = 32 ∨ c = 10 ∨ c = 13 ∨ c = 9) : Lexeme conv [c] none
  | punctuation {c : UInt8} {token : Token F} (h : punctuation c = some token) :
      Lexeme conv [c] (some token)
  | string {s : Bytes} (h : 34 ∉ s) : Lexeme conv (34 :: (s ++ [34])) (some (.str s))
  | word {c : UInt8} {s : Bytes} {token : Token F} (h : (c :: s, token) ∈ wordTokens) :
      Lexeme conv (c :: s) (some token)
  | hex {x : UInt8} {digits : Bytes} {token : Token F} (hx : isHexPrefixChar x = true)
      (hdigits : ∀ c ∈ digits, isHexDigit c = true) (h : hexToken digits = .ok token) :
      Lexeme conv (48 :: x :: digits) (some token)
  | number {c : UInt8} {s : Bytes} {token : Token F} (hs : ∀ x ∈ c :: s, isDigitOrDot x = true)
      (h : numberToken conv (c :: s) = .ok token) : Lexeme conv (c :: s) (some token)

theorem First.lexeme {chars rest : Bytes} {token : Option (Token F)}
    (h : First conv chars token rest) :
    ∃ c s, chars = c :: (s ++ rest) ∧ Lexeme conv (c :: s) token := by
  cases h with
  | blank h => exact ⟨_, [], rfl, .blank h⟩
  | punctuation h => exact ⟨_, [], rfl, .punctuation h⟩
  | @string s rest h => exact ⟨34, s ++ [34], by simp, .string h⟩
  | @word text rest token h =>
    have hne : text ≠ [] := by
      rintro rfl
      simp [wordTokens, bytes] at h
    obtain ⟨c, s, rfl⟩ := List.exists_cons_of_ne_nil hne
    exact ⟨c, s, rfl, .word h⟩
  | hex hx hdigits _ h => exact ⟨48, _ :: _, rfl, .hex hx hdigits h⟩
  | number hne htext _ _ h =>
    obtain ⟨c, s, rfl⟩ := List.exists_cons_of_ne_nil hne
    exact ⟨c, s, rfl, .number htext h⟩

theorem lexeme_of_lexToken {c : UInt8} {rest remaining : Bytes} {token : Option (Token F)}
    (h : lexToken conv c rest = .ok (token, remaining)) :
    ∃ s, rest = s ++ remaining ∧ Lexeme conv (c :: s) token := by
  obtain ⟨d, s, heq, hlexeme⟩ := (first_of_lexToken h).lexeme
  obtain ⟨rfl, rfl⟩ := List.cons.inj heq
  exact ⟨s, rfl, hlexeme⟩

theorem Lexeme.quoteFree {text s : Bytes} (h : Lexeme conv text (some (.str s))) : 34 ∉ s := by
  cases h with
  | punctuation h => exact absurd rfl ((punctuation_ok h).2 s)
  | string h => exact h
  | word h => simp [wordTokens] at h
  | hex _ _ h => exact absurd h hexToken_ne_str
  | number _ h => exact absurd h numberToken_ne_str

/-- A step leaves a suffix, and a string that it reads holds no double quote. -/
theorem lexToken_ok {c : UInt8} {rest remaining : Bytes} {token : Option (Token F)}
    (h : lexToken conv c rest = .ok (token, remaining)) :
    remaining <:+ rest ∧ ∀ s, token = some (.str s) → 34 ∉ s := by
  obtain ⟨text, rfl, hlexeme⟩ := lexeme_of_lexToken h
  refine ⟨List.suffix_append _ _, ?_⟩
  rintro s rfl
  exact hlexeme.quoteFree

theorem lexToken_length_le {c : UInt8} {rest remaining : Bytes} {token : Option (Token F)}
    (h : lexToken conv c rest = .ok (token, remaining)) : remaining.length ≤ rest.length :=
  (lexToken_ok h).1.length_le

/-- The step of a lexer, which leaves a suffix; a string that it reads holds no double quote. -/
structure Steps (F : Type) where
  step : UInt8 → Bytes → Raises (Option (Token F) × Bytes)
  step_ok : ∀ c rest p, step c rest = .ok p → p.2 <:+ rest ∧ ∀ s, p.1 = some (.str s) → 34 ∉ s

namespace Steps

variable {l : Steps F} {c : UInt8} {rest remaining chars : Bytes} {tokens : List (Token F)}

theorem length_le {p : Option (Token F) × Bytes} (h : l.step c rest = .ok p) :
    p.2.length ≤ rest.length := (l.step_ok c rest p h).1.length_le

def lex (l : Steps F) : Bytes → Raises (List (Token F))
  | [] => .ok []
  | c :: rest =>
    match h : l.step c rest with
    | .error exn => .error exn
    | .ok (token, remaining) =>
      have : remaining.length ≤ rest.length := length_le h
      do return token.toList ++ (← l.lex remaining)
termination_by chars => chars.length

theorem lex_nil (l : Steps F) : l.lex [] = .ok [] := by
  rw [lex]

theorem lex_cons {p : Option (Token F) × Bytes} (h : l.step c rest = .ok p) :
    l.lex (c :: rest) = (p.1.toList ++ ·) <$> l.lex p.2 := by
  rw [lex]
  split
  · rename_i hexn
    rw [h] at hexn
    cases hexn
  · rename_i htoken
    rw [h] at htoken
    cases htoken
    rfl

theorem lex_cons_error {exn : Exn} (h : l.step c rest = .error exn) :
    l.lex (c :: rest) = .error exn := by
  rw [lex]
  split
  · rename_i hexn
    rw [h] at hexn
    cases hexn
    rfl
  · rename_i htoken
    rw [h] at htoken
    cases htoken

theorem lex_token {token : Token F} (h : l.step c rest = .ok (some token, remaining))
    (hlex : l.lex remaining = .ok tokens) : l.lex (c :: rest) = .ok (token :: tokens) := by
  rw [lex_cons h, hlex]
  rfl

theorem lex_blank (h : l.step c rest = .ok (none, remaining))
    (hlex : l.lex remaining = .ok tokens) :
    l.lex (c :: rest) = .ok tokens := by
  rw [lex_cons h, hlex]
  rfl

/-- The first step of a text that is lexed, and the others. -/
theorem lex_cons_ok (h : l.lex (c :: rest) = .ok tokens) : ∃ p tokens',
    l.step c rest = .ok p ∧ p.2.length ≤ rest.length ∧ l.lex p.2 = .ok tokens' ∧
      tokens = p.1.toList ++ tokens' := by
  cases hstep : l.step c rest with
  | error exn =>
    rw [lex_cons_error hstep] at h
    cases h
  | ok p =>
    rw [lex_cons hstep] at h
    obtain ⟨tokens', hlex, rfl⟩ := Raises.map_ok h
    exact ⟨p, tokens', rfl, length_le hstep, hlex, rfl⟩

/-- Induction on the steps of a text that is lexed. -/
@[elab_as_elim]
theorem lex_induction {motive : Bytes → List (Token F) → Prop} (nil : motive [] [])
    (step : ∀ c rest token remaining tokens, l.step c rest = .ok (token, remaining) →
      l.lex remaining = .ok tokens → motive remaining tokens →
        motive (c :: rest) (token.toList ++ tokens))
    (h : l.lex chars = .ok tokens) : motive chars tokens := by
  induction hn : chars.length using Nat.strong_induction_on generalizing chars tokens with
  | _ n ih =>
    cases chars with
    | nil =>
      rw [lex_nil] at h
      cases h
      exact nil
    | cons c rest =>
      obtain ⟨p, tokens', hstep, hle, hlex, rfl⟩ := lex_cons_ok h
      rw [List.length_cons] at hn
      exact step c rest p.1 p.2 tokens' hstep hlex (ih _ (by omega) hlex rfl)

/-- What holds of the token of every step holds of every token. -/
theorem forall_mem_lex {P : Token F → Prop}
    (hstep : ∀ c rest remaining token, l.step c rest = .ok (some token, remaining) → P token)
    (h : l.lex chars = .ok tokens) : ∀ token ∈ tokens, P token := by
  refine lex_induction (motive := fun _ tokens => ∀ token ∈ tokens, P token) ?_ ?_ h
  · exact List.forall_mem_nil P
  · intro c rest token remaining tokens hfirst _ ih token' htoken
    rcases List.mem_append.mp htoken with htoken | htoken
    · rw [Option.mem_toList] at htoken
      obtain rfl : token = some token' := htoken
      exact hstep c rest remaining token' hfirst
    · exact ih token' htoken

theorem lex_quoteFree (h : l.lex chars = .ok tokens) : ∀ s, .str s ∈ tokens → 34 ∉ s := by
  intro s hs
  refine forall_mem_lex (P := fun token => token = .str s → 34 ∉ s) ?_ h _ hs rfl
  rintro c rest remaining token hstep rfl
  exact (l.step_ok c rest _ hstep).2 s rfl

end Steps

variable (conv)

def steps : Steps F := ⟨lexToken conv, fun _ _ _ h => lexToken_ok h⟩

def lex (chars : Bytes) : Raises (List (Token F)) := (steps conv).lex chars

theorem lex_nil : lex conv [] = .ok [] := (steps conv).lex_nil

theorem lex_cons {c : UInt8} {rest : Bytes} {p : Option (Token F) × Bytes}
    (h : lexToken conv c rest = .ok p) :
    lex conv (c :: rest) = (p.1.toList ++ ·) <$> lex conv p.2 := (steps conv).lex_cons h

theorem lex_cons_error {c : UInt8} {rest : Bytes} {exn : Exn}
    (h : lexToken conv c rest = .error exn) : lex conv (c :: rest) = .error exn :=
  (steps conv).lex_cons_error h

end Lexer

end OCamlStudy.JsonParser
