import OCamlStudy.JsonParser.Lexer

/-! # The parser

The recursive descent over the token list. Each function returns its value with
the tokens that follow it, and the proof that these are fewer than it was given;
the functions of the source are their projections.
-/

namespace OCamlStudy.JsonParser

open OCaml

variable {F : Type}

abbrev Parsed (α : Type) (tokens : List (Token F)) :=
  {p : α × List (Token F) // p.2.length < tokens.length}

def Parsed.from {α : Type} {rest tokens : List (Token F)} (p : Parsed α rest)
    (h : rest.length < tokens.length) : Parsed α tokens :=
  ⟨p.val, p.property.trans h⟩

theorem Parsed.map_val_from {α : Type} {rest tokens : List (Token F)} (x : Raises (Parsed α rest))
    (h : rest.length < tokens.length) :
    Subtype.val <$> (do return (← x).from h : Raises (Parsed α tokens)) = Subtype.val <$> x := by
  cases x <;> rfl

mutual

def parsedValue (tokens : List (Token F)) : Raises (Parsed (Json F) tokens) :=
  match tokens with
  | .intTok n :: rest => .ok ⟨(.int n, rest), Nat.lt_succ_self _⟩
  | .floatTok f :: rest => .ok ⟨(.float f, rest), Nat.lt_succ_self _⟩
  | .bool b :: rest => .ok ⟨(.bool b, rest), Nat.lt_succ_self _⟩
  | .str s :: rest => .ok ⟨(.string s, rest), Nat.lt_succ_self _⟩
  | .null :: rest => .ok ⟨(.null, rest), Nat.lt_succ_self _⟩
  | .lBrace :: rest => do return (← parsedObject rest).from (Nat.lt_succ_self _)
  | .lBracket :: rest => do return (← parsedArray rest).from (Nat.lt_succ_self _)
  | _ => .error (.failure "Unexpected token")
termination_by (tokens.length, 0)

def parsedArray (tokens : List (Token F)) : Raises (Parsed (Json F) tokens) :=
  match tokens with
  | .rBracket :: rest => .ok ⟨(.array [], rest), Nat.lt_succ_self _⟩
  | tokens => do
    let ⟨(vals, rest), h⟩ ← parsedCommaSeparatedValue [] tokens
    return ⟨(.array vals, rest), h⟩
termination_by (tokens.length, 2)

def parsedCommaSeparatedValue (acc : List (Json F)) (tokens : List (Token F)) :
    Raises (Parsed (List (Json F)) tokens) :=
  match tokens with
  | .rBracket :: rest => .ok ⟨(acc.reverse, rest), Nat.lt_succ_self _⟩
  | tokens => do
    match ← parsedValue tokens with
    | ⟨(v, .comma :: rest2), h⟩ =>
      return (← parsedCommaSeparatedValue (v :: acc) rest2).from ((Nat.lt_succ_self _).trans h)
    | ⟨(v, .rBracket :: rest2), h⟩ =>
      return ⟨((v :: acc).reverse, rest2), (Nat.lt_succ_self _).trans h⟩
    | _ => .error (.failure "Expected comma or closing bracket")
termination_by (tokens.length, 1)
decreasing_by
  · exact Prod.Lex.right _ (by decide)
  · exact Prod.Lex.left _ _ ((Nat.lt_succ_self _).trans h)

def parsedObject (tokens : List (Token F)) : Raises (Parsed (Json F) tokens) :=
  match tokens with
  | .rBrace :: rest => .ok ⟨(.object [], rest), Nat.lt_succ_self _⟩
  | tokens => do
    let ⟨(fields, rest), h⟩ ← parsedObjectFields [] tokens
    return ⟨(.object fields, rest), h⟩
termination_by (tokens.length, 2)

def parsedObjectFields (acc : List (Bytes × Json F)) (tokens : List (Token F)) :
    Raises (Parsed (List (Bytes × Json F)) tokens) :=
  match tokens with
  | .str k :: rest1 =>
    match rest1 with
    | .colon :: rest2 => do
      match ← parsedValue rest2 with
      | ⟨(v, .comma :: rest4), h⟩ =>
        return (← parsedObjectFields ((k, v) :: acc) rest4).from
          (by simp only [List.length_cons] at h ⊢; omega)
      | ⟨(v, .rBrace :: rest4), h⟩ =>
        return ⟨(((k, v) :: acc).reverse, rest4), by simp only [List.length_cons] at h ⊢; omega⟩
      | _ => .error (.failure "Expected comma or closing brace")
    | _ => .error (.failure "Expected colon")
  | _ => .error (.failure "Expected string key")
termination_by (tokens.length, 1)
decreasing_by
  · exact Prod.Lex.left _ _ (by simp only [List.length_cons]; omega)
  · exact Prod.Lex.left _ _ (by simp only [List.length_cons] at h ⊢; omega)

end

def parseValue (tokens : List (Token F)) : Raises (Json F × List (Token F)) :=
  Subtype.val <$> parsedValue tokens

def parseArray (tokens : List (Token F)) : Raises (Json F × List (Token F)) :=
  Subtype.val <$> parsedArray tokens

def parseCommaSeparatedValue (acc : List (Json F)) (tokens : List (Token F)) :
    Raises (List (Json F) × List (Token F)) :=
  Subtype.val <$> parsedCommaSeparatedValue acc tokens

def parseObject (tokens : List (Token F)) : Raises (Json F × List (Token F)) :=
  Subtype.val <$> parsedObject tokens

def parseObjectFields (acc : List (Bytes × Json F)) (tokens : List (Token F)) :
    Raises (List (Bytes × Json F) × List (Token F)) :=
  Subtype.val <$> parsedObjectFields acc tokens

def parseJson (conv : FloatConv F) (str : Bytes) : Raises (Json F) := do
  let tokens ← lex conv str
  let (json, rest) ← parseValue tokens
  match rest with
  | [] => return json
  | _ => .error (.failure "Extra data after JSON")

theorem parseValue_eq (tokens : List (Token F)) : parseValue tokens =
    match tokens with
    | .intTok n :: rest => .ok (.int n, rest)
    | .floatTok f :: rest => .ok (.float f, rest)
    | .bool b :: rest => .ok (.bool b, rest)
    | .str s :: rest => .ok (.string s, rest)
    | .null :: rest => .ok (.null, rest)
    | .lBrace :: rest => parseObject rest
    | .lBracket :: rest => parseArray rest
    | _ => .error (.failure "Unexpected token") := by
  unfold parseValue
  rw [parsedValue.eq_def]
  split
  · rfl
  · rfl
  · rfl
  · rfl
  · rfl
  · exact Parsed.map_val_from _ _
  · exact Parsed.map_val_from _ _
  · rfl

theorem parseArray_eq (tokens : List (Token F)) : parseArray tokens =
    match tokens with
    | .rBracket :: rest => .ok (.array [], rest)
    | _ => parseCommaSeparatedValue [] tokens >>= fun (vals, rest) => .ok (.array vals, rest) := by
  unfold parseArray
  rw [parsedArray.eq_def]
  split
  · rfl
  · rw [parseCommaSeparatedValue]
    cases parsedCommaSeparatedValue [] tokens <;> rfl

theorem parseCommaSeparatedValue_eq (acc : List (Json F)) (tokens : List (Token F)) :
    parseCommaSeparatedValue acc tokens =
      match tokens with
      | .rBracket :: rest => .ok (acc.reverse, rest)
      | _ => parseValue tokens >>= fun (v, rest1) =>
        match rest1 with
        | .comma :: rest2 => parseCommaSeparatedValue (v :: acc) rest2
        | .rBracket :: rest2 => .ok ((v :: acc).reverse, rest2)
        | _ => .error (.failure "Expected comma or closing bracket") := by
  unfold parseCommaSeparatedValue
  rw [parsedCommaSeparatedValue.eq_def]
  split
  · rfl
  · rw [parseValue]
    cases parsedValue tokens with
    | error exn => rfl
    | ok p =>
      obtain ⟨⟨v, rest1⟩, h⟩ := p
      rcases rest1 with _ | ⟨token, rest2⟩
      · rfl
      · cases token with
        | comma =>
          exact Parsed.map_val_from (parsedCommaSeparatedValue (v :: acc) rest2) _
        | rBracket => rfl
        | _ => rfl

theorem parseObject_eq (tokens : List (Token F)) : parseObject tokens =
    match tokens with
    | .rBrace :: rest => .ok (.object [], rest)
    | _ => parseObjectFields [] tokens >>= fun (fields, rest) => .ok (.object fields, rest) := by
  unfold parseObject
  rw [parsedObject.eq_def]
  split
  · rfl
  · rw [parseObjectFields]
    cases parsedObjectFields [] tokens <;> rfl

theorem parseObjectFields_eq (acc : List (Bytes × Json F)) (tokens : List (Token F)) :
    parseObjectFields acc tokens =
      match tokens with
      | .str k :: rest1 =>
        match rest1 with
        | .colon :: rest2 => parseValue rest2 >>= fun (v, rest3) =>
          match rest3 with
          | .comma :: rest4 => parseObjectFields ((k, v) :: acc) rest4
          | .rBrace :: rest4 => .ok (((k, v) :: acc).reverse, rest4)
          | _ => .error (.failure "Expected comma or closing brace")
        | _ => .error (.failure "Expected colon")
      | _ => .error (.failure "Expected string key") := by
  unfold parseObjectFields
  rw [parsedObjectFields.eq_def]
  split
  · rename_i k rest1
    rcases rest1 with _ | ⟨token, rest2⟩
    · rfl
    · cases token with
      | colon =>
        simp only [parseValue]
        cases parsedValue rest2 with
        | error exn => rfl
        | ok p =>
          obtain ⟨⟨v, rest3⟩, h⟩ := p
          rcases rest3 with _ | ⟨token, rest4⟩
          · rfl
          · cases token with
            | comma =>
              exact Parsed.map_val_from (parsedObjectFields ((k, v) :: acc) rest4) _
            | rBrace => rfl
            | _ => rfl
      | _ => rfl
  · rfl

end OCamlStudy.JsonParser
