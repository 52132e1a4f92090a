import OCamlStudy.JsonParser.Parser

/-! # What the parser accepts

The token lists that the parser reads as a value are those of the grammar, but
for a comma that may follow the last element of an array. The relation counts
these commas; without them it is the grammar.
-/

namespace OCamlStudy.JsonParser

open OCaml

variable {F : Type}

mutual

/-- The token list is read as the value and has `k` commas before a closing bracket. -/
inductive Reads : Json F → List (Token F) → ℕ → Prop
  | null : Reads .null [.null] 0
  | bool (b : Bool) : Reads (.bool b) [.bool b] 0
  | int (n : Int63) : Reads (.int n) [.intTok n] 0
  | float (f : F) : Reads (.float f) [.floatTok f] 0
  | string (s : Bytes) : Reads (.string s) [.str s] 0
  | emptyArray : Reads (.array []) [.lBracket, .rBracket] 0
  | array {elems : List (Json F)} {ts : List (Token F)} {k : ℕ} :
    ReadsElems elems ts k → Reads (.array elems) (.lBracket :: ts) k
  | emptyObject : Reads (.object []) [.lBrace, .rBrace] 0
  | object {fields : List (Bytes × Json F)} {ts : List (Token F)} {k : ℕ} :
    ReadsFields fields ts k → Reads (.object fields) (.lBrace :: ts) k

inductive ReadsElems : List (Json F) → List (Token F) → ℕ → Prop
  | last {v : Json F} {ts : List (Token F)} {k : ℕ} :
    Reads v ts k → ReadsElems [v] (ts ++ [.rBracket]) k
  | trailing {v : Json F} {ts : List (Token F)} {k : ℕ} :
    Reads v ts k → ReadsElems [v] (ts ++ [.comma, .rBracket]) (k + 1)
  | cons {v : Json F} {elems : List (Json F)} {ts ts' : List (Token F)} {k k' : ℕ} :
    Reads v ts k → ReadsElems elems ts' k' → ReadsElems (v :: elems) (ts ++ .comma :: ts') (k + k')

inductive ReadsFields : List (Bytes × Json F) → List (Token F) → ℕ → Prop
  | last {key : Bytes} {v : Json F} {ts : List (Token F)} {k : ℕ} :
    Reads v ts k → ReadsFields [(key, v)] (.str key :: .colon :: (ts ++ [.rBrace])) k
  | cons {key : Bytes} {v : Json F} {fields : List (Bytes × Json F)} {ts ts' : List (Token F)}
    {k k' : ℕ} : Reads v ts k → ReadsFields fields ts' k' →
      ReadsFields ((key, v) :: fields) (.str key :: .colon :: (ts ++ .comma :: ts')) (k + k')

end

section Sound

def ReadsValue (tokens : List (Token F)) (p : Json F × List (Token F)) : Prop :=
  ∃ ts k, Reads p.1 ts k ∧ tokens = ts ++ p.2

variable {n : ℕ} (hvalue : ∀ tokens : List (Token F), tokens.length ≤ n →
  (parseValue tokens).Ensures (ReadsValue tokens))

include hvalue

theorem parseCommaSeparatedValue_ensures (acc : List (Json F)) {tokens : List (Token F)}
    (hn : tokens.length ≤ n) : (parseCommaSeparatedValue acc tokens).Ensures fun p =>
      (tokens = .rBracket :: p.2 ∧ p.1 = acc.reverse) ∨
        ∃ elems ts k, ReadsElems elems ts k ∧ p.1 = acc.reverse ++ elems ∧ tokens = ts ++ p.2 := by
  induction hlen : tokens.length using Nat.strong_induction_on generalizing acc tokens with
  | _ m ih =>
    rw [parseCommaSeparatedValue_eq]
    split
    · exact Raises.ensures_ok (Or.inl ⟨rfl, rfl⟩)
    · refine (hvalue tokens hn).bind ?_
      rintro ⟨v, rest1⟩ ⟨ts, k, hread, htokens⟩
      dsimp only at hread htokens ⊢
      split
      · rename_i rest2
        have hlt : rest2.length < m := by
          rw [← hlen, htokens, List.length_append, List.length_cons]
          omega
        refine (ih _ hlt (v :: acc) (by omega) rfl).mono ?_
        rintro ⟨vals, rest⟩ (⟨hrest, hvals⟩ | ⟨elems, ts', k', hreads, hvals, hrest⟩)
        · refine Or.inr ⟨[v], ts ++ [.comma, .rBracket], k + 1, .trailing hread, ?_, ?_⟩
          · rw [hvals, List.reverse_cons]
          · rw [htokens, hrest]
            simp
        · refine Or.inr ⟨v :: elems, ts ++ .comma :: ts', k + k', .cons hread hreads, ?_, ?_⟩
          · rw [hvals, List.reverse_cons, List.append_assoc, List.singleton_append]
          · rw [htokens, hrest]
            simp
      · rename_i rest2
        refine Raises.ensures_ok (Or.inr ⟨[v], ts ++ [.rBracket], k, .last hread, ?_, ?_⟩)
        · rw [List.reverse_cons]
        · rw [htokens]
          simp
      · exact Raises.ensures_failure _

theorem parseObjectFields_ensures (acc : List (Bytes × Json F)) {tokens : List (Token F)}
    (hn : tokens.length ≤ n) : (parseObjectFields acc tokens).Ensures fun p =>
      ∃ fields ts k, ReadsFields fields ts k ∧ p.1 = acc.reverse ++ fields ∧
        tokens = ts ++ p.2 := by
  induction hlen : tokens.length using Nat.strong_induction_on generalizing acc tokens with
  | _ m ih =>
    rw [parseObjectFields_eq]
    split
    · rename_i key rest1
      split
      · rename_i rest2
        simp only [List.length_cons] at hlen hn
        refine (hvalue rest2 (by omega)).bind ?_
        rintro ⟨v, rest3⟩ ⟨ts, k, hread, htokens⟩
        dsimp only at hread htokens ⊢
        split
        · rename_i rest4
          have hlt : rest4.length < m := by
            rw [← hlen, htokens, List.length_append, List.length_cons]
            omega
          refine (ih _ hlt ((key, v) :: acc) (by omega) rfl).mono ?_
          rintro ⟨vals, rest⟩ ⟨fields, ts', k', hreads, hvals, hrest⟩
          refine ⟨(key, v) :: fields, _, k + k', .cons hread hreads, ?_, ?_⟩
          · rw [hvals, List.reverse_cons, List.append_assoc, List.singleton_append]
          · rw [htokens, hrest]
            simp
        · rename_i rest4
          refine Raises.ensures_ok ⟨[(key, v)], _, k, .last hread, ?_, ?_⟩
          · rw [List.reverse_cons]
          · rw [htokens]
            simp
        · exact Raises.ensures_failure _
      · exact Raises.ensures_failure _
    · exact Raises.ensures_failure _

theorem parseArray_ensures {tokens : List (Token F)} (hn : tokens.length ≤ n) :
    (parseArray tokens).Ensures (ReadsValue (.lBracket :: tokens)) := by
  rw [parseArray_eq]
  split
  · exact Raises.ensures_ok ⟨_, 0, .emptyArray, rfl⟩
  · rename_i hclose
    refine (parseCommaSeparatedValue_ensures hvalue [] hn).bind ?_
    rintro ⟨vals, rest⟩ (⟨hrest, _⟩ | ⟨elems, ts, k, hreads, rfl, hrest⟩)
    · exact absurd hrest (hclose rest)
    · exact Raises.ensures_ok ⟨.lBracket :: ts, k, .array hreads, congrArg _ hrest⟩

theorem parseObject_ensures {tokens : List (Token F)} (hn : tokens.length ≤ n) :
    (parseObject tokens).Ensures (ReadsValue (.lBrace :: tokens)) := by
  rw [parseObject_eq]
  split
  · exact Raises.ensures_ok ⟨_, 0, .emptyObject, rfl⟩
  · refine (parseObjectFields_ensures hvalue [] hn).bind ?_
    rintro ⟨vals, rest⟩ ⟨fields, ts, k, hreads, rfl, hrest⟩
    exact Raises.ensures_ok ⟨.lBrace :: ts, k, .object hreads, congrArg _ hrest⟩

end Sound

/-- Whatever `parse_value` returns is read from the tokens; it raises `Failure` only. -/
theorem parseValue_ensures (tokens : List (Token F)) :
    (parseValue tokens).Ensures (ReadsValue tokens) := by
  have hbound : ∀ n, ∀ tokens : List (Token F), tokens.length ≤ n →
      (parseValue tokens).Ensures (ReadsValue tokens) := by
    intro n
    induction n with
    | zero =>
      intro tokens hn
      obtain rfl := List.length_eq_zero_iff.mp (Nat.le_zero.mp hn)
      rw [parseValue_eq]
      exact Raises.ensures_failure _
    | succ n ih =>
      intro tokens hn
      rw [parseValue_eq]
      split
      · exact Raises.ensures_ok ⟨_, 0, .int _, rfl⟩
      · exact Raises.ensures_ok ⟨_, 0, .float _, rfl⟩
      · exact Raises.ensures_ok ⟨_, 0, .bool _, rfl⟩
      · exact Raises.ensures_ok ⟨_, 0, .string _, rfl⟩
      · exact Raises.ensures_ok ⟨_, 0, .null, rfl⟩
      · exact parseObject_ensures ih (Nat.le_of_succ_le_succ hn)
      · exact parseArray_ensures ih (Nat.le_of_succ_le_succ hn)
      · exact Raises.ensures_failure _
  exact hbound _ tokens le_rfl

theorem Reads.ne_rBracket {v : Json F} {ts : List (Token F)} {k : ℕ} (h : Reads v ts k)
    (rest rest' : List (Token F)) : ts ++ rest ≠ .rBracket :: rest' := by
  cases h <;> simp

theorem ReadsElems.ne_rBracket {elems : List (Json F)} {ts : List (Token F)} {k : ℕ}
    (h : ReadsElems elems ts k) (rest rest' : List (Token F)) :
    ts ++ rest ≠ .rBracket :: rest' := by
  cases h with
  | last hv | trailing hv | cons hv _ =>
    rw [List.append_assoc]
    exact hv.ne_rBracket _ _

section Loop

variable {acc : List (Json F)} {v : Json F} {tokens rest2 : List (Token F)}
  (hclose : ∀ rest, tokens ≠ .rBracket :: rest)

include hclose

theorem parseCommaSeparatedValue_comma (hvalue : parseValue tokens = .ok (v, .comma :: rest2)) :
    parseCommaSeparatedValue acc tokens = parseCommaSeparatedValue (v :: acc) rest2 := by
  rw [parseCommaSeparatedValue_eq]
  split
  · exact absurd rfl (hclose _)
  · rw [hvalue, Raises.ok_bind]

theorem parseCommaSeparatedValue_rBracket
    (hvalue : parseValue tokens = .ok (v, .rBracket :: rest2)) :
    parseCommaSeparatedValue acc tokens = .ok (acc.reverse ++ [v], rest2) := by
  rw [parseCommaSeparatedValue_eq]
  split
  · exact absurd rfl (hclose _)
  · rw [hvalue, Raises.ok_bind]
    dsimp only
    rw [List.reverse_cons]

end Loop

mutual

theorem Reads.parse {v : Json F} {ts : List (Token F)} {k : ℕ} :
    Reads v ts k → ∀ rest, parseValue (ts ++ rest) = .ok (v, rest)
  | .null, rest => parseValue_eq _
  | .bool b, rest => parseValue_eq _
  | .int n, rest => parseValue_eq _
  | .float f, rest => parseValue_eq _
  | .string s, rest => parseValue_eq _
  | .emptyArray, rest => (parseValue_eq _).trans (parseArray_eq _)
  | .array helems, rest => by
    rw [List.cons_append, parseValue_eq]
    dsimp only
    rw [parseArray_eq]
    split
    · rename_i hclose
      exact absurd hclose (helems.ne_rBracket _ _)
    · rw [helems.parse [] rest]
      rfl
  | .emptyObject, rest => (parseValue_eq _).trans (parseObject_eq _)
  | .object hfields, rest => by
    rw [List.cons_append, parseValue_eq]
    dsimp only
    rw [parseObject_eq]
    split
    · rename_i hclose
      cases hfields <;> cases hclose
    · rw [hfields.parse [] rest]
      rfl

theorem ReadsElems.parse {elems : List (Json F)} {ts : List (Token F)} {k : ℕ} :
    ReadsElems elems ts k → ∀ acc rest,
      parseCommaSeparatedValue acc (ts ++ rest) = .ok (acc.reverse ++ elems, rest)
  | .last hread, acc, rest => by
    rw [List.append_assoc]
    exact parseCommaSeparatedValue_rBracket (hread.ne_rBracket _) (hread.parse _)
  | .trailing hread, acc, rest => by
    rw [List.append_assoc, List.cons_append, List.singleton_append,
      parseCommaSeparatedValue_comma (hread.ne_rBracket _) (hread.parse _),
      parseCommaSeparatedValue_eq]
    dsimp only
    rw [List.reverse_cons]
  | .cons hread helems, acc, rest => by
    rw [List.append_assoc, List.cons_append,
      parseCommaSeparatedValue_comma (hread.ne_rBracket _) (hread.parse _), helems.parse,
      List.reverse_cons, List.append_assoc, List.singleton_append]

theorem ReadsFields.parse {fields : List (Bytes × Json F)} {ts : List (Token F)} {k : ℕ} :
    ReadsFields fields ts k → ∀ acc rest,
      parseObjectFields acc (ts ++ rest) = .ok (acc.reverse ++ fields, rest)
  | .last hread, acc, rest => by
    rw [List.cons_append, List.cons_append, List.append_assoc, parseObjectFields_eq]
    dsimp only
    rw [hread.parse, Raises.ok_bind, List.singleton_append, List.reverse_cons]
  | .cons hread hfields, acc, rest => by
    rw [List.cons_append, List.cons_append, List.append_assoc, parseObjectFields_eq]
    dsimp only
    rw [hread.parse, Raises.ok_bind, List.cons_append]
    dsimp only
    rw [hfields.parse, List.reverse_cons, List.append_assoc, List.singleton_append]

end

/-- **What `parse_value` returns.** -/
theorem parseValue_eq_ok_iff {tokens rest : List (Token F)} {v : Json F} :
    parseValue tokens = .ok (v, rest) ↔ ∃ ts k, Reads v ts k ∧ tokens = ts ++ rest := by
  constructor
  · intro h
    exact (parseValue_ensures tokens).of_ok h
  · rintro ⟨ts, k, hread, rfl⟩
    exact hread.parse rest

/-- What each `parse_json` makes of the tokens of a whole text. -/
theorem parse_whole_iff {tokens : List (Token F)} {v : Json F} :
    (do
      let (json, rest) ← parseValue tokens
      match rest with
      | [] => return json
      | _ => .error (.failure "Extra data after JSON") : Raises (Json F)) = .ok v ↔
      ∃ k, Reads v tokens k := by
  constructor
  · intro h
    obtain ⟨⟨json, rest⟩, hvalue, h⟩ := Raises.bind_ok h
    cases rest with
    | nil =>
      cases h
      obtain ⟨ts, k, hread, rfl⟩ := parseValue_eq_ok_iff.mp hvalue
      exact ⟨k, (List.append_nil ts).symm ▸ hread⟩
    | cons => cases h
  · rintro ⟨k, hread⟩
    rw [parseValue_eq_ok_iff.mpr ⟨tokens, k, hread, (List.append_nil tokens).symm⟩]
    rfl

theorem intercalate_elemToks_cons {v : Json F} {elems : List (Json F)} (h : elems ≠ []) :
    [.comma].intercalate (elemToks (v :: elems)) =
      toks v ++ .comma :: [.comma].intercalate (elemToks elems) := by
  cases elems with
  | nil => exact absurd rfl h
  | cons w elems =>
    rw [elemToks, elemToks, List.intercalate_cons_cons, List.append_assoc, List.singleton_append]

theorem intercalate_fieldToks_cons {key : Bytes} {v : Json F} {fields : List (Bytes × Json F)}
    (h : fields ≠ []) : [.comma].intercalate (fieldToks ((key, v) :: fields)) =
      .str key :: .colon :: (toks v ++ .comma :: [.comma].intercalate (fieldToks fields)) := by
  cases fields with
  | nil => exact absurd rfl h
  | cons field fields =>
    rw [fieldToks, fieldToks, List.intercalate_cons_cons, List.append_assoc, List.singleton_append,
      List.cons_append, List.cons_append]

theorem ReadsElems.ne_nil {elems : List (Json F)} {ts : List (Token F)} {k : ℕ}
    (h : ReadsElems elems ts k) : elems ≠ [] := by
  cases h <;> exact List.cons_ne_nil _ _

theorem ReadsFields.ne_nil {fields : List (Bytes × Json F)} {ts : List (Token F)} {k : ℕ}
    (h : ReadsFields fields ts k) : fields ≠ [] := by
  cases h <;> exact List.cons_ne_nil _ _

mutual

theorem Reads.sublist {v : Json F} {ts : List (Token F)} {k : ℕ} :
    Reads v ts k → (toks v).Sublist ts ∧ ts.length = (toks v).length + k
  | .null => ⟨List.Sublist.refl _, rfl⟩
  | .bool b => ⟨List.Sublist.refl _, rfl⟩
  | .int n => ⟨List.Sublist.refl _, rfl⟩
  | .float f => ⟨List.Sublist.refl _, rfl⟩
  | .string s => ⟨List.Sublist.refl _, rfl⟩
  | .emptyArray => ⟨List.Sublist.refl _, rfl⟩
  | .array helems => by
    obtain ⟨hsub, hlen⟩ := helems.sublist
    refine ⟨hsub.cons_cons _, ?_⟩
    rw [toks, List.cons_append, List.length_cons, List.length_cons, hlen]
    omega
  | .emptyObject => ⟨List.Sublist.refl _, rfl⟩
  | .object hfields => by
    obtain ⟨hsub, hlen⟩ := hfields.sublist
    refine ⟨hsub.cons_cons _, ?_⟩
    rw [toks, List.cons_append, List.length_cons, List.length_cons, hlen]
    omega

theorem ReadsElems.sublist {elems : List (Json F)} {ts : List (Token F)} {k : ℕ} :
    ReadsElems elems ts k →
      ([Token.comma].intercalate (elemToks elems) ++ [Token.rBracket]).Sublist ts ∧
        ts.length = ([Token.comma].intercalate (elemToks elems) ++ [Token.rBracket]).length + k
  | .last hread => by
    obtain ⟨hsub, hlen⟩ := hread.sublist
    rw [elemToks, elemToks, List.intercalate_singleton]
    refine ⟨hsub.append_right _, ?_⟩
    simp only [List.length_append, hlen]
    omega
  | .trailing hread => by
    obtain ⟨hsub, hlen⟩ := hread.sublist
    rw [elemToks, elemToks, List.intercalate_singleton]
    refine ⟨hsub.append (List.sublist_cons_self _ _), ?_⟩
    simp only [List.length_append, List.length_cons, List.length_nil, hlen]
    omega
  | .cons hread helems => by
    obtain ⟨hsub, hlen⟩ := hread.sublist
    obtain ⟨hsub', hlen'⟩ := helems.sublist
    rw [intercalate_elemToks_cons helems.ne_nil, List.append_assoc, List.cons_append]
    refine ⟨hsub.append (hsub'.cons_cons _), ?_⟩
    simp only [List.length_append, List.length_cons, List.length_nil, hlen, hlen']
    omega

theorem ReadsFields.sublist {fields : List (Bytes × Json F)} {ts : List (Token F)} {k : ℕ} :
    ReadsFields fields ts k →
      ([Token.comma].intercalate (fieldToks fields) ++ [Token.rBrace]).Sublist ts ∧
        ts.length = ([Token.comma].intercalate (fieldToks fields) ++ [Token.rBrace]).length + k
  | .last hread => by
    obtain ⟨hsub, hlen⟩ := hread.sublist
    rw [fieldToks, fieldToks, List.intercalate_singleton]
    refine ⟨((hsub.append_right _).cons_cons _).cons_cons _, ?_⟩
    simp only [List.length_append, List.length_cons, List.length_nil, hlen]
    omega
  | .cons hread hfields => by
    obtain ⟨hsub, hlen⟩ := hread.sublist
    obtain ⟨hsub', hlen'⟩ := hfields.sublist
    rw [intercalate_fieldToks_cons hfields.ne_nil, List.cons_append, List.cons_append,
      List.append_assoc, List.cons_append]
    refine ⟨((hsub.append (hsub'.cons_cons _)).cons_cons _).cons_cons _, ?_⟩
    simp only [List.length_append, List.length_cons, List.length_nil, hlen, hlen']
    omega

end

def Token.mapFloat {G : Type} (g : F → G) : Token F → Token G
  | .floatTok f => .floatTok (g f)
  | .str s => .str s
  | .intTok n => .intTok n
  | .bool b => .bool b
  | .null => .null
  | .lBrace => .lBrace
  | .rBrace => .rBrace
  | .lBracket => .lBracket
  | .rBracket => .rBracket
  | .colon => .colon
  | .comma => .comma

theorem Token.mapFloat_id (token : Token F) : token.mapFloat id = token := by
  cases token <;> rfl

section MapFloat

variable {G : Type} (g : F → G)

mutual

theorem Reads.mapFloat {v : Json F} {ts : List (Token F)} {k : ℕ} :
    Reads v ts k → ∃ v' : Json G, Reads v' (ts.map (Token.mapFloat g)) k
  | .null => ⟨_, .null⟩
  | .bool b => ⟨_, .bool b⟩
  | .int n => ⟨_, .int n⟩
  | .float f => ⟨_, .float (g f)⟩
  | .string s => ⟨_, .string s⟩
  | .emptyArray => ⟨_, .emptyArray⟩
  | .array helems => by
    obtain ⟨elems, h⟩ := helems.mapFloat
    exact ⟨_, .array h⟩
  | .emptyObject => ⟨_, .emptyObject⟩
  | .object hfields => by
    obtain ⟨fields, h⟩ := hfields.mapFloat
    exact ⟨_, .object h⟩

theorem ReadsElems.mapFloat {elems : List (Json F)} {ts : List (Token F)} {k : ℕ} :
    ReadsElems elems ts k →
      ∃ elems' : List (Json G), ReadsElems elems' (ts.map (Token.mapFloat g)) k
  | .last hread => by
    obtain ⟨v, h⟩ := hread.mapFloat
    rw [List.map_append]
    exact ⟨_, .last h⟩
  | .trailing hread => by
    obtain ⟨v, h⟩ := hread.mapFloat
    rw [List.map_append]
    exact ⟨_, .trailing h⟩
  | .cons hread helems => by
    obtain ⟨v, h⟩ := hread.mapFloat
    obtain ⟨elems, h'⟩ := helems.mapFloat
    rw [List.map_append]
    exact ⟨_, .cons h h'⟩

theorem ReadsFields.mapFloat {fields : List (Bytes × Json F)} {ts : List (Token F)} {k : ℕ} :
    ReadsFields fields ts k →
      ∃ fields' : List (Bytes × Json G), ReadsFields fields' (ts.map (Token.mapFloat g)) k
  | .last hread => by
    obtain ⟨v, h⟩ := hread.mapFloat
    rw [List.map_cons, List.map_cons, List.map_append]
    exact ⟨_, .last h⟩
  | .cons hread hfields => by
    obtain ⟨v, h⟩ := hread.mapFloat
    obtain ⟨fields, h'⟩ := hfields.mapFloat
    rw [List.map_cons, List.map_cons, List.map_append]
    exact ⟨_, .cons h h'⟩

end

end MapFloat

mutual

theorem Reads.mem {v : Json F} {ts : List (Token F)} {k : ℕ} {token : Token F} :
    Reads v ts k → token ∈ ts → token = .comma ∨ token ∈ toks v
  | .null, h => .inr h
  | .bool b, h => .inr h
  | .int n, h => .inr h
  | .float f, h => .inr h
  | .string s, h => .inr h
  | .emptyArray, h => .inr h
  | .array helems, h => by
    rcases List.mem_cons.mp h with rfl | h
    · exact .inr List.mem_cons_self
    · exact (helems.mem h).imp id (List.mem_cons_of_mem _)
  | .emptyObject, h => .inr h
  | .object hfields, h => by
    rcases List.mem_cons.mp h with rfl | h
    · exact .inr List.mem_cons_self
    · exact (hfields.mem h).imp id (List.mem_cons_of_mem _)

theorem ReadsElems.mem {elems : List (Json F)} {ts : List (Token F)} {k : ℕ} {token : Token F} :
    ReadsElems elems ts k → token ∈ ts →
      token = .comma ∨ token ∈ [Token.comma].intercalate (elemToks elems) ++ [Token.rBracket]
  | .last hread, h => by
    rw [elemToks, elemToks, List.intercalate_singleton]
    rcases List.mem_append.mp h with h | h
    · exact (hread.mem h).imp id (List.mem_append_left _)
    · exact .inr (List.mem_append_right _ h)
  | .trailing hread, h => by
    rw [elemToks, elemToks, List.intercalate_singleton]
    rcases List.mem_append.mp h with h | h
    · exact (hread.mem h).imp id (List.mem_append_left _)
    · exact (List.mem_cons.mp h).imp id (List.mem_append_right _)
  | .cons hread helems, h => by
    rw [intercalate_elemToks_cons helems.ne_nil, List.append_assoc, List.cons_append]
    rcases List.mem_append.mp h with h | h
    · exact (hread.mem h).imp id (List.mem_append_left _)
    rcases List.mem_cons.mp h with rfl | h
    · exact .inl rfl
    · exact (helems.mem h).imp id fun h => List.mem_append_right _ (List.mem_cons_of_mem _ h)

theorem ReadsFields.mem {fields : List (Bytes × Json F)} {ts : List (Token F)} {k : ℕ}
    {token : Token F} : ReadsFields fields ts k → token ∈ ts →
      token = .comma ∨ token ∈ [Token.comma].intercalate (fieldToks fields) ++ [Token.rBrace]
  | .last hread, h => by
    rw [fieldToks, fieldToks, List.intercalate_singleton, List.cons_append, List.cons_append]
    rcases List.mem_cons.mp h with rfl | h
    · exact .inr List.mem_cons_self
    rcases List.mem_cons.mp h with rfl | h
    · exact .inr (List.mem_cons_of_mem _ List.mem_cons_self)
    rcases List.mem_append.mp h with h | h
    · exact (hread.mem h).imp id fun h => by simp [h]
    · exact .inr (by simp [List.mem_singleton.mp h])
  | .cons hread hfields, h => by
    rw [intercalate_fieldToks_cons hfields.ne_nil, List.cons_append, List.cons_append,
      List.append_assoc, List.cons_append]
    rcases List.mem_cons.mp h with rfl | h
    · exact .inr List.mem_cons_self
    rcases List.mem_cons.mp h with rfl | h
    · exact .inr (List.mem_cons_of_mem _ List.mem_cons_self)
    rcases List.mem_append.mp h with h | h
    · exact (hread.mem h).imp id fun h => by simp [h]
    rcases List.mem_cons.mp h with rfl | h
    · exact .inl rfl
    · exact (hfields.mem h).imp id fun h => by
        exact List.mem_cons_of_mem _ (List.mem_cons_of_mem _
          (List.mem_append_right _ (List.mem_cons_of_mem _ h)))

end

theorem Reads.eq_toks {v : Json F} {ts : List (Token F)} (h : Reads v ts 0) : ts = toks v :=
  (h.sublist.1.eq_of_length h.sublist.2.symm).symm

mutual

theorem reads_toks : (v : Json F) → Reads v (toks v) 0
  | .null => .null
  | .bool b => .bool b
  | .int n => .int n
  | .float f => .float f
  | .string s => .string s
  | .array elems =>
    if h : elems = [] then h ▸ .emptyArray else .array (reads_elemToks elems h)
  | .object fields =>
    if h : fields = [] then h ▸ .emptyObject else .object (reads_fieldToks fields h)

theorem reads_elemToks : (elems : List (Json F)) → elems ≠ [] →
    ReadsElems elems ([.comma].intercalate (elemToks elems) ++ [.rBracket]) 0
  | [], h => absurd rfl h
  | [v], _ => by
    rw [elemToks, elemToks, List.intercalate_singleton]
    exact .last (reads_toks v)
  | v :: w :: elems, _ => by
    rw [intercalate_elemToks_cons (List.cons_ne_nil _ _), List.append_assoc, List.cons_append]
    exact .cons (reads_toks v) (reads_elemToks (w :: elems) (List.cons_ne_nil _ _))

theorem reads_fieldToks : (fields : List (Bytes × Json F)) → fields ≠ [] →
    ReadsFields fields ([.comma].intercalate (fieldToks fields) ++ [.rBrace]) 0
  | [], h => absurd rfl h
  | [(key, v)], _ => by
    rw [fieldToks, fieldToks, List.intercalate_singleton]
    exact .last (reads_toks v)
  | (key, v) :: field :: fields, _ => by
    rw [intercalate_fieldToks_cons (List.cons_ne_nil _ _), List.cons_append, List.cons_append,
      List.append_assoc, List.cons_append]
    exact .cons (reads_toks v) (reads_fieldToks (field :: fields) (List.cons_ne_nil _ _))

end

/-- The value that the tokens begin with, if any, has no comma before a closing bracket. -/
def NoTrailingComma (tokens : List (Token F)) : Prop :=
  ∀ v ts k rest, Reads v ts k → tokens = ts ++ rest → k = 0

/-- The parser reads the tokens by the grammar and raises `Failure` outside it. -/
structure ByGrammar (tokens : List (Token F)) : Prop where
  value : ∀ v rest, parseValue tokens = .ok (v, rest) ↔ tokens = toks v ++ rest
  failure : (¬ ∃ v rest, tokens = toks v ++ rest) →
    ∃ msg, parseValue tokens = .error (.failure msg)
  json : ∀ conv str, lex conv str = .ok tokens → (∀ v, tokens ≠ toks v) →
    ∃ msg, parseJson conv str = .error (.failure msg)

/-- What remains after the value makes `parse_json` raise. -/
theorem parseJson_ensures {conv : FloatConv F} {str : Bytes} {tokens : List (Token F)}
    (hlex : lex conv str = .ok tokens) :
    (parseJson conv str).Ensures fun v => parseValue tokens = .ok (v, []) := by
  rw [parseJson, hlex, Raises.ok_bind]
  have hvalue := parseValue_ensures tokens
  cases hparse : parseValue tokens with
  | error exn =>
    rw [hparse] at hvalue
    exact hvalue
  | ok p =>
    obtain ⟨v, rest⟩ := p
    cases rest with
    | nil => exact rfl
    | cons token rest => exact Raises.ensures_failure _

/-- **The parser follows the grammar exactly on the token lists without a trailing comma.** -/
theorem byGrammar_iff (tokens : List (Token F)) : ByGrammar tokens ↔ NoTrailingComma tokens := by
  constructor
  · rintro h v ts k rest hread rfl
    have htoks := (h.value v rest).mp (hread.parse rest)
    have hlen := hread.sublist.2
    rw [List.append_cancel_right htoks] at hlen
    omega
  · intro h
    have hvalue : ∀ v rest, parseValue tokens = .ok (v, rest) ↔ tokens = toks v ++ rest := by
      intro v rest
      constructor
      · intro hparse
        obtain ⟨ts, k, hread, htokens⟩ := parseValue_eq_ok_iff.mp hparse
        obtain rfl := h v ts k rest hread htokens
        rwa [hread.eq_toks] at htokens
      · rintro rfl
        exact (reads_toks v).parse rest
    refine ⟨hvalue, fun hnone => ?_, fun conv str hlex hne => ?_⟩
    · refine (parseValue_ensures tokens).failure ?_
      rintro ⟨v, rest⟩ hread
      exact hnone ⟨v, rest, (hvalue v rest).mp (parseValue_eq_ok_iff.mpr hread)⟩
    · refine (parseJson_ensures hlex).failure ?_
      intro v hparse
      exact hne v (by rw [(hvalue v []).mp hparse, List.append_nil])

/-- The tokens of `[1,]` are read as `[1]`. -/
theorem trailing_comma_read :
    ¬ ByGrammar ([.lBracket, .intTok ⟨1, by decide⟩, .comma, .rBracket] : List (Token Unit)) := by
  intro h
  have hread : Reads (.array [.int ⟨1, by decide⟩])
      ([.lBracket, .intTok ⟨1, by decide⟩, .comma, .rBracket] : List (Token Unit)) 1 :=
    .array (.trailing (.int _))
  have htoks := (h.value _ []).mp (hread.parse [])
  exact absurd (congrArg List.length htoks) (by decide)

end OCamlStudy.JsonParser
