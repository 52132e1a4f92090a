import OCamlStudy.OCaml.Decimal

/-! # JSON values and tokens

The values of the parser, its tokens, and the printer. An `int` carries its range.
Floats are a type of which only the two conversions of the standard library are
used.
-/

namespace OCamlStudy.JsonParser

open OCaml

/-- An `int`. -/
abbrev Int63 := {n : ℤ // -2 ^ 62 ≤ n ∧ n < 2 ^ 62}

/-- `int_of_string_opt`, with the range of its result. -/
def int63OfString (s : Bytes) : Option Int63 :=
  (intOfString s).pmap (fun n h => ⟨n, h⟩) fun _ h => intOfString_bounds h

theorem int63OfString_stringOfInt (n : Int63) : int63OfString (stringOfInt n) = some n := by
  have h := intOfString_stringOfInt n.property.1 n.property.2
  simp only [int63OfString, h, Option.pmap_some]

/-- `float_of_string_opt` and `string_of_float`. -/
structure FloatConv (F : Type) where
  floatOfString : Bytes → Option F
  stringOfFloat : F → Bytes

inductive Json (F : Type) where
  | null
  | bool (b : Bool)
  | int (n : Int63)
  | float (f : F)
  | string (s : Bytes)
  | array (elems : List (Json F))
  | object (fields : List (Bytes × Json F))

inductive Token (F : Type) where
  | lBrace
  | rBrace
  | lBracket
  | rBracket
  | colon
  | comma
  | str (s : Bytes)
  | intTok (n : Int63)
  | floatTok (f : F)
  | bool (b : Bool)
  | null

def stringConcat (sep : Bytes) (strs : List Bytes) : Bytes := sep.intercalate strs

section ToString

variable {F : Type} (conv : FloatConv F)

mutual

def Json.toString : Json F → Bytes
  | .null => bytes "null"
  | .bool b => if b then bytes "true" else bytes "false"
  | .int n => stringOfInt n
  | .float f => conv.stringOfFloat f
  | .string s => bytes "\"" ++ s ++ bytes "\""
  | .array elems => bytes "[" ++ stringConcat (bytes ", ") (elemsStr elems) ++ bytes "]"
  | .object fields => bytes "\x7b" ++ stringConcat (bytes ", ") (fieldStrs fields) ++ bytes "\x7d"

def elemsStr : List (Json F) → List Bytes
  | [] => []
  | v :: elems => v.toString :: elemsStr elems

def fieldStrs : List (Bytes × Json F) → List Bytes
  | [] => []
  | (k, v) :: fields => (bytes "\"" ++ k ++ bytes "\": " ++ v.toString) :: fieldStrs fields

end

end ToString

section Tokens

variable {F : Type}

mutual

/-- The token list of a value in the grammar of JSON. -/
def toks : Json F → List (Token F)
  | .null => [.null]
  | .bool b => [.bool b]
  | .int n => [.intTok n]
  | .float f => [.floatTok f]
  | .string s => [.str s]
  | .array elems => .lBracket :: [.comma].intercalate (elemToks elems) ++ [.rBracket]
  | .object fields => .lBrace :: [.comma].intercalate (fieldToks fields) ++ [.rBrace]

def elemToks : List (Json F) → List (List (Token F))
  | [] => []
  | v :: elems => toks v :: elemToks elems

def fieldToks : List (Bytes × Json F) → List (List (Token F))
  | [] => []
  | (k, v) :: fields => (.str k :: .colon :: toks v) :: fieldToks fields

end

/-- No number in the value is a float. -/
def Json.FloatFree (j : Json F) : Prop := ∀ f, .floatTok f ∉ toks j

/-- No string and no key in the value holds a double quote. -/
def Json.QuoteFree (j : Json F) : Prop := ∀ s, .str s ∈ toks j → 34 ∉ s

end Tokens

theorem mem_intercalate_of_mem {α : Type} {sep x : List α} {xs : List (List α)} {a : α}
    (hx : x ∈ xs) (ha : a ∈ x) : a ∈ sep.intercalate xs := by
  induction xs with
  | nil => cases hx
  | cons y xs ih =>
    cases xs with
    | nil =>
      obtain rfl := List.mem_singleton.mp hx
      rwa [List.intercalate_singleton]
    | cons z xs =>
      rw [List.intercalate_cons_cons, List.mem_append]
      rcases List.mem_cons.mp hx with rfl | hx
      · exact Or.inl (List.mem_append_left _ ha)
      · exact Or.inr (ih hx)

theorem mem_intercalate {α : Type} {sep : α} {xs : List (List α)} {a : α}
    (h : a ∈ [sep].intercalate xs) : a = sep ∨ ∃ x ∈ xs, a ∈ x := by
  induction xs with
  | nil => cases h
  | cons x xs ih =>
    cases xs with
    | nil =>
      rw [List.intercalate_singleton] at h
      exact .inr ⟨x, List.mem_cons_self, h⟩
    | cons y xs =>
      rw [List.intercalate_cons_cons, List.mem_append, List.mem_append] at h
      rcases h with (h | h) | h
      · exact .inr ⟨x, List.mem_cons_self, h⟩
      · exact .inl (List.mem_singleton.mp h)
      · exact (ih h).imp id fun ⟨z, hz, ha⟩ => ⟨z, List.mem_cons_of_mem _ hz, ha⟩

end OCamlStudy.JsonParser
