import OCamlStudy.JsonParser.RoundTrip

/-! # Outside of string literals

Nothing is escaped in a string, so a place of the input is inside a string literal
if an odd number of double quotes stands before it. The text of every lexeme has
an even number, and outside of its strings only some characters.
-/

namespace OCamlStudy.JsonParser

open OCaml

variable {F : Type} {conv : FloatConv F}

/-- What stands before a place that is not inside a string literal. -/
def Outside (before : Bytes) : Prop := Even (before.count 34)

theorem outside_nil : Outside [] := Even.zero

theorem Outside.append {s t : Bytes} (hs : Outside s) : Outside (s ++ t) ↔ Outside t := by
  rw [Outside, List.count_append]
  exact Nat.even_add.trans ⟨fun h => h.mp hs, fun h => iff_of_true hs h⟩

theorem outside_of_not_mem {s : Bytes} (h : 34 ∉ s) : Outside s := by
  rw [Outside, List.count_eq_zero.mpr h]
  exact Even.zero

theorem outside_quoted {s : Bytes} (h : 34 ∉ s) : Outside (34 :: (s ++ [34])) := by
  rw [Outside, List.count_cons_self, List.count_append, List.count_eq_zero.mpr h]
  decide

def readable (c : UInt8) : Bool :=
  (bytes "\" \n\r\t\x7b\x7d[]:,truefalsenull").contains c || isHexDigit c || isHexPrefixChar c ||
    isDigitOrDot c

section Lexeme

variable {text before after : Bytes} {token : Option (Token F)} {c : UInt8}

theorem punctuation_readable {token : Token F} (h : punctuation c = some token) :
    readable c = true := by
  unfold punctuation at h
  split_ifs at h with h1 h2 h3 h4 h5 h6
  all_goals
    subst c
    rfl

theorem isHexDigit_ne_quote (h : isHexDigit c = true) : c ≠ 34 := by
  rintro rfl
  cases h

theorem isDigitOrDot_ne_quote (h : isDigitOrDot c = true) : c ≠ 34 := by
  rintro rfl
  cases h

theorem Lexeme.shape (h : Lexeme conv text token) :
    (∃ s, 34 ∉ s ∧ text = 34 :: (s ++ [34])) ∨
      34 ∉ text ∧ ∀ c ∈ text, readable c = true := by
  cases h with
  | blank h =>
    right
    rcases h with rfl | rfl | rfl | rfl <;> exact ⟨by decide, List.all_eq_true.mp rfl⟩
  | punctuation h =>
    right
    constructor
    · rw [List.mem_singleton]
      exact (punctuation_ok h).1.symm
    · rintro c hc
      obtain rfl := List.mem_singleton.mp hc
      exact punctuation_readable h
  | string h => exact .inl ⟨_, h, rfl⟩
  | word h =>
    right
    simp only [wordTokens, List.mem_cons, Prod.mk.injEq, List.not_mem_nil, or_false] at h
    rcases h with ⟨h, -⟩ | ⟨h, -⟩ | ⟨h, -⟩ <;> rw [h] <;>
      exact ⟨by decide, List.all_eq_true.mp rfl⟩
  | @hex x digits token hx hdigits h =>
    right
    rw [isHexPrefixChar, Bool.or_eq_true, decide_eq_true_eq, decide_eq_true_eq] at hx
    have hx34 : (34 : UInt8) ≠ x := by
      rcases hx with rfl | rfl <;> decide
    have hxr : readable x = true := by
      rcases hx with rfl | rfl <;> rfl
    simp only [List.mem_cons, not_or, forall_eq_or_imp]
    refine ⟨⟨by decide, hx34, fun hmem => isHexDigit_ne_quote (hdigits 34 hmem) rfl⟩, rfl, hxr, ?_⟩
    rintro c hc
    simp [readable, hdigits c hc]
  | number hs h =>
    right
    refine ⟨fun hmem => isDigitOrDot_ne_quote (hs 34 hmem) rfl, ?_⟩
    rintro c hc
    simp [readable, hs c hc]

theorem Lexeme.outside (h : Lexeme conv text token) : Outside text := by
  rcases h.shape with ⟨s, hs, rfl⟩ | ⟨hq, -⟩
  · exact outside_quoted hs
  · exact outside_of_not_mem hq

theorem Lexeme.readable_of_outside (h : Lexeme conv text token) (heq : text = before ++ c :: after)
    (ho : Outside before) : readable c = true := by
  rcases h.shape with ⟨s, hs, rfl⟩ | ⟨-, hall⟩
  · cases before with
    | nil =>
      obtain ⟨rfl, -⟩ := List.cons.inj heq
      rfl
    | cons d before =>
      -- Between the quotes the opening one is the only one before the place.
      exfalso
      obtain ⟨rfl, htail⟩ := List.cons.inj heq
      have hinitial : before <+: s ++ [34] := ⟨c :: after, htail.symm⟩
      have hbefore : 34 ∉ before := by
        rcases List.prefix_concat_iff.mp hinitial with rfl | hinitial
        · simp at htail
        · exact fun hmem => hs (hinitial.subset hmem)
      rw [Outside, List.count_cons_self, List.count_eq_zero.mpr hbefore] at ho
      exact absurd ho (by decide)
  · exact hall c (heq ▸ List.mem_append_right _ List.mem_cons_self)

end Lexeme

/-- An input cut into lexemes, and their tokens. -/
inductive Lexed (conv : FloatConv F) : Bytes → List (Token F) → Prop
  | nil : Lexed conv [] []
  | cons {text chars : Bytes} {token : Option (Token F)} {tokens : List (Token F)}
      (h : Lexeme conv text token) (hrest : Lexed conv chars tokens) :
      Lexed conv (text ++ chars) (token.toList ++ tokens)

theorem lexed_of_lex {chars : Bytes} {tokens : List (Token F)} (h : lex conv chars = .ok tokens) :
    Lexed conv chars tokens := by
  refine Steps.lex_induction (motive := Lexed conv) .nil ?_ h
  intro c rest token remaining tokens hstep _ ih
  obtain ⟨text, rfl, hlexeme⟩ := lexeme_of_lexToken hstep
  exact .cons hlexeme ih

/-- **What the lexer reads outside of strings is readable.** -/
theorem Lexed.readable {chars before after : Bytes} {tokens : List (Token F)} {c : UInt8}
    (h : Lexed conv chars tokens) (heq : chars = before ++ c :: after) (ho : Outside before) :
    readable c = true := by
  induction h generalizing before with
  | nil => simp at heq
  | @cons text chars token tokens h _ ih =>
    rcases List.append_eq_append_iff.mp heq with ⟨s, rfl, hs⟩ | ⟨s, hs, heq⟩
    · exact ih hs (h.outside.append.mp ho)
    · cases s with
      | nil =>
        rw [List.append_nil] at hs
        subst hs
        have hchars : chars = [] ++ c :: after := List.append_cancel_left heq
        exact ih hchars outside_nil
      | cons d s =>
        obtain ⟨rfl, rfl⟩ := List.cons.inj heq
        exact h.readable_of_outside hs ho

end OCamlStudy.JsonParser
