import OCamlStudy.JsonParser.Outside
import OCamlStudy.OCaml.Float

/-! # Floats on a round trip

The lexer reads no plus sign and no infinity, and the printer writes a large float
with a plus sign before its exponent. So what is printed is read again exactly if
every float is finite and has at most twelve digits before its point.
-/

namespace OCamlStudy.JsonParser

open OCaml

/-- The text holds a piece that is not inside a string literal. -/
def Shown (text piece : Bytes) : Prop :=
  ∃ before after, text = before ++ (piece ++ after) ∧ Outside before

theorem Shown.refl (text : Bytes) : Shown text text :=
  ⟨[], [], by simp, outside_nil⟩

theorem Shown.trans {text text' piece : Bytes} (h : Shown text text') (h' : Shown text' piece) :
    Shown text piece := by
  obtain ⟨before, after, rfl, ho⟩ := h
  obtain ⟨before', after', rfl, ho'⟩ := h'
  exact ⟨before ++ before', after' ++ after, by simp, ho.append.mpr ho'⟩

theorem Shown.append {before text piece : Bytes} (ho : Outside before) (h : Shown text piece)
    (after : Bytes) : Shown (before ++ (text ++ after)) piece :=
  Shown.trans ⟨before, after, rfl, ho⟩ h

theorem outside_stringConcat {strs : List Bytes} (h : ∀ str ∈ strs, Outside str) :
    Outside (stringConcat (bytes ", ") strs) := by
  induction strs with
  | nil => exact outside_nil
  | cons str strs ih =>
    have hstr := h str List.mem_cons_self
    have hstrs := ih fun x hx => h x (List.mem_cons_of_mem _ hx)
    cases strs with
    | nil => rwa [stringConcat_singleton]
    | cons str' strs =>
      rw [stringConcat_cons_cons, hstr.append]
      exact (outside_of_not_mem (by decide)).append.mpr hstrs

theorem shown_stringConcat {strs : List Bytes} (h : ∀ str ∈ strs, Outside str) {str : Bytes}
    (hstr : str ∈ strs) : Shown (stringConcat (bytes ", ") strs) str := by
  induction strs with
  | nil => cases hstr
  | cons x strs ih =>
    have hx := h x List.mem_cons_self
    cases strs with
    | nil =>
      obtain rfl := List.mem_singleton.mp hstr
      rw [stringConcat_singleton]
      exact .refl _
    | cons y strs =>
      rw [stringConcat_cons_cons]
      rcases List.mem_cons.mp hstr with rfl | hstr
      · exact ⟨[], _, rfl, outside_nil⟩
      · have hbefore : Outside (x ++ bytes ", ") :=
          hx.append.mpr (outside_of_not_mem (by decide))
        have hrest := ih (fun z hz => h z (List.mem_cons_of_mem _ hz)) hstr
        have hshown := hrest.append hbefore []
        rwa [List.append_nil, List.append_assoc] at hshown

section Text

variable {F : Type} {conv : FloatConv F}

theorem quote_not_mem_stringOfInt (n : ℤ) : 34 ∉ stringOfInt n := by
  cases n with
  | ofNat n => exact quote_not_mem_decimal n
  | negSucc n =>
    rw [stringOfInt, List.mem_cons, not_or]
    exact ⟨by decide, quote_not_mem_decimal _⟩

theorem outside_key {key : Bytes} (h : 34 ∉ key) : Outside (bytes "\"" ++ key ++ bytes "\": ") := by
  have htext : bytes "\"" ++ key ++ bytes "\": " = (34 :: (key ++ [34])) ++ bytes ": " := by
    simp [bytes]
  rw [htext, (outside_quoted h).append]
  exact outside_of_not_mem (by decide)

theorem outside_bracketed {s t text : Bytes} (hs : Outside s) (htext : Outside text)
    (ht : Outside t) : Outside (s ++ text ++ t) :=
  (hs.append.mpr htext).append.mpr ht

/-- The text of no float holds a double quote. -/
def FloatConv.QuoteFree (conv : FloatConv F) : Prop := ∀ f, 34 ∉ conv.stringOfFloat f

mutual

/-- The text of a value without quotes in its strings has an even number of quotes. -/
theorem outside_toString (hconv : conv.QuoteFree) : (j : Json F) → j.QuoteFree →
    Outside (j.toString conv)
  | .null, _ => by
    have hword : 34 ∉ bytes "null" := by decide
    exact outside_of_not_mem hword
  | .bool true, _ => by
    have hword : 34 ∉ bytes "true" := by decide
    exact outside_of_not_mem hword
  | .bool false, _ => by
    have hword : 34 ∉ bytes "false" := by decide
    exact outside_of_not_mem hword
  | .int n, _ => outside_of_not_mem (quote_not_mem_stringOfInt n)
  | .float f, _ => outside_of_not_mem (hconv f)
  | .string s, h => by
    have hs := outside_quoted (h s List.mem_cons_self)
    rwa [← List.cons_append] at hs
  | .array elems, h => by
    refine outside_bracketed (outside_of_not_mem (by decide)) (outside_stringConcat ?_)
      (outside_of_not_mem (by decide))
    exact outside_elemsStr hconv elems fun x hx s hs => h s (List.mem_cons_of_mem _
      (List.mem_append_left _ (mem_intercalate_of_mem hx hs)))
  | .object fields, h => by
    refine outside_bracketed (outside_of_not_mem (by decide)) (outside_stringConcat ?_)
      (outside_of_not_mem (by decide))
    exact outside_fieldStrs hconv fields fun x hx s hs => h s (List.mem_cons_of_mem _
      (List.mem_append_left _ (mem_intercalate_of_mem hx hs)))

theorem outside_elemsStr (hconv : conv.QuoteFree) : (elems : List (Json F)) →
    (∀ x ∈ elemToks elems, ∀ s, .str s ∈ x → 34 ∉ s) → ∀ str ∈ elemsStr conv elems, Outside str
  | [], _, _, hstr => by cases hstr
  | v :: elems, h, str, hstr => by
    rcases List.mem_cons.mp hstr with rfl | hstr
    · exact outside_toString hconv v (h _ List.mem_cons_self)
    · exact outside_elemsStr hconv elems (fun x hx => h x (List.mem_cons_of_mem _ hx)) str hstr

theorem outside_fieldStrs (hconv : conv.QuoteFree) : (fields : List (Bytes × Json F)) →
    (∀ x ∈ fieldToks fields, ∀ s, .str s ∈ x → 34 ∉ s) → ∀ str ∈ fieldStrs conv fields, Outside str
  | [], _, _, hstr => by cases hstr
  | (key, v) :: fields, h, str, hstr => by
    have hfield := h _ List.mem_cons_self
    rcases List.mem_cons.mp hstr with rfl | hstr
    · have hkey := outside_key (hfield key List.mem_cons_self)
      exact hkey.append.mpr (outside_toString hconv v fun s hs =>
        hfield s (List.mem_cons_of_mem _ (List.mem_cons_of_mem _ hs)))
    · exact outside_fieldStrs hconv fields (fun x hx => h x (List.mem_cons_of_mem _ hx)) str hstr

end

mutual

/-- **A float of the value is printed outside of string literals.** -/
theorem shown_toString {f : F} (hconv : conv.QuoteFree) : (j : Json F) → j.QuoteFree →
    .floatTok f ∈ toks j → Shown (j.toString conv) (conv.stringOfFloat f)
  | .null, _, hf => by simp [toks] at hf
  | .bool b, _, hf => by simp [toks] at hf
  | .int n, _, hf => by simp [toks] at hf
  | .float f', _, hf => by
    obtain rfl : f = f' := by simpa [toks] using hf
    exact .refl _
  | .string s, _, hf => by simp [toks] at hf
  | .array elems, h, hf => by
    have hstrs : ∀ x ∈ elemToks elems, ∀ s, .str s ∈ x → 34 ∉ s := fun x hx s hs =>
      h s (List.mem_cons_of_mem _ (List.mem_append_left _ (mem_intercalate_of_mem hx hs)))
    have hmem : .floatTok f ∈ [Token.comma].intercalate (elemToks elems) := by
      simpa [toks] using hf
    obtain ⟨x, hx, hfx⟩ := (mem_intercalate hmem).resolve_left nofun
    obtain ⟨str, hstr, hshown⟩ := shown_elemsStr hconv elems hstrs hx hfx
    have hconcat := shown_stringConcat (outside_elemsStr hconv elems hstrs) hstr
    have hopen : Outside (bytes "[") := outside_of_not_mem (by decide)
    have hbracket := (hconcat.trans hshown).append hopen (bytes "]")
    rwa [← List.append_assoc] at hbracket
  | .object fields, h, hf => by
    have hstrs : ∀ x ∈ fieldToks fields, ∀ s, .str s ∈ x → 34 ∉ s := fun x hx s hs =>
      h s (List.mem_cons_of_mem _ (List.mem_append_left _ (mem_intercalate_of_mem hx hs)))
    have hmem : .floatTok f ∈ [Token.comma].intercalate (fieldToks fields) := by
      simpa [toks] using hf
    obtain ⟨x, hx, hfx⟩ := (mem_intercalate hmem).resolve_left nofun
    obtain ⟨str, hstr, hshown⟩ := shown_fieldStrs hconv fields hstrs hx hfx
    have hconcat := shown_stringConcat (outside_fieldStrs hconv fields hstrs) hstr
    have hopen : Outside (bytes "\x7b") := outside_of_not_mem (by decide)
    have hbrace := (hconcat.trans hshown).append hopen (bytes "\x7d")
    rwa [← List.append_assoc] at hbrace

theorem shown_elemsStr {f : F} {x : List (Token F)} (hconv : conv.QuoteFree) :
    (elems : List (Json F)) → (∀ x ∈ elemToks elems, ∀ s, .str s ∈ x → 34 ∉ s) →
    x ∈ elemToks elems → .floatTok f ∈ x →
      ∃ str ∈ elemsStr conv elems, Shown str (conv.stringOfFloat f)
  | [], _, hx, _ => by cases hx
  | v :: elems, h, hx, hf => by
    rcases List.mem_cons.mp hx with rfl | hx
    · exact ⟨_, List.mem_cons_self, shown_toString hconv v (h _ List.mem_cons_self) hf⟩
    · obtain ⟨str, hstr, hshown⟩ :=
        shown_elemsStr hconv elems (fun x hx => h x (List.mem_cons_of_mem _ hx)) hx hf
      exact ⟨str, List.mem_cons_of_mem _ hstr, hshown⟩

theorem shown_fieldStrs {f : F} {x : List (Token F)} (hconv : conv.QuoteFree) :
    (fields : List (Bytes × Json F)) → (∀ x ∈ fieldToks fields, ∀ s, .str s ∈ x → 34 ∉ s) →
    x ∈ fieldToks fields → .floatTok f ∈ x →
      ∃ str ∈ fieldStrs conv fields, Shown str (conv.stringOfFloat f)
  | [], _, hx, _ => by cases hx
  | (key, v) :: fields, h, hx, hf => by
    rcases List.mem_cons.mp hx with rfl | hx
    · have hfield := h _ List.mem_cons_self
      have hkey := outside_key (hfield key List.mem_cons_self)
      have hvalue := shown_toString hconv v
        (fun s hs => hfield s (List.mem_cons_of_mem _ (List.mem_cons_of_mem _ hs)))
        (by simpa using hf)
      have hshown := hvalue.append hkey []
      rw [List.append_nil] at hshown
      exact ⟨_, List.mem_cons_self, hshown⟩
    · obtain ⟨str, hstr, hshown⟩ :=
        shown_fieldStrs hconv fields (fun x hx => h x (List.mem_cons_of_mem _ hx)) hx hf
      exact ⟨str, List.mem_cons_of_mem _ hstr, hshown⟩

end

end Text

def doubleConv : FloatConv Double where
  floatOfString := floatOfString
  stringOfFloat := stringOfFloat

theorem doubleConv_quoteFree : doubleConv.QuoteFree := quote_not_mem_stringOfFloat

def rereadFloat (f : Double) : Double := (floatOfString (stringOfFloat f)).getD f

theorem printableAs_plain {f : Double} (h : f.Plain) :
    Token.PrintableAs doubleConv rereadFloat (.floatTok f) := by
  obtain ⟨negative, s, htext, hliteral, hfloat⟩ := stringOfFloat_plain h
  have hall : ∀ x ∈ printSign negative ++ s, isDigitOrDot x = true := by
    intro x hx
    rcases List.mem_append.mp hx with hx | hx
    · cases negative with
      | false => cases hx
      | true =>
        obtain rfl := List.mem_singleton.mp hx
        rfl
    · rcases hliteral.mem hx with hx | rfl | rfl | rfl
      · rw [isDigit] at hx
        simp [isDigitOrDot, hx]
      · rfl
      · rfl
      · rfl
  have htoken : numberToken doubleConv (printSign negative ++ s) =
      .ok (.floatTok (rereadFloat f)) := by
    obtain ⟨f', hf'⟩ := floatOfString_literal hliteral negative
    have hreread : rereadFloat f = f' := by
      rw [rereadFloat, htext, hf']
      rfl
    have hint : int63OfString (printSign negative ++ s) = none := by
      simp only [int63OfString, intOfString_literal hliteral hfloat, Option.pmap_none]
    have hfloat' : doubleConv.floatOfString (printSign negative ++ s) = some f' := hf'
    rw [numberToken, hint]
    dsimp only
    rw [hfloat', hreread]
  obtain ⟨c, t, rfl, hc⟩ := hliteral.cons
  change ∃ c s, stringOfFloat f = c :: s ∧ _
  rw [htext]
  cases negative with
  | false => exact ⟨c, t, rfl, .inr (digit_of_isDigit hc), hall, htoken⟩
  | true => exact ⟨45, c :: t, rfl, .inl rfl, hall, htoken⟩

theorem plain_of_lex {j : Json Double} {tokens : List (Token Double)} (hj : j.QuoteFree)
    (hlex : lex doubleConv (j.toString doubleConv) = .ok tokens) {f : Double}
    (hf : .floatTok f ∈ toks j) : f.Plain := by
  by_contra hplain
  obtain ⟨before, after, htext, ho⟩ := shown_toString doubleConv_quoteFree j hj hf
  have hnone (c : UInt8) (hc : c ∈ stringOfFloat f) : readable c = true := by
    obtain ⟨s, t, hst⟩ := List.append_of_mem hc
    have hs : 34 ∉ s := fun hmem => quote_not_mem_stringOfFloat f (by simp [hst, hmem])
    have heq : j.toString doubleConv = (before ++ s) ++ c :: (t ++ after) := by
      rw [htext]
      change before ++ (stringOfFloat f ++ after) = _
      rw [hst]
      simp
    exact (lexed_of_lex hlex).readable heq (ho.append.mpr (outside_of_not_mem hs))
  rcases mem_stringOfFloat hplain with hplus | hletter
  · exact absurd (hnone 43 hplus) (by decide)
  · exact absurd (hnone 105 hletter) (by decide)

/-- **What is printed is read again exactly if the floats of the input are plain.** -/
theorem parseJson_print_double_iff {str : Bytes} {tokens : List (Token Double)} {j : Json Double}
    (hlex : lex doubleConv str = .ok tokens) (hparse : parseJson doubleConv str = .ok j) :
    (∃ j', parseJson doubleConv (j.toString doubleConv) = .ok j') ↔
      ∀ f, .floatTok f ∈ tokens → f.Plain := by
  have hquote : j.QuoteFree := fun s hs =>
    Steps.lex_quoteFree hlex s (toks_subset_of_parseJson hlex hparse _ hs)
  constructor
  · rintro ⟨j', hparse'⟩ f hf
    obtain ⟨tokens', hlex'⟩ := lex_of_parseJson hparse'
    exact plain_of_lex hquote hlex' (mem_toks_of_parseJson hlex hparse hf nofun)
  · intro hplain
    have hprintable : ∀ token ∈ toks j, token.PrintableAs doubleConv rereadFloat := by
      intro token htoken
      have hmem := toks_subset_of_parseJson hlex hparse token htoken
      cases token with
      | floatTok f => exact printableAs_plain (hplain f hmem)
      | str s => exact hquote s htoken
      | _ => trivial
    exact parseJson_toString_reread hprintable

theorem lex_float {c : UInt8} {s : Bytes} {f : Double} (hc : ∃ d < 10, c = digit d)
    (hall : ∀ x ∈ c :: s, isDigitOrDot x = true) (hint : int63OfString (c :: s) = none)
    (hfloat : floatOfString (c :: s) = some f) : lex doubleConv (c :: s) = .ok [.floatTok f] := by
  have hconv : doubleConv.floatOfString (c :: s) = some f := hfloat
  have htoken : numberToken doubleConv (c :: s) = .ok (.floatTok f) := by
    rw [numberToken, hint]
    dsimp only
    rw [hconv]
  have hlex := lex_number (.inr hc) hall htoken delimited_nil (lex_nil doubleConv)
  rwa [List.append_nil] at hlex

theorem parseJson_float {str : Bytes} {f : Double} (hlex : lex doubleConv str = .ok [.floatTok f]) :
    parseJson doubleConv str = .ok (.float f) := by
  have hvalue := (Reads.float f).parse []
  rw [List.append_nil] at hvalue
  rw [parseJson, hlex, Raises.ok_bind, hvalue, Raises.ok_bind]
  rfl

theorem lex_oneAndHalf :
    lex doubleConv (bytes "1.5") = .ok [.floatTok (.finite false (3 / 2))] :=
  lex_float ⟨1, by decide, rfl⟩ (List.all_eq_true.mp rfl) (by decide +kernel) (by decide +kernel)

/-- One and a half. -/
theorem parseJson_print_double_iff_oneAndHalf :
    (∃ j', parseJson doubleConv (Json.toString doubleConv (.float (.finite false (3 / 2)))) =
      .ok j') ↔
      ∀ f : Double, .floatTok f ∈ [Token.floatTok (Double.finite false (3 / 2))] → f.Plain :=
  parseJson_print_double_iff lex_oneAndHalf (parseJson_float lex_oneAndHalf)

/-- The number `1e12` is printed as `1e+12`, of which the lexer reads `1e`. -/
theorem parseJson_print_power :
    parseJson doubleConv (bytes "1e12") = .ok (.float (.finite false (10 ^ 12))) ∧
      parseJson doubleConv (Json.toString doubleConv (.float (.finite false (10 ^ 12)))) =
        .error (.failure "float_of_string") := by
  have hlex : lex doubleConv (bytes "1e12") = .ok [.floatTok (.finite false (10 ^ 12))] :=
    lex_float ⟨1, by decide, rfl⟩ (List.all_eq_true.mp rfl) (by decide +kernel) (by decide +kernel)
  refine ⟨parseJson_float hlex, ?_⟩
  have htext : Json.toString doubleConv (.float (.finite false (10 ^ 12))) =
      49 :: bytes "e+12" := by
    change stringOfFloat (.finite false (10 ^ 12)) = _
    decide +kernel
  have htoken : numberToken doubleConv (bytes "1e") = .error (.failure "float_of_string") := by
    have hint : int63OfString (bytes "1e") = none := by decide +kernel
    have hfloat : doubleConv.floatOfString (bytes "1e") = none := by
      change floatOfString (bytes "1e") = none
      decide +kernel
    rw [numberToken, hint]
    dsimp only
    rw [hfloat]
  have hstep : lexToken doubleConv 49 (bytes "e+12") = .error (.failure "float_of_string") := by
    have hscan : lexNumber doubleConv [] (49 :: bytes "e+12") =
        (numberToken doubleConv (bytes "1e")).map (·, bytes "+12") := scan_eq _ _ _ _
    have hstart : (49 : UInt8) = 45 ∨ ∃ d < 10, 49 = digit d := .inr ⟨1, by decide, rfl⟩
    rw [lexToken_number hstart rfl, hscan, htoken]
    rfl
  rw [htext, parseJson, lex_cons_error doubleConv hstep]
  rfl

end OCamlStudy.JsonParser
