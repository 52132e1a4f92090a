import OCamlStudy.MiniRedis.Grammar

/-! # Well-formed values

The protocol writes its numbers with a sign and decimal digits and ends a payload
with a carriage return and a line feed. The decoder also takes the other numbers
of `int_of_string` and any two bytes after a payload, and nothing else besides.
-/

namespace OCamlStudy.MiniRedis

open OCaml

/-- The number that the digits stand for. -/
def value (ds : List ℕ) : ℕ := ds.foldl (fun n d => 10 * n + d) 0

/-- An optional sign and decimal digits, with the number that they stand for. -/
inductive Numeral : Bytes → ℤ → Prop
  | unsigned {ds : List ℕ} : ds ≠ [] → (∀ d ∈ ds, d < 10) → Numeral (ds.map digit) (value ds)
  | plus {ds : List ℕ} : ds ≠ [] → (∀ d ∈ ds, d < 10) → Numeral (43 :: ds.map digit) (value ds)
  | minus {ds : List ℕ} : ds ≠ [] → (∀ d ∈ ds, d < 10) → Numeral (45 :: ds.map digit) (-value ds)

/-- The bytes are an encoding of the value in the protocol. -/
def WellFormed (v : Resp) (w : Bytes) : Prop :=
  ∃ nums ends, Spells v w nums ends ∧ (∀ x ∈ nums, Numeral x.1 x.2) ∧ ∀ last ∈ ends, last = [13, 10]

theorem parseDigits_digits {ds : List ℕ} (h : ∀ d ∈ ds, d < 10) (res : ℕ) :
    parseDigits 10 res (ds.map digit) = some (ds.foldl (fun n d => 10 * n + d) res) := by
  induction ds generalizing res with
  | nil => rfl
  | cons d ds ih =>
    have hd := h d List.mem_cons_self
    rw [List.map_cons, parseDigits, if_neg (digit_ne_underscore hd), digitIn_digit hd]
    exact ih (fun e he => h e (List.mem_cons_of_mem _ he)) _

theorem parseBase_digits {ds : List ℕ} (h : ∀ d ∈ ds, d < 10) :
    parseBase (ds.map digit) = (10, true, ds.map digit) := by
  rcases ds with _ | ⟨d, _ | ⟨e, ds⟩⟩
  · rfl
  · have hd := h d (by simp)
    interval_cases d <;> rfl
  · have hd := h d (by simp)
    have he := h e (by simp)
    interval_cases d
    · interval_cases e <;> rfl
    all_goals rfl

theorem intOfString_digits {negative : Bool} {text : Bytes} {ds : List ℕ} {n : ℤ} (hne : ds ≠ [])
    (h : ∀ d ∈ ds, d < 10) (hsign : parseSign text = (negative, ds.map digit))
    (hn : intOfString text = some n) : n = if negative then -(value ds : ℤ) else value ds := by
  cases ds with
  | nil => exact absurd rfl hne
  | cons d ds =>
    have hd := h d List.mem_cons_self
    have hvalue : value (d :: ds) = ds.foldl (fun n d => 10 * n + d) d := by simp [value]
    rw [intOfString, hsign] at hn
    dsimp only at hn
    rw [parseBase_digits h, List.map_cons] at hn
    dsimp only at hn
    rw [digitIn_digit hd] at hn
    dsimp only at hn
    rw [parseDigits_digits fun e he => h e (List.mem_cons_of_mem _ he)] at hn
    rw [hvalue]
    cases negative with
    | false =>
      obtain ⟨-, hres⟩ := Option.ite_none_right_eq_some.mp hn
      exact (Option.some.inj hres).symm
    | true =>
      obtain ⟨-, hres⟩ := Option.ite_none_right_eq_some.mp hn
      exact (Option.some.inj hres).symm

/-- A numeral stands for the number that `int_of_string` takes it for. -/
theorem Numeral.eq {text : Bytes} {m n : ℤ} (h : Numeral text m) (hn : intOfString text = some n) :
    m = n := by
  cases h with
  | @unsigned ds hne hds =>
    have hsign : parseSign (ds.map digit) = (false, ds.map digit) := by
      cases ds with
      | nil => rfl
      | cons d ds =>
        have hd := hds d List.mem_cons_self
        interval_cases d <;> rfl
    exact (intOfString_digits hne hds hsign hn).symm
  | plus hne hds => exact (intOfString_digits hne hds rfl hn).symm
  | minus hne hds => exact (intOfString_digits hne hds rfl hn).symm

theorem cr_inj {s s' t t' : Bytes} (h : 13 ∉ s) (h' : 13 ∉ s')
    (heq : s ++ 13 :: t = s' ++ 13 :: t') :
    s = s' ∧ t = t' := by
  induction s generalizing s' with
  | nil =>
    cases s' with
    | nil => exact ⟨rfl, (List.cons.inj heq).2⟩
    | cons c s' => exact absurd (List.mem_cons.mpr (.inl (List.cons.inj heq).1)) h'
  | cons c s ih =>
    cases s' with
    | nil => exact absurd (List.mem_cons.mpr (.inl (List.cons.inj heq).1.symm)) h
    | cons c' s' =>
      obtain ⟨rfl, hrest⟩ := List.cons.inj heq
      obtain ⟨rfl, rfl⟩ := ih (fun hc => h (List.mem_cons_of_mem _ hc))
        (fun hc => h' (List.mem_cons_of_mem _ hc)) hrest
      exact ⟨rfl, rfl⟩

theorem line_inj {c : UInt8} {text text' x x' : Bytes} (h : 13 ∉ text) (h' : 13 ∉ text')
    (heq : line c text ++ x = line c text' ++ x') : text = text' ∧ x = x' := by
  rw [line_append, line_append] at heq
  obtain ⟨rfl, hrest⟩ := cr_inj h h' (List.cons.inj heq).2
  exact ⟨rfl, (List.cons.inj hrest).2⟩

mutual

/-- The bytes of a value are followed by one rest and list one spelling. -/
theorem Spells.unique {v : Resp} {w w' x x' : Bytes} {nums nums' : List (Bytes × ℤ)}
    {ends ends' : List Bytes} : Spells v w nums ends → Spells v w' nums' ends' →
      w ++ x = w' ++ x' → nums = nums' ∧ ends = ends' ∧ x = x'
  | .simpleString h, .simpleString h', heq => ⟨rfl, rfl, (line_inj h h' heq).2⟩
  | .error h, .error h', heq => ⟨rfl, rfl, (line_inj h h' heq).2⟩
  | .integer h, .integer h', heq => by
    obtain ⟨rfl, rfl⟩ := line_inj h h' heq
    exact ⟨rfl, rfl, rfl⟩
  | .nullString h, .nullString h', heq => by
    obtain ⟨rfl, rfl⟩ := line_inj h h' heq
    exact ⟨rfl, rfl, rfl⟩
  | .bulkString h hlast, .bulkString h' hlast', heq => by
    simp only [List.append_assoc] at heq
    obtain ⟨rfl, hpayload⟩ := line_inj h h' heq
    obtain ⟨rfl, rfl⟩ :=
      List.append_inj (List.append_cancel_left hpayload) (hlast.trans hlast'.symm)
    exact ⟨rfl, rfl, rfl⟩
  | .nullArray h, .nullArray h', heq => by
    obtain ⟨rfl, rfl⟩ := line_inj h h' heq
    exact ⟨rfl, rfl, rfl⟩
  | .array h hvs, .array h' hvs', heq => by
    simp only [List.append_assoc] at heq
    obtain ⟨rfl, helems⟩ := line_inj h h' heq
    obtain ⟨rfl, rfl, rfl⟩ := hvs.unique hvs' helems
    exact ⟨rfl, rfl, rfl⟩

theorem SpellsAll.unique {vs : List Resp} {ws ws' x x' : Bytes} {nums nums' : List (Bytes × ℤ)}
    {ends ends' : List Bytes} : SpellsAll vs ws nums ends → SpellsAll vs ws' nums' ends' →
      ws ++ x = ws' ++ x' → nums = nums' ∧ ends = ends' ∧ x = x'
  | .nil, .nil, heq => ⟨rfl, rfl, heq⟩
  | .cons hv hvs, .cons hv' hvs', heq => by
    rw [List.append_assoc, List.append_assoc] at heq
    obtain ⟨rfl, rfl, hrest⟩ := hv.unique hv' heq
    obtain ⟨rfl, rfl, rfl⟩ := hvs.unique hvs' hrest
    exact ⟨rfl, rfl, rfl⟩

end

/-- **Only well-formed values are accepted, but for the numbers and the ends of payloads.** What is
decoded is well formed exactly if the value at the head of the buffer writes its numbers with a sign
and decimal digits and ends its payloads with a carriage return and a line feed. -/
theorem decode_wellFormed_iff {b : Bytes} (hs : IsString b) :
    (∀ v rest, decode b = .ok (.ok (v, rest)) → ∃ w, b = w ++ rest ∧ WellFormed v w) ↔
      ∀ v w rest nums ends, b = w ++ rest → Spells v w nums ends → Numbers nums →
        (∀ x ∈ nums, ∃ n, Numeral x.1 n) ∧ ∀ last ∈ ends, last = [13, 10] := by
  constructor
  · rintro hall v w rest nums ends rfl hspells hnums
    obtain ⟨w', heq, nums', ends', hspells', hnumerals, hends⟩ :=
      hall v rest (hspells.decode hnums rest hs)
    obtain ⟨rfl, rfl, -⟩ := hspells.unique hspells' heq
    constructor
    · exact fun x hx => ⟨x.2, hnumerals x hx⟩
    · exact hends
  · intro hall v rest hdecode
    obtain ⟨w, ⟨nums, ends, hspells, hnums⟩, rfl⟩ := (decode_eq_ok_iff hs).mp hdecode
    obtain ⟨hnumerals, hends⟩ := hall v w rest nums ends rfl hspells hnums
    refine ⟨w, rfl, nums, ends, hspells, ?_, hends⟩
    intro x hx
    obtain ⟨n, hn⟩ := hnumerals x hx
    rwa [hn.eq (hnums x hx)] at hn

/-- The null array and two bytes behind it. -/
theorem decode_wellFormed_iff_null :
    (∀ v rest, decode (bytes "*-1\r\n$0") = .ok (.ok (v, rest)) →
      ∃ w, bytes "*-1\r\n$0" = w ++ rest ∧ WellFormed v w) ↔
      ∀ v w rest nums ends, bytes "*-1\r\n$0" = w ++ rest → Spells v w nums ends → Numbers nums →
        (∀ x ∈ nums, ∃ n, Numeral x.1 n) ∧ ∀ last ∈ ends, last = [13, 10] :=
  decode_wellFormed_iff (by unfold IsString maxStringLength; decide)

/-- **A payload may be followed by anything.** -/
theorem decode_malformed : ¬ ∀ b : Bytes, IsString b → ∀ v rest, decode b = .ok (.ok (v, rest)) →
    ∃ w, b = w ++ rest ∧ WellFormed v w := by
  intro hall
  have hs : IsString (bytes "$1\r\naXY") := by
    unfold IsString maxStringLength
    decide
  have htext : 13 ∉ bytes "1" := by decide
  have hspells : Spells (.bulkString (some (bytes "a"))) (bytes "$1\r\naXY") [(bytes "1", 1)]
      [bytes "XY"] := .bulkString htext rfl
  have hdecode := hspells.decode (numbers_singleton rfl) [] hs
  obtain ⟨w, heq, nums, ends, hspells', -, hends⟩ := hall _ hs _ _ hdecode
  have hsame : bytes "$1\r\naXY" ++ [] = w ++ [] := by
    rw [← heq]
    rfl
  obtain ⟨rfl, rfl, -⟩ := hspells.unique hspells' hsame
  exact absurd (hends _ List.mem_cons_self) (by decide)

end OCamlStudy.MiniRedis
