import OCamlStudy.MiniRedis.Append

/-! # Decoding by the line

What the decoder does with a buffer is decided by its type byte and by the text
before its first carriage return: the text of a simple string, a number, or the
length of what follows.
-/

namespace OCamlStudy.MiniRedis

open OCaml

/-- A type byte, a text and the end of the line. -/
def line (c : UInt8) (text : Bytes) : Bytes := c :: text ++ [13, 10]

/-- A length that makes `String.sub` raise: it is negative, or the end of the payload overflows. -/
def BadSize (text : Bytes) (n : ℤ) : Prop := n < -1 ∨ 2 ^ 62 ≤ text.length + n + 5

section Line

variable {c : UInt8} {s t text : Bytes}

theorem line_append (c : UInt8) (text t : Bytes) :
    line c text ++ t = c :: text ++ 13 :: 10 :: t := by
  simp [line]

@[simp]
theorem length_line (c : UInt8) (text : Bytes) : (line c text).length = text.length + 3 := by
  simp [line]

theorem cr_not_mem_cons (hc : c ≠ 13) (h : 13 ∉ text) : 13 ∉ c :: text :=
  List.not_mem_cons_of_ne_of_not_mem hc.symm h

theorem findCrlf_line (h : 13 ∉ s) : findCrlf (s ++ 13 :: 10 :: t) = some s.length := by
  rw [findCrlf, stringIndexOpt_append_cons h]
  simp

theorem stringSub_line_rest : stringSub (s ++ 13 :: 10 :: t) (s.length + 2)
    ((s ++ 13 :: 10 :: t).length - s.length - 2) = .ok t := by
  rw [show s ++ 13 :: 10 :: t = (s ++ [13, 10]) ++ t by simp]
  exact stringSub_suffix (by simp) (by simp only [sub_sub])

theorem stringSub_line_text :
    stringSub (c :: s ++ 13 :: 10 :: t) 1 ((c :: s).length - 1 : ℤ) = .ok s :=
  stringSub_middle (p := [c]) rfl (by simp)

theorem decodeSimpleString_line (h : 13 ∉ c :: s) (constructor : Bytes → Resp) :
    decodeSimpleString (c :: s ++ 13 :: 10 :: t) constructor = .ok (.ok (constructor s, t)) := by
  rw [decodeSimpleString, findCrlf_line h]
  dsimp only
  rw [stringSub_line_text, stringSub_line_rest]
  rfl

theorem decode_line_simpleString (h : 13 ∉ s) (t : Bytes) :
    decode (line 43 s ++ t) = .ok (.ok (.simpleString s, t)) := by
  rw [line_append]
  exact decodeSimpleString_line (cr_not_mem_cons (by decide) h) _

theorem decode_line_error (h : 13 ∉ s) (t : Bytes) :
    decode (line 45 s ++ t) = .ok (.ok (.error s, t)) := by
  rw [line_append]
  exact decodeSimpleString_line (cr_not_mem_cons (by decide) h) _

theorem tryParseInt_some {n : ℤ} (hn : intOfString text = some n) : tryParseInt text = .ok n := by
  rw [tryParseInt, hn]

theorem tryParseInt_none (hn : intOfString text = none) :
    tryParseInt text = .error (bytes "Invalid integer format: ") := by
  rw [tryParseInt, hn]

theorem decode_line_integer {n : ℤ} (h : 13 ∉ text) (hn : intOfString text = some n) (t : Bytes) :
    decode (line 58 text ++ t) = .ok (.ok (.integer n, t)) := by
  rw [line_append]
  change decodeInt _ = _
  rw [decodeInt, findCrlf_line (cr_not_mem_cons (by decide) h)]
  dsimp only
  rw [stringSub_line_text, Raises.ok_bind, tryParseInt_some hn]
  dsimp only
  rw [stringSub_line_rest]
  rfl

theorem decode_line_bulk {n : ℤ} (h : 13 ∉ text) (hn : intOfString text = some n) (t : Bytes) :
    decode (line 36 text ++ t) =
      if n = -1 then .ok (.ok (.bulkString none, t))
      else if (line 36 text ++ t).length < wrap63 (text.length + 3 + n + 2) then
        .ok (.error (bytes "Incomplete BulkString content"))
      else do
        let content ← stringSub (line 36 text ++ t) (text.length + 3) n
        let rest ← stringSub (line 36 text ++ t) (wrap63 (text.length + 3 + n + 2))
          ((line 36 text ++ t).length - wrap63 (text.length + 3 + n + 2))
        return .ok (.bulkString (some content), rest) := by
  rw [line_append]
  change decodeBulkString _ = _
  have hstart : (((36 :: text).length : ℕ) : ℤ) + 2 = text.length + 3 := by
    rw [List.length_cons]
    push_cast
    ring
  rw [decodeBulkString, findCrlf_line (cr_not_mem_cons (by decide) h)]
  dsimp only
  rw [stringSub_line_text, Raises.ok_bind, tryParseInt_some hn]
  dsimp only
  rw [stringSub_line_rest, hstart]
  split_ifs <;> rfl

theorem decode_line_null (h : 13 ∉ text) (hn : intOfString text = some (-1)) (t : Bytes) :
    decode (line 36 text ++ t) = .ok (.ok (.bulkString none, t)) := by
  rw [decode_line_bulk h hn, if_pos rfl]

theorem decode_line_array {n : ℤ} (h : 13 ∉ text) (hn : intOfString text = some n) (t : Bytes) :
    decode (line 42 text ++ t) =
      if n = -1 then .ok (.ok (.array none, t)) else decodeArrayElements n t [] := by
  rw [line_append]
  change decodeArray _ _ = _
  rw [decodeArray, findCrlf_line (cr_not_mem_cons (by decide) h)]
  dsimp only
  rw [stringSub_line_text, Raises.ok_bind, tryParseInt_some hn]
  dsimp only
  rw [stringSub_line_rest]
  split_ifs <;> rfl

theorem decode_line_invalid (hc : c = 58 ∨ c = 36 ∨ c = 42) (h : 13 ∉ text)
    (hn : intOfString text = none) (t : Bytes) :
    decode (line c text ++ t) = .ok (.error (bytes "Invalid integer format: ")) := by
  rw [line_append]
  have hcr : 13 ∉ c :: text := by
    rcases hc with rfl | rfl | rfl <;> exact cr_not_mem_cons (by decide) h
  rcases hc with rfl | rfl | rfl
  · change decodeInt _ = _
    rw [decodeInt, findCrlf_line hcr]
    dsimp only
    rw [stringSub_line_text, Raises.ok_bind, tryParseInt_none hn]
    rfl
  · change decodeBulkString _ = _
    rw [decodeBulkString, findCrlf_line hcr]
    dsimp only
    rw [stringSub_line_text, Raises.ok_bind, tryParseInt_none hn]
    rfl
  · change decodeArray _ _ = _
    rw [decodeArray, findCrlf_line hcr]
    dsimp only
    rw [stringSub_line_text, Raises.ok_bind, tryParseInt_none hn]
    rfl

section Payload

variable {n : ℤ} (h : 13 ∉ text) (hn : intOfString text = some n)

include h hn

theorem decode_line_badSize (hs : IsString (line 36 text ++ t)) (hbad : BadSize text n) :
    decode (line 36 text ++ t) = .error (.invalidArgument "String.sub / Bytes.sub") := by
  have hbounds := intOfString_bounds hn
  have hlen : ((line 36 text ++ t).length : ℤ) = text.length + 3 + t.length := by simp
  unfold IsString maxStringLength at hs
  rw [decode_line_bulk h hn]
  unfold BadSize at hbad
  rw [if_neg (by omega)]
  have hend : ¬ ((line 36 text ++ t).length : ℤ) < wrap63 (text.length + 3 + n + 2) := by
    unfold wrap63
    omega
  rw [if_neg hend, stringSub, if_pos (by omega)]
  rfl

theorem decode_line_short (hgood : ¬ BadSize text n) (hnull : n ≠ -1)
    (hshort : (t.length : ℤ) < n + 2) :
    decode (line 36 text ++ t) = .ok (.error (bytes "Incomplete BulkString content")) := by
  have hlen : ((line 36 text ++ t).length : ℤ) = text.length + 3 + t.length := by simp
  unfold BadSize at hgood
  rw [decode_line_bulk h hn, if_neg hnull, wrap63_eq (by omega) (by omega), if_pos (by omega)]

end Payload

theorem decode_line_payload {last : Bytes} (h : 13 ∉ text) (hn : intOfString text = some s.length)
    (hlast : last.length = 2) (hsize : text.length + s.length + 5 < 2 ^ 62) (t : Bytes) :
    decode (line 36 text ++ (s ++ last ++ t)) = .ok (.ok (.bulkString (some s), t)) := by
  have hlen : (line 36 text ++ (s ++ last ++ t)).length =
      text.length + s.length + t.length + 5 := by
    simp only [List.length_append, length_line, hlast]
    omega
  have hcontent : stringSub (line 36 text ++ (s ++ last ++ t)) (text.length + 3) s.length =
      .ok s := by
    rw [List.append_assoc s]
    exact stringSub_middle (by simp) rfl
  have hrest : stringSub (line 36 text ++ (s ++ last ++ t)) (text.length + 3 + s.length + 2)
      ((line 36 text ++ (s ++ last ++ t)).length - (text.length + 3 + s.length + 2)) = .ok t := by
    have hassoc : line 36 text ++ (s ++ last ++ t) = (line 36 text ++ (s ++ last)) ++ t := by simp
    rw [hassoc]
    apply stringSub_suffix
    · simp only [List.length_append, length_line, hlast]
      push_cast
      ring
    · rfl
  rw [decode_line_bulk h hn, if_neg (by omega), wrap63_eq (by omega) (by omega), if_neg (by omega),
    hcontent, Raises.ok_bind, hrest, Raises.ok_bind]
  rfl

def IsType (c : UInt8) : Prop := c = 43 ∨ c = 45 ∨ c = 58 ∨ c = 36 ∨ c = 42

theorem decode_unended (hc : IsType c) (h : findCrlf (c :: s) = none) :
    ∃ msg, decode (c :: s) = .ok (.error msg) ∧ Waits msg := by
  rcases hc with rfl | rfl | rfl | rfl | rfl
  · change ∃ msg, decodeSimpleString _ _ = _ ∧ _
    rw [decodeSimpleString, h]
    exact ⟨_, rfl, .inr rfl⟩
  · change ∃ msg, decodeSimpleString _ _ = _ ∧ _
    rw [decodeSimpleString, h]
    exact ⟨_, rfl, .inr rfl⟩
  · change ∃ msg, decodeInt _ = _ ∧ _
    rw [decodeInt, h]
    exact ⟨_, rfl, .inr rfl⟩
  · change ∃ msg, decodeBulkString _ = _ ∧ _
    rw [decodeBulkString, h]
    exact ⟨_, rfl, .inr rfl⟩
  · change ∃ msg, decodeArray _ _ = _ ∧ _
    rw [decodeArray, h]
    exact ⟨_, rfl, .inr rfl⟩

theorem decode_unknown (hc : ¬ IsType c) (s : Bytes) :
    decode (c :: s) = .ok (.error (bytes "Invalid RESP type: " ++ [c])) := by
  unfold IsType at hc
  simp only [not_or] at hc
  obtain ⟨h43, h45, h58, h36, h42⟩ := hc
  rw [decode, decodeWith, if_neg h43, if_neg h45, if_neg h58, if_neg h36, if_neg h42]
  rfl

theorem findCrlf_cr (h : 13 ∉ text) :
    findCrlf (text ++ 13 :: t) = if t.head? = some 10 then some text.length else none := by
  rw [findCrlf, stringIndexOpt_append_cons h]
  cases t with
  | nil => simp
  | cons x t => simp

theorem findCrlf_cases (b : Bytes) : (∃ text t, 13 ∉ text ∧ b = text ++ 13 :: 10 :: t) ∨
    findCrlf b = none ∧
      (13 ∉ b ∨ ∃ text t, 13 ∉ text ∧ b = text ++ 13 :: t ∧ t.head? ≠ some 10) := by
  by_cases hcr : 13 ∈ b
  · obtain ⟨text, t, rfl, h⟩ := List.eq_append_cons_of_mem hcr
    by_cases hlf : t.head? = some 10
    · obtain ⟨t', rfl⟩ := List.head?_eq_some_iff.mp hlf
      exact .inl ⟨text, t', h, rfl⟩
    · refine .inr ⟨?_, .inr ⟨text, t, h, rfl, hlf⟩⟩
      rw [findCrlf_cr h, if_neg hlf]
  · refine .inr ⟨?_, .inl hcr⟩
    rw [findCrlf, stringIndexOpt_eq_none.mpr hcr]

theorem type_cases (hc : IsType c) (s : Bytes) :
    (∃ text t, 13 ∉ text ∧ c :: s = line c text ++ t) ∨ findCrlf (c :: s) = none := by
  have hc13 : c ≠ 13 := by
    rcases hc with rfl | rfl | rfl | rfl | rfl <;> decide
  rcases findCrlf_cases (c :: s) with ⟨text, t, h, heq⟩ | ⟨hnone, -⟩
  · cases text with
    | nil => exact absurd (List.cons.inj heq).1 hc13
    | cons x text =>
      obtain ⟨rfl, -⟩ := List.cons.inj heq
      refine .inl ⟨text, t, fun hmem => h (List.mem_cons_of_mem _ hmem), ?_⟩
      rw [line_append, heq]
  · exact .inr hnone

end Line

end OCamlStudy.MiniRedis
