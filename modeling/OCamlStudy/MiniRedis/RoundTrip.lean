import OCamlStudy.MiniRedis.Reply

/-! # Decoding undoes encoding

A line ends at its first carriage return, a payload where its length says, and an
array after its last element; so what is encoded is decoded again, whatever bytes
follow it and whatever its payloads look like.
-/

namespace OCamlStudy.MiniRedis

open OCaml

mutual

/-- Lines without a carriage return and integers of 63 bits. -/
def Resp.Encodable : Resp → Prop
  | .simpleString s | .error s => 13 ∉ s
  | .integer i => -2 ^ 62 ≤ i ∧ i < 2 ^ 62
  | .bulkString _ => True
  | .array none => True
  | .array (some lst) => AllEncodable lst

def AllEncodable : List Resp → Prop
  | [] => True
  | v :: lst => v.Encodable ∧ AllEncodable lst

end

mutual

theorem accepts_encode : (v : Resp) → v.Encodable → IsString (encode v) → Accepts v (encode v)
  | .simpleString s, hv, _ => by
    have he : encode (.simpleString s) = line 43 s := by simp [encode, line, bytes]
    rw [he]
    exact .simpleString hv
  | .error s, hv, _ => by
    have he : encode (.error s) = line 45 s := by simp [encode, line, bytes]
    rw [he]
    exact .error hv
  | .integer i, hv, _ => by
    have he : encode (.integer i) = line 58 (stringOfInt i) := by simp [encode, line, bytes]
    rw [he]
    exact .integer (cr_not_mem_stringOfInt i) (intOfString_stringOfInt hv.1 hv.2)
  | .bulkString none, _, _ => by
    have h : 13 ∉ bytes "-1" := by decide
    exact .nullString h rfl
  | .bulkString (some s), _, hs => by
    have he : encode (.bulkString (some s)) =
        line 36 (stringOfInt s.length) ++ (s ++ [13, 10]) := by
      simp [encode, line, bytes]
    rw [he] at hs ⊢
    unfold IsString maxStringLength at hs
    simp only [List.length_append] at hs
    have hn : intOfString (stringOfInt s.length) = some (s.length : ℤ) :=
      intOfString_stringOfInt (by omega) (by omega)
    exact .bulkString (cr_not_mem_stringOfInt _) hn rfl
  | .array none, _, _ => by
    have h : 13 ∉ bytes "-1" := by decide
    exact .nullArray h rfl
  | .array (some lst), hv, hs => by
    have he : encode (.array (some lst)) = line 42 (stringOfInt lst.length) ++ encodeAll lst := by
      simp [encode, line, bytes]
    rw [he] at hs ⊢
    have helems := acceptsAll_encodeAll lst hv (hs.trans' (by simp))
    have hlen := helems.length_le
    unfold IsString maxStringLength at hs
    simp only [List.length_append] at hs
    have hn : intOfString (stringOfInt lst.length) = some (lst.length : ℤ) :=
      intOfString_stringOfInt (by omega) (by omega)
    exact .array (cr_not_mem_stringOfInt _) hn helems

theorem acceptsAll_encodeAll : (lst : List Resp) → AllEncodable lst → IsString (encodeAll lst) →
    AcceptsAll lst (encodeAll lst)
  | [], _, _ => acceptsAll_nil
  | v :: lst, hv, hs => by
    rw [encodeAll] at hs ⊢
    exact .cons (accepts_encode v hv.1 (hs.trans' (by simp)))
      (acceptsAll_encodeAll lst hv.2 (hs.trans' (by simp)))

end

/-- **Decoding undoes encoding**, before any bytes that follow. -/
theorem decode_encode (v : Resp) (hv : v.Encodable) (t : Bytes) (hs : IsString (encode v ++ t)) :
    decode (encode v ++ t) = .ok (.ok (v, t)) :=
  (accepts_encode v hv (hs.trans' (by simp))).decode hs

theorem decode_encode_array :
    decode (encode (.array (some [.simpleString (bytes "$1"), .array none])) ++ bytes "*\r\n") =
      .ok (.ok (.array (some [.simpleString (bytes "$1"), .array none]), bytes "*\r\n")) := by
  refine decode_encode _ ?_ _ ?_
  · have hline : 13 ∉ bytes "$1" := by decide
    exact ⟨hline, trivial, trivial⟩
  simp (disch := decide) only [encode, encodeAll, stringOfInt_digit]
  unfold IsString maxStringLength
  decide

end OCamlStudy.MiniRedis
