import OCamlStudy.NanoOs.PacketCodec

/-! # Damaged packets

An accepted packet announces its own length, and the sum of its bytes is fixed by
its two checksum bytes. A packet with one other byte, or of another length, does
not satisfy both, so it is rejected.
-/

namespace OCamlStudy.NanoOs.Packet

open OCaml

def byteSum (b : Bytes) : ℕ := (b.map UInt8.toNat).sum

@[simp]
theorem byteSum_append (b t : Bytes) : byteSum (b ++ t) = byteSum b + byteSum t := by
  simp [byteSum]

@[simp]
theorem byteSum_cons (x : UInt8) (b : Bytes) : byteSum (x :: b) = x.toNat + byteSum b := by
  simp [byteSum]

theorem checksumBytes_eq (b : Bytes) : checksumBytes b = byteSum b % 0x10000 := by
  induction b using List.reverseRecOn with
  | nil => rfl
  | append_singleton b x ih =>
    rw [checksumBytes, List.foldl_append, List.foldl_cons, List.foldl_nil, ← checksumBytes, ih,
      byteSum_append, byteSum_cons]
    simp [byteSum]

def byteAt (b : Bytes) (i : ℕ) : ℕ := (b.getD i 0).toNat

/-- What a packet that is accepted says about itself. -/
structure Sound (b : Bytes) : Prop where
  length : b.length = byteAt b 6 + 256 * byteAt b 7 + 10
  /-- The checksum bytes count themselves here. -/
  sum : (byteSum b : ℤ) % 0x10000 = (2 * byteAt b 8 + 257 * byteAt b 9) % 0x10000

theorem sound_wire (kind : Kind) (seq ack srcPort : ℤ) {payload : Bytes}
    (h : payload.length ≤ 65535) : Sound (wire kind seq ack srcPort payload) where
  length := by
    have hlow := Cstruct.byte_toNat payload.length
    have hhigh := Cstruct.byte_toNat (payload.length / 256 : ℤ)
    have hl : byteAt (wire kind seq ack srcPort payload) 6 = (Cstruct.byte payload.length).toNat :=
      rfl
    have hh : byteAt (wire kind seq ack srcPort payload) 7 =
        (Cstruct.byte (payload.length / 256 : ℤ)).toNat := rfl
    have hlen : (wire kind seq ack srcPort payload).length = payload.length + 10 := by
      simp [wire, fields, word16]
    omega
  sum := by
    have hsum := checksumBytes_eq
      (fields version (intOfKind kind) seq ack srcPort payload ++ payload)
    have hbounds := checksumBytes_bounds
      (fields version (intOfKind kind) seq ack srcPort payload ++ payload)
    rw [wire]
    generalize checksumBytes (fields version (intOfKind kind) seq ack srcPort payload ++ payload) =
      checksum at hsum hbounds ⊢
    have hlow := Cstruct.byte_toNat checksum
    have hhigh := Cstruct.byte_toNat (checksum / 256)
    have hl : byteAt (fields version (intOfKind kind) seq ack srcPort payload ++ word16 checksum ++
        payload) 8 = (Cstruct.byte checksum).toNat := rfl
    have hh : byteAt (fields version (intOfKind kind) seq ack srcPort payload ++ word16 checksum ++
        payload) 9 = (Cstruct.byte (checksum / 256)).toNat := rfl
    have hword : byteSum (word16 checksum) =
        (Cstruct.byte checksum).toNat + (Cstruct.byte (checksum / 256)).toNat := by
      simp [byteSum, word16]
    rw [byteSum_append] at hsum
    rw [hl, hh, byteSum_append, byteSum_append, hword]
    omega

theorem sound_of_decode {b : Bytes} {p : T} (h : decode b = .ok (.ok p)) : Sound b := by
  obtain ⟨hp, hb⟩ := encode_of_decode h
  rw [encode_eq] at hb
  obtain rfl := Except.ok.inj hb
  exact sound_wire _ _ _ _ hp.payload

/-- One byte is another one, or bytes are missing at the end, or there are more. -/
inductive Damaged : Bytes → Bytes → Prop
  | changed (s t : Bytes) {x y : UInt8} (h : y ≠ x) : Damaged (s ++ x :: t) (s ++ y :: t)
  | cut (b t : Bytes) (h : t ≠ []) : Damaged (b ++ t) b
  | extended (b t : Bytes) (h : t ≠ []) : Damaged b (b ++ t)

section Bytes

variable {s t : Bytes} {x y : UInt8} {i : ℕ}

theorem byteAt_append_left (h : i < s.length) : byteAt (s ++ t) i = byteAt s i := by
  rw [byteAt, byteAt, List.getD_eq_getElem?_getD, List.getElem?_append_left h,
    ← List.getD_eq_getElem?_getD]

theorem byteAt_changed : byteAt (s ++ y :: t) i =
    if i = s.length then y.toNat else byteAt (s ++ x :: t) i := by
  simp only [byteAt, List.getD_eq_getElem?_getD, List.getElem?_append, List.getElem?_cons]
  split_ifs with hlt heq
  · omega
  · rfl
  · rfl
  · omega
  · omega
  · rfl

end Bytes

theorem Sound.not_extended {b t : Bytes} (hb : Sound b) (ht : Sound (b ++ t)) : t = [] := by
  have hlen := hb.length
  have hlen' := ht.length
  rw [byteAt_append_left (by omega), byteAt_append_left (by omega), List.length_append] at hlen'
  exact List.eq_nil_of_length_eq_zero (by omega)

theorem Sound.not_changed {s t : Bytes} {x y : UInt8} (hx : Sound (s ++ x :: t))
    (hy : Sound (s ++ y :: t)) : y = x := by
  have hxlt := x.toNat_lt
  have hylt := y.toNat_lt
  have hsum := hx.sum
  have hsum' := hy.sum
  rw [byteAt_changed (x := x), byteAt_changed (x := x) (i := 9)] at hsum'
  rw [byteSum_append, byteSum_cons] at hsum hsum'
  have hx8 : 8 = s.length → byteAt (s ++ x :: t) 8 = x.toNat := by
    rintro h
    rw [byteAt_changed (x := x), if_pos h]
  have hx9 : 9 = s.length → byteAt (s ++ x :: t) 9 = x.toNat := by
    rintro h
    rw [byteAt_changed (x := x), if_pos h]
  apply UInt8.toNat_inj.mp
  split_ifs at hsum' with h8 h9 h9
  · omega
  · -- One step of the low checksum byte adds one to the sum, and two to what it should be.
    have := hx8 h8
    omega
  · have := hx9 h9
    omega
  · omega

/-- **Damage is noticed.** -/
theorem damage_noticed {b b' : Bytes} {p : T} (h : decode b = .ok (.ok p)) (hd : Damaged b b') :
    ∃ e, decode b' = .ok (.error e) := by
  obtain ⟨r, hr⟩ := decode_returns b'
  cases r with
  | error e => exact ⟨e, hr⟩
  | ok p' =>
    exfalso
    have hb := sound_of_decode h
    have hb' := sound_of_decode hr
    cases hd with
    | changed s t hne => exact hne (hb.not_changed hb')
    | cut _ t hne => exact hne (hb'.not_extended hb)
    | extended _ t hne => exact hne (hb.not_extended hb')

/-- A letter of the payload is changed. -/
theorem damage_noticed_letter :
    ∃ e, decode [1, 0, 9, 0, 174, 8, 3, 0, 233, 1, 120, 98, 99] = .ok (.error e) :=
  damage_noticed (b := [1, 0, 9, 0, 174, 8, 3, 0, 233, 1, 97, 98, 99])
    (p := ⟨1, .data, 9, 0, 2222, [97, 98, 99]⟩) (by decide)
    (.changed [1, 0, 9, 0, 174, 8, 3, 0, 233, 1] [98, 99] (by decide))

end OCamlStudy.NanoOs.Packet
