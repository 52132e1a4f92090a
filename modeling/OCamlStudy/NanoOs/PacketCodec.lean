import OCamlStudy.NanoOs.Packet

/-! # The packet codec is a bijection

Every byte string of ten bytes or more is a header with some values in its fields
and a payload. Of these `decode` accepts those that `encode` writes, and no others.
-/

namespace OCamlStudy.NanoOs.Packet

open OCaml

structure T.InRange (p : T) : Prop where
  version : p.version = Packet.version
  seq : 0 ≤ p.seq ∧ p.seq < 256
  ack : 0 ≤ p.ack ∧ p.ack < 256
  srcPort : 0 ≤ p.srcPort ∧ p.srcPort < 0x10000
  payload : p.payload.length ≤ 65535

theorem byte_toNat_cast (b : UInt8) : Cstruct.byte b.toNat = b := by
  have hb := b.toNat_lt
  apply UInt8.toNat_inj.mp
  have h := Cstruct.byte_toNat b.toNat
  omega

theorem word16_pair (lo hi : UInt8) : word16 (lo.toNat + 256 * hi.toNat) = [lo, hi] := by
  have hlo := lo.toNat_lt
  have hhigh : ((lo.toNat : ℤ) + 256 * hi.toNat) / 256 = hi.toNat := by omega
  have hlow : Cstruct.byte ((lo.toNat : ℤ) + 256 * hi.toNat) = Cstruct.byte lo.toNat := by
    rw [Cstruct.byte, Cstruct.byte, Int.add_mul_emod_self_left]
  rw [word16, hhigh, hlow, byte_toNat_cast, byte_toNat_cast]

theorem exists_image {b : Bytes} (h : 10 ≤ b.length) :
    ∃ v kind seq ack srcPort declaredLen declaredChecksum payload,
      b = image v kind seq ack srcPort declaredLen declaredChecksum payload ∧
        (0 ≤ v ∧ v < 256) ∧ (0 ≤ kind ∧ kind < 256) ∧ (0 ≤ seq ∧ seq < 256) ∧
        (0 ≤ ack ∧ ack < 256) ∧ (0 ≤ srcPort ∧ srcPort < 0x10000) := by
  rcases b with _ | ⟨b₀, _ | ⟨b₁, _ | ⟨b₂, _ | ⟨b₃, _ | ⟨b₄, _ | ⟨b₅, _ | ⟨b₆, _ | ⟨b₇, _ |
    ⟨b₈, _ | ⟨b₉, payload⟩⟩⟩⟩⟩⟩⟩⟩⟩⟩
  all_goals try (simp only [List.length_cons, List.length_nil] at h; omega)
  have hb (b : UInt8) : 0 ≤ (b.toNat : ℤ) ∧ (b.toNat : ℤ) < 256 := by
    have := b.toNat_lt
    omega
  refine ⟨b₀.toNat, b₁.toNat, b₂.toNat, b₃.toNat, b₄.toNat + 256 * b₅.toNat,
    b₆.toNat + 256 * b₇.toNat, b₈.toNat + 256 * b₉.toNat, payload, ?_, hb _, hb _, hb _, hb _, ?_⟩
  · simp only [image, word16_pair, byte_toNat_cast]
    rfl
  · have h₄ := hb b₄
    have h₅ := hb b₅
    omega

theorem decode_returns (b : Bytes) : ∃ r, decode b = .ok r := by
  by_cases hlen : 10 ≤ b.length
  · obtain ⟨v, kind, seq, ack, srcPort, declaredLen, declaredChecksum, payload, rfl, hv, hk, hs, ha,
      -⟩ := exists_image hlen
    exact ⟨_, decode_image _ _ _ _ hv hk hs ha⟩
  · rw [decode, if_pos (by simp [headerLen]; omega)]
    exact ⟨_, rfl⟩

theorem intOfKind_of_kindOfInt {k : ℤ} {kind : Kind} (h : kindOfInt k = .ok kind) :
    intOfKind kind = k := by
  unfold kindOfInt at h
  split_ifs at h with h0 h1
  · cases h
    exact h0.symm
  · cases h
    exact h1.symm

/-- What `decode` accepts, `encode` writes. -/
theorem encode_of_decode {b : Bytes} {p : T} (h : decode b = .ok (.ok p)) :
    p.InRange ∧ encode p.kind p.seq p.ack p.srcPort p.payload = .ok b := by
  by_cases hlen : 10 ≤ b.length
  · obtain ⟨v, kind, seq, ack, srcPort, declaredLen, declaredChecksum, payload, rfl, hv, hk, hs, ha,
      hport⟩ := exists_image hlen
    rw [decode_image _ _ _ _ hv hk hs ha] at h
    have hversion : v = version := by
      by_contra hne
      rw [if_pos hne] at h
      cases h
    rw [if_neg (not_not_intro hversion)] at h
    cases hkind : kindOfInt kind with
    | error e =>
      rw [hkind] at h
      cases h
    | ok k =>
      rw [hkind] at h
      dsimp only at h
      have hl : declaredLen % 0x10000 = payload.length := by
        by_contra hne
        rw [if_pos hne] at h
        cases h
      rw [if_neg (not_not_intro hl)] at h
      have hsum : checksumBytes (fields v kind seq ack srcPort payload ++ payload) =
          declaredChecksum % 0x10000 := by
        by_contra hne
        rw [if_pos hne] at h
        cases h
      rw [if_neg (not_not_intro hsum), Int.emod_eq_of_lt hport.1 hport.2] at h
      cases h
      subst hversion
      have hbound : payload.length ≤ 65535 := by omega
      refine ⟨⟨rfl, hs, ha, hport, hbound⟩, ?_⟩
      rw [encode_eq, wire_eq_image, intOfKind_of_kindOfInt hkind, hsum, image, image,
        word16_emod, ← word16_emod declaredLen, hl]
  · exfalso
    rw [decode, if_pos (by simp [headerLen]; omega)] at h
    cases h

theorem decode_of_encode {p : T} (hp : p.InRange) :
    ∃ b, encode p.kind p.seq p.ack p.srcPort p.payload = .ok b ∧ decode b = .ok (.ok p) := by
  have hlt : p.payload.length < 0x10000 := Nat.lt_succ_of_le hp.payload
  refine ⟨_, encode_eq _ _ _ _ _, ?_⟩
  rw [decode_wire _ _ _ hp.seq hp.ack, if_pos hlt, Int.emod_eq_of_lt hp.srcPort.1 hp.srcPort.2,
    ← hp.version]

/-- **The codec is a bijection** between the records in range and the packets that are accepted. -/
theorem codec_bijection :
    (∀ p : T, p.InRange → ∃ b, encode p.kind p.seq p.ack p.srcPort p.payload = .ok b ∧
      decode b = .ok (.ok p)) ∧
    ∀ b p, decode b = .ok (.ok p) →
      p.InRange ∧ encode p.kind p.seq p.ack p.srcPort p.payload = .ok b :=
  ⟨fun _ => decode_of_encode, fun _ _ => encode_of_decode⟩

end OCamlStudy.NanoOs.Packet
