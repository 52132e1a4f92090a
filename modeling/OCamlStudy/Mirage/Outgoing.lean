import OCamlStudy.Mirage.NetAdapter
import OCamlStudy.Program.OnesComplement

/-! # Outgoing frames

The checksum of a buffer with a zero field is the complement of its words, so
storing it in the field makes them add up to the word of ones. The IP header of a
frame is such a buffer, and the fields of the frame do not overlap.
-/

namespace OCamlStudy.Mirage.NetAdapter

open OCaml OnesComplement

open Cstruct (uint8At uint16At)

def wordSum (cs : Bytes) : ℕ := ∑ i ∈ Finset.range (cs.length / 2), uint16At cs (2 * i)

section Checksum

variable {cs : Bytes}

theorem sum_words {n : ℕ} (h : 2 * n ≤ cs.length) :
    (List.range n).foldlM
        (fun (sum : ℤ) (i : ℕ) => do return sum + (← Cstruct.BE.getUint16 cs (i * 2))) 0 =
      (.ok (∑ i ∈ Finset.range n, uint16At cs (2 * i) : ℕ) : Raises ℤ) := by
  induction n with
  | zero => rfl
  | succ n ih =>
    have hword : Cstruct.BE.getUint16 cs (n * 2) = .ok (uint16At cs (2 * n)) :=
      Cstruct.BE.getUint16_eq (by push_cast; ring) (by omega)
    rw [List.range_succ, List.foldlM_append, ih (by omega), Raises.ok_bind, List.foldlM_cons, hword,
      Finset.sum_range_succ]
    push_cast
    rfl

theorem wordSum_lt (h : cs.length ≤ 65536) : wordSum cs < 2 ^ 16 * 2 ^ 16 := by
  have hword : ∀ i ∈ Finset.range (cs.length / 2), uint16At cs (2 * i) ≤ 2 ^ 16 - 1 := fun i _ =>
    Nat.le_sub_one_of_lt (Cstruct.uint16At_lt cs (2 * i))
  have hsum := Finset.sum_le_card_nsmul _ _ _ hword
  rw [Finset.card_range, smul_eq_mul] at hsum
  have hlen : cs.length / 2 ≤ 2 ^ 15 := by omega
  calc
    wordSum cs ≤ cs.length / 2 * (2 ^ 16 - 1) := hsum
    _ ≤ 2 ^ 15 * (2 ^ 16 - 1) := Nat.mul_le_mul_right _ hlen
    _ < 2 ^ 16 * 2 ^ 16 := by norm_num

theorem checksumIp_eq (h : cs.length ≤ 65536) :
    checksumIp cs = .ok (complement 16 (wordSum cs)) := by
  have hfold := fold_two_carries (by decide) (wordSum_lt h)
  have hlt := fold_lt (w := 16) (by decide) (wordSum cs)
  have hbound := wordSum_lt h
  rw [checksumIp, sum_words (by omega), Raises.ok_bind]
  change Except.ok _ = Except.ok _
  rw [complement, ← hfold, carry]
  change Except.ok ((-((wordSum cs : ℤ) / 2 ^ 16 + (wordSum cs : ℤ) % 2 ^ 16 +
    ((wordSum cs : ℤ) / 2 ^ 16 + (wordSum cs : ℤ) % 2 ^ 16) / 2 ^ 16) - 1) % 2 ^ 16) = _
  congr 1
  omega

theorem beBytes16_number {c : ℕ} : 256 * (Cstruct.byte ((c : ℤ) / 256)).toNat +
    (Cstruct.byte (c : ℤ)).toNat = c % 2 ^ 16 := by
  have hhigh := Cstruct.byte_toNat ((c : ℤ) / 256)
  have hlow := Cstruct.byte_toNat (c : ℤ)
  omega

theorem setUint16_wordSum {k c : ℕ} (hk : 2 * k + 2 ≤ cs.length) (hzero : uint16At cs (2 * k) = 0)
    (hc : c < 2 ^ 16) :
    ∃ cs', Cstruct.BE.setUint16 cs (2 * k) c = .ok cs' ∧ wordSum cs' = wordSum cs + c := by
  have hlen : 2 * k + (Cstruct.beBytes16 c).length ≤ cs.length := hk
  refine ⟨Cstruct.splice cs (2 * k) (Cstruct.beBytes16 c), ?_, ?_⟩
  · rw [Cstruct.BE.setUint16, Cstruct.blit, if_neg (by simp [Cstruct.beBytes16]; omega)]
    rfl
  · have hword : ∀ i ∈ Finset.range (cs.length / 2),
        uint16At (Cstruct.splice cs (2 * k) (Cstruct.beBytes16 c)) (2 * i) =
          uint16At cs (2 * i) + if i = k then c else 0 := by
      intro i _
      rw [Cstruct.beBytes16, Cstruct.uint16At_splice hk, beBytes16_number, Nat.mod_eq_of_lt hc]
      split_ifs with hi
      · rw [hi, hzero, Nat.zero_add]
      · rfl
    have hmem : k ∈ Finset.range (cs.length / 2) := Finset.mem_range.mpr (by omega)
    rw [wordSum, Cstruct.splice_length hlen, Finset.sum_congr rfl hword, Finset.sum_add_distrib,
      Finset.sum_ite_eq' _ k, if_pos hmem, wordSum]

/-- The checksum, stored in a field that was zero, makes the words fold to the word of ones. -/
theorem checksumIp_stored {k : ℕ} (hlen : cs.length ≤ 65536) (hk : 2 * k + 2 ≤ cs.length)
    (hzero : uint16At cs (2 * k) = 0) :
    ∃ c cs', checksumIp cs = .ok c ∧ Cstruct.BE.setUint16 cs (2 * k) c = .ok cs' ∧
      fold 16 (wordSum cs') = 0xFFFF := by
  obtain ⟨cs', hset, hsum⟩ := setUint16_wordSum hk hzero (complement_lt 16 (wordSum cs))
  refine ⟨_, cs', checksumIp_eq hlen, hset, ?_⟩
  rw [hsum]
  exact fold_add_complement (by decide) (wordSum cs)

end Checksum

section Frame

variable (hostMac : Mac) (payload : Bytes)

def header (len checksum : ℤ) : Bytes :=
  [Cstruct.byte 0x45, Cstruct.byte 0] ++ Cstruct.beBytes16 len ++ Cstruct.beBytes16 0 ++
    Cstruct.beBytes16 0 ++ [Cstruct.byte 64, Cstruct.byte 17] ++ Cstruct.beBytes16 checksum ++
    myIp ++ hostIp

def ethernet (hostMac : Mac) : Bytes := hostMac.octets ++ myMac ++ Cstruct.beBytes16 0x0800

def udp (len : ℤ) : Bytes :=
  Cstruct.beBytes16 8080 ++ Cstruct.beBytes16 1234 ++ Cstruct.beBytes16 len ++ Cstruct.beBytes16 0

theorem ethernet_length : (ethernet hostMac).length = 14 := by
  simp [ethernet, hostMac.length_eq, myMac, Cstruct.beBytes16]

theorem header_length (len checksum : ℤ) : (header len checksum).length = 20 := rfl

theorem put_header {β : Type} (k : ℕ) (len : ℤ) (f : Bytes → Raises β) :
    (do
      let buf ← Cstruct.blit hostMac.octets 0 (List.replicate (k + 34) 0) 0 6
      let buf ← Cstruct.blit myMac 0 buf 6 6
      let buf ← Cstruct.BE.setUint16 buf 12 0x0800
      let buf ← Cstruct.setUint8 buf 14 0x45
      let buf ← Cstruct.setUint8 buf 15 0x00
      let buf ← Cstruct.BE.setUint16 buf 16 len
      let buf ← Cstruct.BE.setUint16 buf 18 0x0000
      let buf ← Cstruct.BE.setUint16 buf 20 0x0000
      let buf ← Cstruct.setUint8 buf 22 64
      let buf ← Cstruct.setUint8 buf 23 17
      let buf ← Cstruct.BE.setUint16 buf 24 0x0000
      let buf ← Cstruct.blit myIp 0 buf 26 4
      let buf ← Cstruct.blit hostIp 0 buf 30 4
      f buf) = f (ethernet hostMac ++ header len 0 ++ List.replicate k 0) := by
  obtain ⟨a, b, c, d, e, g, hmac, rfl⟩ := hostMac.exists_octets
  have hdst : Cstruct.blit [a, b, c, d, e, g] 0 (List.replicate (k + 34) 0) 0 6 =
      .ok ([a, b, c, d, e, g] ++ List.replicate (k + 28) 0) :=
    Cstruct.blit_zeros_add (p := []) (k := k + 28) rfl rfl rfl
  dsimp only
  rw [hdst, Raises.ok_bind, Cstruct.blit_zeros_add (k := k + 22) (m := 6), Raises.ok_bind,
    Cstruct.BE.setUint16_zeros (k := k + 20), Raises.ok_bind,
    Cstruct.setUint8_zeros (k := k + 19), Raises.ok_bind,
    Cstruct.setUint8_zeros (k := k + 18), Raises.ok_bind,
    Cstruct.BE.setUint16_zeros (k := k + 16), Raises.ok_bind,
    Cstruct.BE.setUint16_zeros (k := k + 14), Raises.ok_bind,
    Cstruct.BE.setUint16_zeros (k := k + 12), Raises.ok_bind,
    Cstruct.setUint8_zeros (k := k + 11), Raises.ok_bind,
    Cstruct.setUint8_zeros (k := k + 10), Raises.ok_bind,
    Cstruct.BE.setUint16_zeros (k := k + 8), Raises.ok_bind,
    Cstruct.blit_zeros_add (k := k + 4) (m := 4), Raises.ok_bind,
    Cstruct.blit_zeros_add (k := k) (m := 4), Raises.ok_bind]
  all_goals rfl

theorem put_udp {p : Bytes} (hp : p.length = 34) :
    (do
      let buf ← Cstruct.BE.setUint16 (p ++ List.replicate (payload.length + 8) 0) 34 8080
      let buf ← Cstruct.BE.setUint16 buf 36 1234
      let buf ← Cstruct.BE.setUint16 buf 38 (8 + payload.length)
      let buf ← Cstruct.BE.setUint16 buf 40 0x0000
      Cstruct.blit payload 0 buf 42 payload.length) =
      .ok (p ++ udp (8 + payload.length) ++ payload) := by
  rw [Cstruct.BE.setUint16_zeros (k := payload.length + 6), Raises.ok_bind,
    Cstruct.BE.setUint16_zeros (k := payload.length + 4), Raises.ok_bind,
    Cstruct.BE.setUint16_zeros (k := payload.length + 2), Raises.ok_bind,
    Cstruct.BE.setUint16_zeros (k := payload.length), Raises.ok_bind, Cstruct.blit_zeros_all]
  · simp only [udp, List.append_assoc]
  all_goals simp [hp, Cstruct.beBytes16]

/-- The frame is its three headers and the payload. -/
theorem frame_eq : ∃ checksum, checksumIp (header (20 + 8 + payload.length) 0) = .ok checksum ∧
    frame hostMac payload = .ok (ethernet hostMac ++ header (20 + 8 + payload.length) checksum ++
      udp (8 + payload.length) ++ payload) := by
  generalize hn : (20 + 8 + payload.length : ℤ) = len
  have hsum : checksumIp (header len 0) = .ok (complement 16 (wordSum (header len 0))) :=
    checksumIp_eq (by rw [header_length]; decide)
  refine ⟨_, hsum, ?_⟩
  have hlen : (14 + 20 + 8 + payload.length : ℤ) = (payload.length + 8 + 34 : ℕ) := by
    push_cast
    ring
  have heth := ethernet_length hostMac
  have hsub : Cstruct.sub (ethernet hostMac ++ header len 0 ++
      List.replicate (payload.length + 8) 0) 14 20 = .ok (header len 0) := by
    rw [List.append_assoc]
    exact Cstruct.sub_middle (by rw [heth]; rfl) rfl
  have hstore (c : ℤ) : Cstruct.BE.setUint16 (ethernet hostMac ++ header len 0 ++
      List.replicate (payload.length + 8) 0) 24 c =
        .ok (ethernet hostMac ++ header len c ++ List.replicate (payload.length + 8) 0) := by
    have hsplit (c : ℤ) :
        ethernet hostMac ++ header len c ++ List.replicate (payload.length + 8) 0 =
        (ethernet hostMac ++ (header len c).take 10) ++ (Cstruct.beBytes16 c ++
          (myIp ++ hostIp ++ List.replicate (payload.length + 8) 0)) := by
      simp only [List.append_assoc]
      rfl
    rw [hsplit, hsplit]
    exact Cstruct.blit_middle (by rw [List.length_append, heth]; rfl) rfl rfl
  unfold frame
  dsimp only
  rw [hn, hlen, Cstruct.create_natCast, Raises.ok_bind, put_header, hsub, Raises.ok_bind, hsum,
    Raises.ok_bind, hstore, Raises.ok_bind]
  exact put_udp payload (by rw [List.length_append, heth, header_length])

theorem write_eq {f : Bytes} (send : Bytes → Except Netif.Error Unit)
    (hf : frame hostMac payload = .ok f) (hlen : f.length = 42 + payload.length) :
    write send hostMac payload = .ok ((send f).mapError Netif.ppError) := by
  have htotal : (14 + 20 + 8 + payload.length : ℤ) = f.length := by
    rw [hlen]
    push_cast
    ring
  unfold write
  dsimp only
  rw [hf, Raises.ok_bind, Netif.writePure_frame htotal, Raises.ok_bind]
  have hanswer : (Except.ok f >>= send) = send f := rfl
  rw [hanswer]
  cases send f with
  | error e => rfl
  | ok u => rfl

/-- An Ethernet frame with an IPv4 header and a UDP header that carries the payload. -/
structure ValidFrame (hostMac : Mac) (payload f : Bytes) : Prop where
  dst : f.take 6 = hostMac.octets
  ethertype : uint16At f 12 = 0x0800
  version : uint8At f 14 = 0x45
  headerSum : fold 16 (wordSum ((f.drop 14).take 20)) = 0xFFFF
  totalLength : uint16At f 16 = 28 + payload.length
  protocol : uint8At f 23 = 17
  udpLength : uint16At f 38 = 8 + payload.length
  payload_eq : f.drop 42 = payload

theorem validFrame {len checksum : ℤ} (hlen : len = 20 + 8 + payload.length)
    (hfits : 28 + payload.length ≤ 65535)
    (hsum : fold 16 (wordSum (header len checksum)) = 0xFFFF) :
    ValidFrame hostMac payload
      (ethernet hostMac ++ header len checksum ++ udp (8 + payload.length) ++ payload) := by
  obtain ⟨a, b, c, d, e, g, hmac, rfl⟩ := hostMac.exists_octets
  have hnumber {n : ℕ} (hn : n < 2 ^ 16) : 256 * (Cstruct.byte ((n : ℤ) / 256)).toNat +
      (Cstruct.byte (n : ℤ)).toNat = n := by rw [beBytes16_number, Nat.mod_eq_of_lt hn]
  have htotal : len = (28 + payload.length : ℕ) := by
    rw [hlen]
    push_cast
    ring
  have hudp : (8 + payload.length : ℤ) = (8 + payload.length : ℕ) := by push_cast; rfl
  rw [htotal] at hsum ⊢
  rw [hudp]
  exact {
    dst := rfl
    ethertype := rfl
    version := rfl
    headerSum := hsum
    totalLength := hnumber (by omega)
    protocol := rfl
    udpLength := hnumber (by omega)
    payload_eq := rfl
  }

end Frame

theorem header_fold {len c : ℤ} (hc : checksumIp (header len 0) = .ok c) :
    fold 16 (wordSum (header len c)) = 0xFFFF := by
  have hzero : uint16At (header len 0) (2 * 5) = 0 := rfl
  obtain ⟨c', header', hc', hset, hfold⟩ := checksumIp_stored
    (by rw [header_length]; decide) (by rw [header_length]; decide) hzero
  obtain rfl : c' = c := Except.ok.inj (hc'.symm.trans hc)
  have hheader : Cstruct.BE.setUint16 (header len 0) 10 c' = .ok (header len c') := rfl
  obtain rfl : header' = header len c' := Except.ok.inj (hset.symm.trans hheader)
  exact hfold

/-- What is sent is a valid frame around the payload, and the checksum of any buffer of at most
`65536` bytes, stored in a field that was zero, makes its words fold to the word of ones. -/
theorem write_validFrame :
    (∀ (send : Bytes → Except Netif.Error Unit) (hostMac : Mac) (payload : Bytes),
      28 + payload.length ≤ 65535 → ∃ f, frame hostMac payload = .ok f ∧
        ValidFrame hostMac payload f ∧
        write send hostMac payload = .ok ((send f).mapError Netif.ppError)) ∧
    ∀ (cs : Bytes) (k : ℕ), cs.length % 2 = 0 → cs.length ≤ 65536 → 2 * k + 2 ≤ cs.length →
      uint16At cs (2 * k) = 0 →
      ∃ c cs', checksumIp cs = .ok c ∧ Cstruct.BE.setUint16 cs (2 * k) c = .ok cs' ∧
        fold 16 (wordSum cs') = 0xFFFF := by
  refine ⟨fun send hostMac payload hfits => ?_, fun cs k _ hlen hk hzero =>
    checksumIp_stored hlen hk hzero⟩
  obtain ⟨c, hc, hframe⟩ := frame_eq hostMac payload
  refine ⟨_, hframe, validFrame hostMac payload rfl hfits (header_fold hc),
    write_eq _ _ send hframe ?_⟩
  have hudp : (udp (8 + payload.length)).length = 8 := rfl
  simp only [List.length_append, ethernet_length, header_length, hudp]

/-- The payload of a shell request, and three words with a zero field. -/
theorem write_validFrame_request :
    (∃ f, frame broadcastMac (bytes "write a hello") = .ok f ∧
      ValidFrame broadcastMac (bytes "write a hello") f ∧
      write (fun _ => .ok ()) broadcastMac (bytes "write a hello") = .ok (.ok ())) ∧
    ∃ c cs', checksumIp [0xFF, 0xFE, 0, 0, 0x80, 0x01] = .ok c ∧
      Cstruct.BE.setUint16 [0xFF, 0xFE, 0, 0, 0x80, 0x01] 2 c = .ok cs' ∧
      fold 16 (wordSum cs') = 0xFFFF :=
  ⟨write_validFrame.1 (fun _ => .ok ()) broadcastMac (bytes "write a hello") (by decide),
    write_validFrame.2 [0xFF, 0xFE, 0, 0, 0x80, 0x01] 1 (by decide) (by decide) (by decide) rfl⟩

end OCamlStudy.Mirage.NetAdapter
