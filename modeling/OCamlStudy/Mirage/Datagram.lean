import OCamlStudy.Mirage.Listening

/-! # Datagrams on the wire

What a host sends to the adapter: an Ethernet frame around an IPv4 header, with
options, and a UDP header, with padding behind the payload. Where the IP header has
its length, these are the frames whose payload the handler hands on.
-/

namespace OCamlStudy.Mirage.NetAdapter

open OCaml

open Cstruct (uint8At uint16At)

/-- The parts of a frame; the adapter does not look at `service`, `addresses` and `checksum`. -/
structure Datagram where
  dst : Mac
  src : Mac
  versionIhl : UInt8
  service : Bytes
  addresses : Bytes
  options : Bytes
  srcPort : Bytes
  checksum : Bytes
  payload : Bytes
  padding : Bytes
  ihl : 5 ≤ versionIhl.toNat % 16
  service_length : service.length = 8
  addresses_length : addresses.length = 10
  options_length : options.length = 4 * (versionIhl.toNat % 16 - 5)
  srcPort_length : srcPort.length = 2
  checksum_length : checksum.length = 2
  payload_length : payload.length ≤ 65527

section Fields

variable {p t : Bytes} {k i : ℕ}

theorem uint8At_append (h : p.length = k) : uint8At (p ++ t) (k + i) = uint8At t i := by
  rw [uint8At, uint8At, List.getD_eq_getElem?_getD, List.getD_eq_getElem?_getD,
    List.getElem?_append_right (by omega), h, Nat.add_sub_cancel_left]

theorem uint16At_append (h : p.length = k) : uint16At (p ++ t) (k + i) = uint16At t i := by
  rw [uint16At, uint16At, Nat.add_assoc, uint8At_append h, uint8At_append h]

theorem beBytes16_length (n : ℤ) : (Cstruct.beBytes16 n).length = 2 := rfl

theorem uint16At_beBytes16 {n : ℕ} (hn : n < 2 ^ 16) :
    uint16At (Cstruct.beBytes16 n ++ t) 0 = n :=
  beBytes16_number.trans (Nat.mod_eq_of_lt hn)

theorem beBytes16_uint16At (hp : p.length = 2) :
    Cstruct.beBytes16 (uint16At (p ++ t) 0) = p := by
  rcases p with _ | ⟨a, _ | ⟨b, _ | ⟨_, _⟩⟩⟩ <;> simp only [List.length_cons, List.length_nil] at hp
  all_goals first | omega | skip
  have ha := a.toNat_lt
  have hb := b.toNat_lt
  have hhigh := Cstruct.byte_toNat (((256 * a.toNat + b.toNat : ℕ) : ℤ) / 256)
  have hlow := Cstruct.byte_toNat ((256 * a.toNat + b.toNat : ℕ) : ℤ)
  have hfield : uint16At ([a, b] ++ t) 0 = 256 * a.toNat + b.toNat := rfl
  rw [hfield, Cstruct.beBytes16]
  congr 1
  · exact UInt8.toNat_inj.mp (by omega)
  · congr 1
    exact UInt8.toNat_inj.mp (by omega)

theorem exists_split {b : Bytes} (h : k ≤ b.length) : ∃ p t : Bytes, b = p ++ t ∧ p.length = k :=
  ⟨b.take k, b.drop k, (List.take_append_drop k b).symm, List.length_take_of_le h⟩

end Fields

namespace Datagram

variable (d : Datagram)

def udpImage : Bytes :=
  d.srcPort ++ (Cstruct.beBytes16 (8080 : ℕ) ++ (Cstruct.beBytes16 (8 + d.payload.length : ℕ) ++
    (d.checksum ++ (d.payload ++ d.padding))))

def image : Bytes :=
  d.dst.octets ++ (d.src.octets ++ (Cstruct.beBytes16 (0x0800 : ℕ) ++ ([d.versionIhl] ++
    (d.service ++ ([17] ++ (d.addresses ++ (d.options ++ d.udpImage)))))))

theorem image_length : d.image.length = 34 + d.options.length + 8 + d.payload.length +
    d.padding.length := by
  simp only [image, udpImage, List.length_append, Mac.length_eq, d.service_length,
    d.addresses_length, d.srcPort_length, d.checksum_length, Cstruct.beBytes16, List.length_cons,
    List.length_nil]
  omega

theorem ethertype : uint16At d.image 12 = 0x0800 := by
  have hdst : uint16At d.image (6 + (6 + 0)) = _ := uint16At_append d.dst.length_eq
  exact hdst.trans ((uint16At_append d.src.length_eq).trans (uint16At_beBytes16 (by decide)))

theorem ihlAt : uint8At d.image 14 = d.versionIhl.toNat := by
  have hdst : uint8At d.image (6 + (6 + (2 + 0))) = _ := uint8At_append d.dst.length_eq
  exact hdst.trans ((uint8At_append d.src.length_eq).trans (uint8At_append rfl))

theorem protocol : uint8At d.image 23 = 17 := by
  have hdst : uint8At d.image (6 + (6 + (2 + (1 + (8 + 0))))) = _ := uint8At_append d.dst.length_eq
  exact hdst.trans ((uint8At_append d.src.length_eq).trans ((uint8At_append rfl).trans
    ((uint8At_append rfl).trans (uint8At_append d.service_length))))

theorem udpStart_eq : udpStart d.image = 34 + d.options.length := by
  have hihl := d.ihl
  have hoptions := d.options_length
  rw [udpStart, ihlAt]
  omega

theorem image_split : ∃ p : Bytes, d.image = p ++ d.udpImage ∧ p.length = udpStart d.image := by
  refine ⟨d.dst.octets ++ (d.src.octets ++ (Cstruct.beBytes16 (0x0800 : ℕ) ++ ([d.versionIhl] ++
    (d.service ++ ([17] ++ (d.addresses ++ d.options)))))), ?_, ?_⟩
  · simp only [image, List.append_assoc]
  · rw [udpStart_eq]
    simp only [List.length_append, Mac.length_eq, d.service_length, d.addresses_length,
      Cstruct.beBytes16, List.length_cons, List.length_nil]
    omega

theorem dstPort : uint16At d.image (udpStart d.image + 2) = 8080 := by
  obtain ⟨p, himage, hp⟩ := d.image_split
  have hport : uint16At (p ++ d.udpImage) (udpStart d.image + (2 + 0)) = _ := uint16At_append hp
  rw [← himage] at hport
  exact hport.trans ((uint16At_append d.srcPort_length).trans (uint16At_beBytes16 (by decide)))

theorem udpLen_eq : udpLen d.image = 8 + d.payload.length := by
  have hlen := d.payload_length
  obtain ⟨p, himage, hp⟩ := d.image_split
  have hfield : uint16At (p ++ d.udpImage) (udpStart d.image + (2 + (2 + 0))) = _ :=
    uint16At_append hp
  rw [← himage] at hfield
  exact hfield.trans ((uint16At_append d.srcPort_length).trans
    ((uint16At_append rfl).trans (uint16At_beBytes16 (by omega))))

theorem isDatagram : IsDatagram d.image := by
  have hlen := d.image_length
  exact ⟨by omega, d.ethertype, d.protocol, by rw [udpStart_eq]; omega, d.dstPort⟩

theorem lengthFits : LengthFits d.image := by
  have hlen := d.image_length
  exact ⟨by rw [udpLen_eq]; omega, by rw [udpStart_eq, udpLen_eq]; omega⟩

theorem payloadAt_image : payloadAt d.image = d.payload := by
  obtain ⟨p, himage, hp⟩ := d.image_split
  have hudp : d.udpImage.drop 8 = d.payload ++ d.padding := by
    have hheader : (d.srcPort ++ (Cstruct.beBytes16 (8080 : ℕ) ++
        (Cstruct.beBytes16 (8 + d.payload.length : ℕ) ++ d.checksum))).length = 8 := by
      simp only [List.length_append, d.srcPort_length, d.checksum_length, Cstruct.beBytes16,
        List.length_cons, List.length_nil]
    have hsplit : d.udpImage = (d.srcPort ++ (Cstruct.beBytes16 (8080 : ℕ) ++
        (Cstruct.beBytes16 (8 + d.payload.length : ℕ) ++ d.checksum))) ++
          (d.payload ++ d.padding) := by
      simp only [udpImage, List.append_assoc]
    rw [hsplit]
    exact List.drop_left' hheader
  have hdrop : d.image.drop (udpStart d.image + 8) = d.payload ++ d.padding := by
    rw [← List.drop_drop, himage, ← himage, ← hp, himage, List.drop_left, hudp]
  rw [payloadAt, hdrop, udpLen_eq, Nat.add_sub_cancel_left, List.take_left]

theorem source_image : macAt d.image d.isDatagram.source = d.src := by
  have hoctets : (d.image.drop 6).take 6 = d.src.octets := by
    rw [image, List.drop_left' d.dst.length_eq, List.take_left' d.src.length_eq]
  simp only [macAt, hoctets]

end Datagram

section Exact

variable {buf : Bytes}

theorem IsDatagram.split_ip (hd : IsDatagram buf) (hihl : 5 ≤ uint8At buf 14 % 16) :
    ∃ (dst src : Mac) (v : UInt8) (service addresses options udp : Bytes),
      buf = dst.octets ++ (src.octets ++ (Cstruct.beBytes16 (0x0800 : ℕ) ++ ([v] ++
        (service ++ ([17] ++ (addresses ++ (options ++ udp))))))) ∧
      5 ≤ v.toNat % 16 ∧ service.length = 8 ∧ addresses.length = 10 ∧
      options.length = 4 * (v.toNat % 16 - 5) := by
  have hheader := hd.header
  have hstart : udpStart buf = 34 + 4 * (uint8At buf 14 % 16 - 5) := by
    rw [udpStart]
    omega
  obtain ⟨dst, b₁, rfl, hdst⟩ := @exists_split 6 buf (by omega)
  have hlen₁ := @List.length_append _ dst b₁
  obtain ⟨src, b₂, rfl, hsrc⟩ := @exists_split 6 b₁ (by omega)
  have hlen₂ := @List.length_append _ src b₂
  obtain ⟨type, b₃, rfl, htype⟩ := @exists_split 2 b₂ (by omega)
  have hlen₃ := @List.length_append _ type b₃
  obtain ⟨first, b₄, rfl, hfirst⟩ := @exists_split 1 b₃ (by omega)
  have hlen₄ := @List.length_append _ first b₄
  obtain ⟨service, b₅, rfl, hservice⟩ := @exists_split 8 b₄ (by omega)
  have hlen₅ := @List.length_append _ service b₅
  obtain ⟨protocol, b₆, rfl, hprotocol⟩ := @exists_split 1 b₅ (by omega)
  have hlen₆ := @List.length_append _ protocol b₆
  obtain ⟨addresses, b₇, rfl, haddresses⟩ := @exists_split 10 b₆ (by omega)
  have hlen₇ := @List.length_append _ addresses b₇
  obtain ⟨v, rfl⟩ := List.length_eq_one_iff.mp hfirst
  obtain ⟨q, rfl⟩ := List.length_eq_one_iff.mp hprotocol
  have hethertype := hd.ethertype
  have hproto := hd.protocol
  generalize hb : dst ++ (src ++ (type ++ ([v] ++ (service ++ ([q] ++ (addresses ++ b₇)))))) =
    b at *
  have hv : uint8At b (6 + (6 + (2 + 0))) = v.toNat := by
    rw [← hb, uint8At_append hdst, uint8At_append hsrc, uint8At_append htype]
    rfl
  have hq : uint8At b (6 + (6 + (2 + (1 + (8 + 0))))) = q.toNat := by
    rw [← hb, uint8At_append hdst, uint8At_append hsrc, uint8At_append htype,
      uint8At_append hfirst, uint8At_append hservice]
    rfl
  have ht : Cstruct.beBytes16 (uint16At b (6 + (6 + 0))) = type := by
    rw [← hb, uint16At_append hdst, uint16At_append hsrc, beBytes16_uint16At htype]
  have hv' : uint8At b 14 = v.toNat := hv
  have hq' : q.toNat = 17 := hq.symm.trans hproto
  rw [hv'] at hihl hstart
  obtain ⟨options, udp, rfl, hoptions⟩ := @exists_split (4 * (v.toNat % 16 - 5)) b₇ (by omega)
  refine ⟨⟨dst, hdst⟩, ⟨src, hsrc⟩, v, service, addresses, options, udp, ?_, hihl, hservice,
    haddresses, hoptions⟩
  have htype' : Cstruct.beBytes16 (0x0800 : ℕ) = type := hethertype ▸ ht
  have hq'' : q = 17 := UInt8.toNat_inj.mp hq'
  rw [← hb, htype', hq'']

theorem IsDatagram.split_udp (hd : IsDatagram buf) (hf : LengthFits buf) {p udp : Bytes}
    (hbuf : buf = p ++ udp) (hp : p.length = udpStart buf) :
    ∃ srcPort checksum payload padding : Bytes,
      udp = srcPort ++ (Cstruct.beBytes16 (8080 : ℕ) ++
        (Cstruct.beBytes16 (8 + payload.length : ℕ) ++ (checksum ++ (payload ++ padding)))) ∧
      srcPort.length = 2 ∧ checksum.length = 2 ∧ payload.length ≤ 65527 := by
  have hheader := hd.header
  have hport := hd.dstPort
  have hfits := hf.header
  have hframe := hf.frame
  have hlimit : udpLen buf < 2 ^ 16 := Cstruct.uint16At_lt buf _
  have hsize : buf.length = p.length + udp.length := by rw [hbuf, List.length_append]
  have hfield (i : ℕ) : uint16At buf (udpStart buf + i) = uint16At udp i := by
    have happend := @uint16At_append p udp _ i hp
    rwa [← hbuf] at happend
  have hlen : uint16At udp 4 = udpLen buf := (hfield 4).symm
  rw [hfield] at hport
  obtain ⟨srcPort, u₁, rfl, hsrcPort⟩ := @exists_split 2 udp (by omega)
  have hlen₁ := @List.length_append _ srcPort u₁
  obtain ⟨dstPort, u₂, rfl, hdstPort⟩ := @exists_split 2 u₁ (by omega)
  have hlen₂ := @List.length_append _ dstPort u₂
  obtain ⟨count, u₃, rfl, hcount⟩ := @exists_split 2 u₂ (by omega)
  have hlen₃ := @List.length_append _ count u₃
  obtain ⟨checksum, u₄, rfl, hchecksum⟩ := @exists_split 2 u₃ (by omega)
  have hlen₄ := @List.length_append _ checksum u₄
  obtain ⟨payload, padding, rfl, hpayload⟩ := @exists_split (udpLen buf - 8) u₄ (by omega)
  have hport' : Cstruct.beBytes16 (uint16At (srcPort ++ (dstPort ++ (count ++ (checksum ++
      (payload ++ padding))))) (2 + 0)) = dstPort := by
    rw [uint16At_append hsrcPort, beBytes16_uint16At hdstPort]
  have hcount' : Cstruct.beBytes16 (uint16At (srcPort ++ (dstPort ++ (count ++ (checksum ++
      (payload ++ padding))))) (2 + (2 + 0))) = count := by
    rw [uint16At_append hsrcPort, uint16At_append hdstPort, beBytes16_uint16At hcount]
  refine ⟨srcPort, checksum, payload, padding, ?_, hsrcPort, hchecksum, by omega⟩
  have hdst : Cstruct.beBytes16 (8080 : ℕ) = dstPort := hport ▸ hport'
  have hsum : 8 + payload.length = udpLen buf := by omega
  have hnum : Cstruct.beBytes16 (8 + payload.length : ℕ) = count := by
    rw [hsum, ← hlen]
    exact hcount'
  rw [hdst, hnum]

theorem exists_datagram (hd : IsDatagram buf) (hf : LengthFits buf)
    (hihl : 5 ≤ uint8At buf 14 % 16) : ∃ d : Datagram, d.image = buf := by
  obtain ⟨dst, src, v, service, addresses, options, udp, hbuf, hv, hservice, haddresses,
    hoptions⟩ :=
    hd.split_ip hihl
  have hv' : uint8At buf (6 + (6 + (2 + 0))) = v.toNat := by
    rw [hbuf, uint8At_append dst.length_eq, uint8At_append src.length_eq,
      uint8At_append (beBytes16_length _)]
    rfl
  have hsplit : buf = (dst.octets ++ (src.octets ++ (Cstruct.beBytes16 (0x0800 : ℕ) ++ ([v] ++
      (service ++ ([17] ++ (addresses ++ options))))))) ++ udp := by
    rw [hbuf]
    simp only [List.append_assoc]
  have hstart : (dst.octets ++ (src.octets ++ (Cstruct.beBytes16 (0x0800 : ℕ) ++ ([v] ++
      (service ++ ([17] ++ (addresses ++ options))))))).length = udpStart buf := by
    have hihl' : uint8At buf 14 = v.toNat := hv'
    rw [udpStart, hihl']
    simp only [List.length_append, Mac.length_eq, hservice, haddresses, hoptions, Cstruct.beBytes16,
      List.length_cons, List.length_nil]
    omega
  obtain ⟨srcPort, checksum, payload, padding, hudp, hsrcPort, hchecksum, hpayload⟩ :=
    hd.split_udp hf hsplit hstart
  refine ⟨⟨dst, src, v, service, addresses, options, srcPort, checksum, payload, padding, hv,
    hservice, haddresses, hoptions, hsrcPort, hchecksum, hpayload⟩, ?_⟩
  rw [hbuf, hudp]
  rfl

end Exact

end OCamlStudy.Mirage.NetAdapter
