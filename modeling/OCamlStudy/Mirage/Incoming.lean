import OCamlStudy.Mirage.NetAdapter

/-! # Incoming frames

The length field of a UDP header is not compared with the length of the frame, so
the view of the payload can be out of bounds. Nothing else in the handler raises.
-/

namespace OCamlStudy.Mirage.NetAdapter

open OCaml

open Cstruct (uint8At uint16At)

section Handler

variable {α β : Type}

theorem Handler.ok_bind (a : α) (f : α → Handler β) :
    ((liftM (.ok a : Raises α) : Handler α) >>= f) = f a := rfl

end Handler

def macAt (buf : Bytes) (h : 12 ≤ buf.length) : Mac where
  octets := (buf.drop 6).take 6
  length_eq := by rw [List.length_take, List.length_drop]; omega

variable {buf : Bytes}

theorem srcMac_eq (h : 12 ≤ buf.length) : srcMac buf = .ok (macAt buf h) := by
  have hsub : Cstruct.sub buf 6 6 = .ok ((buf.drop 6).take 6) := Cstruct.sub_natCast h
  unfold srcMac
  split
  next octets heq =>
    obtain rfl := Except.ok.inj (heq.symm.trans hsub)
    rfl
  next exn heq => cases heq.symm.trans hsub

def replyImage (mac : Mac) (srcIp : Bytes) : Bytes :=
  mac.octets ++ myMac ++ Cstruct.beBytes16 0x0806 ++ Cstruct.beBytes16 1 ++
    Cstruct.beBytes16 0x0800 ++ [Cstruct.byte 6, Cstruct.byte 4] ++ Cstruct.beBytes16 2 ++
    myMac ++ myIp ++ mac.octets ++ srcIp

theorem arpReply_eq (mac : Mac) {srcIp : Bytes} (h : srcIp.length = 4) :
    arpReply mac srcIp = .ok (replyImage mac srcIp) := by
  obtain ⟨a, b, c, d, e, g, hmac, rfl⟩ := mac.exists_octets
  have hdst : Cstruct.blit [a, b, c, d, e, g] 0 (List.replicate 42 0) 0 6 =
      .ok ([a, b, c, d, e, g] ++ List.replicate 36 0) :=
    Cstruct.blit_zeros_add (p := []) (k := 36) rfl rfl rfl
  have hcreate : Cstruct.create 42 = .ok (List.replicate 42 0) := Cstruct.create_natCast 42
  unfold arpReply
  dsimp only
  rw [hcreate, Raises.ok_bind, hdst, Raises.ok_bind, Cstruct.blit_zeros_add (k := 30) (m := 6),
    Raises.ok_bind, Cstruct.BE.setUint16_zeros (k := 28), Raises.ok_bind,
    Cstruct.BE.setUint16_zeros (k := 26), Raises.ok_bind,
    Cstruct.BE.setUint16_zeros (k := 24), Raises.ok_bind,
    Cstruct.setUint8_zeros (k := 23), Raises.ok_bind,
    Cstruct.setUint8_zeros (k := 22), Raises.ok_bind,
    Cstruct.BE.setUint16_zeros (k := 20), Raises.ok_bind,
    Cstruct.blit_zeros_add (k := 14) (m := 6), Raises.ok_bind,
    Cstruct.blit_zeros_add (k := 10) (m := 4), Raises.ok_bind,
    Cstruct.blit_zeros_add (k := 4) (m := 6), Raises.ok_bind,
    Cstruct.blit_zeros_add (k := 0) (m := 4), List.replicate_zero, List.append_nil]
  all_goals first | exact h | rfl

/-- A request for the address of the adapter. -/
structure IsRequest (buf : Bytes) : Prop where
  length : 42 ≤ buf.length
  ethertype : uint16At buf 12 = 0x0806
  opcode : uint16At buf 20 = 1
  targetIp : (buf.drop 38).take 4 = myIp

theorem arp_eq (h : 42 ≤ buf.length) : arp buf =
    if uint16At buf 20 = 1 ∧ (buf.drop 38).take 4 = myIp then do
      learn (macAt buf (by omega))
      return .reply (replyImage (macAt buf (by omega)) ((buf.drop 28).take 4))
    else return .ignore := by
  have hopcode : Cstruct.BE.getUint16 buf 20 = .ok (uint16At buf 20) :=
    Cstruct.BE.getUint16_eq rfl (by omega)
  have htarget : Cstruct.sub buf 38 4 = .ok ((buf.drop 38).take 4) := Cstruct.sub_natCast h
  have hsrcIp : Cstruct.sub buf 28 4 = .ok ((buf.drop 28).take 4) :=
    Cstruct.sub_natCast (le_trans (by decide) h)
  have hip : ((buf.drop 28).take 4).length = 4 := by
    rw [List.length_take, List.length_drop]
    omega
  have hreply := arpReply_eq (macAt buf (by omega)) hip
  rw [arp, if_pos h, hopcode, Handler.ok_bind, htarget, Handler.ok_bind]
  by_cases hreq : uint16At buf 20 = 1 ∧ (buf.drop 38).take 4 = myIp
  · rw [if_pos hreq, if_pos (by exact_mod_cast hreq), srcMac_eq (by omega), Handler.ok_bind, hsrcIp]
    have hsize : (42 : ℤ) = (replyImage (macAt buf (by omega)) ((buf.drop 28).take 4)).length := by
      simp [replyImage, Mac.length_eq, myMac, myIp, Cstruct.beBytes16, hip]
    simp only [Handler.ok_bind, hreply, Netif.writePure_frame hsize]
  · rw [if_neg hreq, if_neg (by exact_mod_cast hreq)]

def udpStart (buf : Bytes) : ℕ := 14 + uint8At buf 14 % 16 * 4

def udpLen (buf : Bytes) : ℕ := uint16At buf (udpStart buf + 4)

/-- A datagram for the port of the adapter, with a whole UDP header. -/
structure IsDatagram (buf : Bytes) : Prop where
  length : 34 ≤ buf.length
  ethertype : uint16At buf 12 = 0x0800
  protocol : uint8At buf 23 = 17
  header : udpStart buf + 8 ≤ buf.length
  dstPort : uint16At buf (udpStart buf + 2) = 8080

/-- The length field counts the header and no more than what is there. -/
structure LengthFits (buf : Bytes) : Prop where
  header : 8 ≤ udpLen buf
  frame : udpStart buf + udpLen buf ≤ buf.length

theorem ip_eq (h : 34 ≤ buf.length) : ip buf =
    if uint8At buf 23 = 17 ∧ udpStart buf + 8 ≤ buf.length ∧ uint16At buf (udpStart buf + 2) = 8080
    then do
      learn (macAt buf (by omega))
      return .callback (← Cstruct.sub buf (udpStart buf + 8) (udpLen buf - 8))
    else return .ignore := by
  have hproto : Cstruct.getUint8 buf 23 = .ok (uint8At buf 23) :=
    Cstruct.getUint8_eq rfl (by omega)
  have hihl : Cstruct.getUint8 buf 14 = .ok (uint8At buf 14) := Cstruct.getUint8_eq rfl (by omega)
  have hstart : 14 + (uint8At buf 14 : ℤ) % 16 * 4 = udpStart buf := by
    rw [udpStart]
    push_cast
    rfl
  rw [ip, if_pos h, hproto, Handler.ok_bind]
  by_cases hudp : uint8At buf 23 = 17
  · rw [if_pos (by exact_mod_cast hudp), hihl, Handler.ok_bind]
    dsimp only
    rw [hstart]
    by_cases hheader : udpStart buf + 8 ≤ buf.length
    · have hsrc : Cstruct.BE.getUint16 buf (udpStart buf) = .ok (uint16At buf (udpStart buf)) :=
        Cstruct.BE.getUint16_eq rfl (by omega)
      have hdst : Cstruct.BE.getUint16 buf (udpStart buf + 2) =
          .ok (uint16At buf (udpStart buf + 2)) :=
        Cstruct.BE.getUint16_eq (by push_cast; rfl) (by omega)
      have hlen : Cstruct.BE.getUint16 buf (udpStart buf + 4) = .ok (udpLen buf) :=
        Cstruct.BE.getUint16_eq (by push_cast; rfl) (by omega)
      rw [if_pos (by exact_mod_cast hheader), hsrc, Handler.ok_bind, hdst, Handler.ok_bind, hlen,
        Handler.ok_bind]
      by_cases hport : uint16At buf (udpStart buf + 2) = 8080
      · rw [if_pos (by exact_mod_cast hport), if_pos ⟨hudp, hheader, hport⟩,
          srcMac_eq (by omega), Handler.ok_bind]
      · rw [if_neg (by exact_mod_cast hport), if_neg (fun hc => hport hc.2.2)]
    · rw [if_neg (by exact_mod_cast hheader), if_neg (fun hc => hheader hc.2.1)]
  · rw [if_neg (by exact_mod_cast hudp), if_neg (fun hc => hudp hc.1)]

/-- What the handler may do: it answers nothing but a request for its address, and hands on a
sub-range of the frame. -/
def Action.Proper (buf : Bytes) : Action → Prop
  | .ignore => True
  | .reply frame => IsRequest buf ∧
      ∃ mac, srcMac buf = .ok mac ∧ frame = replyImage mac ((buf.drop 28).take 4)
  | .callback payload => payload <:+: buf

/-- The handler does not raise on the frame, and does what it may do. -/
def Survives (hostMac : Mac) (buf : Bytes) : Prop :=
  ∃ action, (handle hostMac buf).1 = .ok action ∧ action.Proper buf

theorem handle_eq (hostMac : Mac) (h : 14 ≤ buf.length) : handle hostMac buf =
    if uint16At buf 12 = 0x0806 then (arp buf).run hostMac
    else if uint16At buf 12 = 0x0800 then (ip buf).run hostMac
    else (.ok .ignore, hostMac) := by
  have hethertype : Cstruct.BE.getUint16 buf 12 = .ok (uint16At buf 12) :=
    Cstruct.BE.getUint16_eq rfl (by omega)
  rw [handle, handler, if_neg (by omega), hethertype, Handler.ok_bind]
  norm_cast
  split_ifs <;> rfl

theorem survives_arp {hostMac : Mac} (h : 14 ≤ buf.length) (hethertype : uint16At buf 12 = 0x0806) :
    Survives hostMac buf := by
  rw [Survives, handle_eq hostMac h, if_pos hethertype]
  by_cases hlen : 42 ≤ buf.length
  · rw [arp_eq hlen]
    split_ifs with hreq
    · exact ⟨_, rfl, ⟨hlen, hethertype, hreq.1, hreq.2⟩, _, srcMac_eq (by omega), rfl⟩
    · exact ⟨_, rfl, trivial⟩
  · rw [arp, if_neg hlen]
    exact ⟨_, rfl, trivial⟩

theorem survives_ip {hostMac : Mac} (h : 14 ≤ buf.length) (hethertype : uint16At buf 12 = 0x0800) :
    Survives hostMac buf ↔ (IsDatagram buf → LengthFits buf) := by
  have hne : uint16At buf 12 ≠ 0x0806 := by rw [hethertype]; decide
  rw [Survives, handle_eq hostMac h, if_neg hne, if_pos hethertype]
  by_cases hlen : 34 ≤ buf.length
  · rw [ip_eq hlen]
    split_ifs with hudp
    · have hdatagram : IsDatagram buf := ⟨hlen, hethertype, hudp.1, hudp.2.1, hudp.2.2⟩
      have hfits : LengthFits buf ↔
          ∃ x, Cstruct.sub buf (udpStart buf + 8) (udpLen buf - 8) = .ok x := by
        rw [Cstruct.sub_returns_iff]
        exact ⟨fun ⟨hheader, hframe⟩ => by omega, fun hc => ⟨by omega, by omega⟩⟩
      rw [imp_iff_right hdatagram, hfits]
      cases hsub : Cstruct.sub buf (udpStart buf + 8) (udpLen buf - 8) with
      | error exn =>
        refine iff_of_false ?_ (fun ⟨_, hx⟩ => nomatch hx)
        rintro ⟨action, hrun, -⟩
        cases hrun
      | ok payload => exact iff_of_true ⟨_, rfl, Cstruct.sub_isInfix hsub⟩ ⟨_, rfl⟩
    · exact iff_of_true ⟨_, rfl, trivial⟩ fun hd => absurd ⟨hd.protocol, hd.header, hd.dstPort⟩ hudp
  · rw [ip, if_neg hlen]
    exact iff_of_true ⟨_, rfl, trivial⟩ fun hd => absurd hd.length hlen

/-- The handler survives every frame but a datagram whose length field does not fit. -/
theorem survives_iff (hostMac : Mac) (buf : Bytes) :
    Survives hostMac buf ↔ (IsDatagram buf → LengthFits buf) := by
  rcases Nat.lt_or_ge buf.length 14 with hshort | h
  · refine iff_of_true ⟨.ignore, ?_, trivial⟩ fun hd => ?_
    · rw [handle, handler, if_pos hshort]
      rfl
    · have := hd.length
      omega
  · by_cases harp : uint16At buf 12 = 0x0806
    · refine iff_of_true (survives_arp h harp) fun hd => ?_
      rw [hd.ethertype] at harp
      cases harp
    · by_cases hip : uint16At buf 12 = 0x0800
      · exact survives_ip h hip
      · rw [Survives, handle_eq hostMac h, if_neg harp, if_neg hip]
        exact iff_of_true ⟨_, rfl, trivial⟩ fun hd => absurd hd.ethertype hip

def zeroLength : Bytes :=
  List.replicate 12 0 ++ [0x08, 0x00, 0x45] ++ List.replicate 8 0 ++ [17] ++ List.replicate 10 0 ++
    [0x04, 0xD2, 0x1F, 0x90] ++ List.replicate 4 0

/-- The payload of that datagram would be a view of length minus eight. -/
theorem not_survives_zeroLength : ¬ ∀ (hostMac : Mac) (buf : Bytes), Survives hostMac buf := by
  intro h
  obtain ⟨action, hrun, -⟩ := h broadcastMac zeroLength
  have hraises : (handle broadcastMac zeroLength).1 =
      .error (.invalidArgument "Cstruct.sub") := by decide
  rw [hraises] at hrun
  cases hrun

end OCamlStudy.Mirage.NetAdapter
