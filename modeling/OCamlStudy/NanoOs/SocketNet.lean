import OCamlStudy.NanoOs.PacketCodec
import OCamlStudy.NanoOs.Stack

/-! # The UDP backend

`listen` receives every datagram into a buffer of 4096 bytes and hands on what is
there, so of a longer datagram the rest is lost. A message of a stack arrives
whole exactly when its packet fits the buffer.
-/

namespace OCamlStudy.NanoOs

open OCaml

namespace SocketNet

def bufferLen : ℕ := 4096

/-- What `listen` hands to its callback for one datagram. -/
def listen (datagram : Bytes) : Bytes := datagram.take bufferLen

theorem listen_length_le (datagram : Bytes) : (listen datagram).length ≤ bufferLen :=
  List.length_take_le _ _

theorem listen_eq_self {datagram : Bytes} (h : datagram.length ≤ bufferLen) :
    listen datagram = datagram := List.take_of_length_le h

end SocketNet

/-- A payload that a stack over the UDP backend hands to its listener. -/
def Arrives (payload : Bytes) : Prop :=
  ∃ (t t' : Stack) (nowNs : ℤ) (datagram : Bytes) (actions : List Stack.Action) (srcPort : ℤ),
    t.listen nowNs (SocketNet.listen datagram) = .ok (t', actions) ∧
      .callback srcPort payload ∈ actions

/-- The packet that `send` writes fits the buffer of the peer, whose `decode` finds the message
in it. -/
def Received (t : Stack) (waiter : ℕ) (dstPort : ℤ) (msgStr : Bytes) : Prop :=
  ∃ t' call packet, t.send waiter dstPort msgStr = .ok (t', call, [.write dstPort packet]) ∧
    packet.length ≤ SocketNet.bufferLen ∧ SocketNet.listen packet = packet ∧
    ∃ r, Packet.decode (SocketNet.listen packet) = .ok (.ok r) ∧ r.kind = .data ∧ r.payload = msgStr

section Wire

variable {kind : Packet.Kind} {seq ack srcPort : ℤ} {payload : Bytes}

theorem Packet.wire_length :
    (Packet.wire kind seq ack srcPort payload).length = headerLen + payload.length := by
  simp [Packet.wire, Packet.fields, Packet.word16, Packet.headerLen]
  omega

theorem Packet.wire_seq_emod :
    Packet.wire kind (seq % 256) ack srcPort payload =
      Packet.wire kind seq ack srcPort payload := by
  have hbyte : Cstruct.byte (seq % 256) = Cstruct.byte seq := by
    rw [Cstruct.byte, Cstruct.byte, Int.emod_emod]
  simp only [Packet.wire, Packet.fields, hbyte]

theorem Packet.length_of_decode {b : Bytes} {p : Packet.T} (h : Packet.decode b = .ok (.ok p)) :
    b.length = headerLen + p.payload.length := by
  have hb := (Packet.encode_of_decode h).2
  rw [Packet.encode_eq] at hb
  rw [← Except.ok.inj hb, Packet.wire_length]

end Wire

theorem Stack.decode_of_callback {t t' : Stack} {nowNs srcPort : ℤ} {b payload : Bytes}
    {actions : List Stack.Action} (h : t.listen nowNs b = .ok (t', actions))
    (hm : .callback srcPort payload ∈ actions) :
    ∃ packet, Packet.decode b = .ok (.ok packet) ∧ packet.payload = payload := by
  cases hd : Packet.decode b with
  | error exn =>
    rw [Stack.listen, hd] at h
    cases h
  | ok res =>
    cases res with
    | error e =>
      rw [Stack.listen_error hd] at h
      cases h
      cases hm
    | ok packet =>
      refine ⟨packet, rfl, ?_⟩
      cases hk : packet.kind with
      | ack =>
        cases hp : t.pendingAcks.lookup packet.ack with
        | none =>
          rw [Stack.listen_ack_none nowNs hd hk hp] at h
          cases h
          cases hm
        | some waiter =>
          rw [Stack.listen_ack_some nowNs hd hk hp] at h
          cases h
          simp at hm
      | data =>
        by_cases hl : t.Live nowNs (packet.srcPort, packet.seq)
        · rw [Stack.listen_data_live hd hk hl] at h
          cases h
          simp at hm
        · rw [Stack.listen_data_fresh hd hk hl] at h
          cases h
          simp only [List.mem_cons, reduceCtorEq, Stack.Action.callback.injEq, List.not_mem_nil,
            or_false, false_or] at hm
          exact hm.2.symm

theorem arrives_iff {payload : Bytes} : Arrives payload ↔ payload.length ≤ 4086 := by
  constructor
  · rintro ⟨t, t', nowNs, datagram, actions, srcPort, hlisten, hm⟩
    obtain ⟨packet, hd, rfl⟩ := Stack.decode_of_callback hlisten hm
    have hlen := Packet.length_of_decode hd
    have hle := SocketNet.listen_length_le datagram
    rw [hlen, SocketNet.bufferLen, Packet.headerLen] at hle
    omega
  · intro hlen
    have hfits : (Packet.wire .data 0 0 0 payload).length ≤ SocketNet.bufferLen := by
      rw [Packet.wire_length, SocketNet.bufferLen, Packet.headerLen]
      omega
    have hd : Packet.decode (SocketNet.listen (Packet.wire .data 0 0 0 payload)) =
        .ok (.ok ⟨Packet.version, .data, 0, 0, 0, payload⟩) := by
      rw [SocketNet.listen_eq_self hfits, Packet.decode_wire _ _ _ (by decide) (by decide),
        if_pos (by omega)]
      rfl
    have hfresh : ¬ (Stack.create Stack.defaultConfig 0 0).Live 0 ((0 : ℤ), (0 : ℤ)) := by
      rintro ⟨_, seenAt, hseen, _⟩
      cases hseen
    refine ⟨_, _, _, _, _, 0, Stack.listen_data_fresh hd rfl hfresh, ?_⟩
    simp

/-- A message can be received exactly when it leaves room for the header. -/
theorem received_iff {t : Stack} {waiter : ℕ} {dstPort : ℤ} {msgStr : Bytes} :
    Received t waiter dstPort msgStr ↔ msgStr.length ≤ 4086 := by
  constructor
  · rintro ⟨t', call, packet, hsend, hlen, _, _⟩
    rw [Stack.send_eq] at hsend
    cases hsend
    rw [Packet.wire_length, SocketNet.bufferLen, Packet.headerLen] at hlen
    omega
  · intro hlen
    have hfits : (Packet.wire .data t.nextSeq 0 t.myPort msgStr).length ≤ SocketNet.bufferLen := by
      rw [Packet.wire_length, SocketNet.bufferLen, Packet.headerLen]
      omega
    refine ⟨_, _, _, Stack.send_eq t waiter dstPort msgStr, hfits, SocketNet.listen_eq_self hfits,
      ⟨Packet.version, .data, t.nextSeq % 256, 0, t.myPort % 0x10000, msgStr⟩, ?_, rfl, rfl⟩
    rw [SocketNet.listen_eq_self hfits, ← Packet.wire_seq_emod,
      Packet.decode_wire _ _ _ (by omega) (by decide), if_pos (by omega)]

end OCamlStudy.NanoOs
