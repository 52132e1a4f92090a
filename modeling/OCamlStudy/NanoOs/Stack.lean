import OCamlStudy.NanoOs.Packet
import OCamlStudy.OCaml.Decimal

/-! # The transport

A stack retransmits each message until an ack wakes the call that sends it, and
hands a message to its listener unless the table of messages seen within the
window holds its port and sequence number. The sleep between two attempts is a
float computation; here a timeout can come at any time. Each `send` is named by
its position among the calls.
-/

namespace OCamlStudy.NanoOs

open OCaml

namespace Net

inductive Error where
  | disconnected
  | unknown (msg : Bytes)
  deriving DecidableEq, Repr

end Net

/-- The dedupe window is in nanoseconds, an `int64` as `dedupe_window_ns` returns it. -/
structure Stack.Config where
  maxRetries : ℤ
  dedupeWindowNs : ℤ
  window_bounds : -2 ^ 63 ≤ dedupeWindowNs ∧ dedupeWindowNs < 2 ^ 63

def Stack.defaultConfig : Stack.Config where
  maxRetries := 5
  dedupeWindowNs := 30000000000
  window_bounds := by decide

/-- Every `add` to `pendingAcks` follows a `remove` of its key, so a key has one binding. -/
structure Stack where
  config : Stack.Config
  myPort : ℤ
  nextSeq : ℤ
  pendingAcks : Hashtbl ℤ ℕ
  seenData : Hashtbl (ℤ × ℤ) ℤ

namespace Stack

def create (config : Config) (nextSeq myPort : ℤ) : Stack where
  config := config
  myPort := myPort
  nextSeq := nextSeq
  pendingAcks := ∅
  seenData := ∅

/-- What a stack does besides changing its tables. -/
inductive Action where
  | write (dst : ℤ) (packet : Bytes)
  | wakeup (waiter : ℕ)
  | callback (srcPort : ℤ) (payload : Bytes)

structure Message where
  seq : ℤ
  payload : Bytes
  dst : ℤ
  packet : Bytes
  deriving DecidableEq

inductive Phase where
  /-- Inside `N.write`. -/
  | writing
  /-- Inside `Lwt.pick`. -/
  | waiting
  | returned (result : Except Net.Error Unit)

/-- A call of `send`; it is woken once its waiter is resolved. -/
structure Sending where
  msg : Message
  attempt : ℤ
  phase : Phase
  woken : Bool

/-- The start of `send`, up to the first `N.write`. -/
def send (t : Stack) (waiter : ℕ) (dstPort : ℤ) (msgStr : Bytes) :
    Raises (Stack × Sending × List Action) := do
  let seq := t.nextSeq
  let packet ← Packet.encodeData seq t.myPort msgStr
  return ({ t with
      nextSeq := (seq + 1) % 256
      pendingAcks := (t.pendingAcks.erase seq).insert seq waiter },
    { msg := { seq, payload := msgStr, dst := dstPort, packet }
      attempt := 0
      phase := .writing
      woken := false },
    [.write dstPort packet])

def cleanupPending (t : Stack) (seq : ℤ) : Stack :=
  { t with pendingAcks := t.pendingAcks.erase seq }

def written (t : Stack) (call : Sending) : Except Net.Error Unit → Stack × Sending
  | .error e =>
    (t.cleanupPending call.msg.seq, { call with phase := .returned (.error e) })
  | .ok () => (t, { call with phase := .waiting })

def acked (t : Stack) (call : Sending) : Stack × Sending :=
  (t.cleanupPending call.msg.seq, { call with phase := .returned (.ok ()) })

def ackTimeout (seq attempt : ℤ) : Net.Error :=
  .unknown (bytes "ACK timeout for seq=" ++ stringOfInt seq ++ bytes " after " ++
    stringOfInt (attempt + 1) ++ bytes " attempts")

def timeout (t : Stack) (call : Sending) : Stack × Sending × List Action :=
  if call.attempt ≥ t.config.maxRetries then
    (t.cleanupPending call.msg.seq,
      { call with phase := .returned (.error (ackTimeout call.msg.seq call.attempt)) }, [])
  else
    (t, { call with attempt := call.attempt + 1, phase := .writing },
      [.write call.msg.dst call.msg.packet])

def pruneSeen (t : Stack) (nowNs : ℤ) : Stack :=
  let window := t.config.dedupeWindowNs
  if window ≤ 0 then { t with seenData := ∅ }
  else
    let staleKeys := t.seenData.entries.filterMap fun seen =>
      if wrap64 (nowNs - seen.2) > window then some seen.1 else none
    { t with seenData := staleKeys.foldl (fun table key => table.erase key) t.seenData }

/-- The listener on one packet, at a time of its clock. -/
def listen (t : Stack) (nowNs : ℤ) (rawPacket : Bytes) : Raises (Stack × List Action) := do
  match ← Packet.decode rawPacket with
  | .error _ => return (t, [])
  | .ok packet =>
    match packet.kind with
    | .ack =>
      match t.pendingAcks.lookup packet.ack with
      | some wakener =>
        return ({ t with pendingAcks := t.pendingAcks.erase packet.ack }, [.wakeup wakener])
      | none => return (t, [])
    | .data =>
      let ackBuf ← Packet.encodeAck packet.seq t.myPort
      let t := t.pruneSeen nowNs
      let dedupeKey := (packet.srcPort, packet.seq)
      match t.seenData.lookup dedupeKey with
      | some seenAt =>
        if wrap64 (nowNs - seenAt) ≤ t.config.dedupeWindowNs then
          return (t, [.write packet.srcPort ackBuf])
        else
          return ({ t with seenData := t.seenData.insert dedupeKey nowNs },
            [.write packet.srcPort ackBuf, .callback packet.srcPort packet.payload])
      | none =>
        return ({ t with seenData := t.seenData.insert dedupeKey nowNs },
          [.write packet.srcPort ackBuf, .callback packet.srcPort packet.payload])

section Table

variable {κ ν : Type} [DecidableEq κ]

theorem lookup_foldl_erase (key : κ) (keys : List κ) (table : Hashtbl κ ν) :
    (keys.foldl (fun table key => table.erase key) table).lookup key =
      if key ∈ keys then none else table.lookup key := by
  induction keys generalizing table with
  | nil => simp
  | cons k keys ih =>
    rw [List.foldl_cons, ih]
    by_cases h : key = k
    · subst h
      simp
    · simp [h, AList.lookup_erase_ne h]

end Table

/-- A message seen within the window. -/
def Live (t : Stack) (nowNs : ℤ) (key : ℤ × ℤ) : Prop :=
  0 < t.config.dedupeWindowNs ∧
    ∃ seenAt, t.seenData.lookup key = some seenAt ∧
      wrap64 (nowNs - seenAt) ≤ t.config.dedupeWindowNs

variable {t : Stack} {nowNs : ℤ}

@[simp]
theorem pruneSeen_config : (t.pruneSeen nowNs).config = t.config := by
  unfold pruneSeen
  dsimp only
  split <;> rfl

@[simp]
theorem pruneSeen_pendingAcks : (t.pruneSeen nowNs).pendingAcks = t.pendingAcks := by
  unfold pruneSeen
  dsimp only
  split <;> rfl

@[simp]
theorem pruneSeen_myPort : (t.pruneSeen nowNs).myPort = t.myPort := by
  unfold pruneSeen
  dsimp only
  split <;> rfl

@[simp]
theorem pruneSeen_nextSeq : (t.pruneSeen nowNs).nextSeq = t.nextSeq := by
  unfold pruneSeen
  dsimp only
  split <;> rfl

theorem lookup_pruneSeen {key : ℤ × ℤ} {seenAt : ℤ} :
    (t.pruneSeen nowNs).seenData.lookup key = some seenAt ↔
      0 < t.config.dedupeWindowNs ∧ t.seenData.lookup key = some seenAt ∧
        wrap64 (nowNs - seenAt) ≤ t.config.dedupeWindowNs := by
  unfold pruneSeen
  dsimp only
  split_ifs with hw
  · simp [hw]
  · rw [lookup_foldl_erase]
    have hstale : key ∈ t.seenData.entries.filterMap (fun seen =>
        if wrap64 (nowNs - seen.2) > t.config.dedupeWindowNs then some seen.1 else none) ↔
          ∃ old, t.seenData.lookup key = some old ∧
            t.config.dedupeWindowNs < wrap64 (nowNs - old) := by
      simp only [List.mem_filterMap, Option.ite_none_right_eq_some, Option.some.injEq]
      constructor
      · rintro ⟨⟨k, old⟩, hmem, hlt, rfl⟩
        exact ⟨old, AList.mem_lookup_iff.mpr hmem, hlt⟩
      · rintro ⟨old, hold, hlt⟩
        exact ⟨⟨key, old⟩, AList.mem_lookup_iff.mp hold, hlt, rfl⟩
    split_ifs with hmem
    · obtain ⟨old, hold, hlt⟩ := hstale.mp hmem
      simp only [false_iff, not_and, not_le]
      rintro - hseen
      obtain rfl : old = seenAt := Option.some.inj (hold.symm.trans hseen)
      exact hlt
    · rw [hstale, not_exists] at hmem
      constructor
      · intro hseen
        exact ⟨by omega, hseen, not_lt.mp fun hlt => hmem seenAt ⟨hseen, hlt⟩⟩
      · rintro ⟨-, hseen, -⟩
        exact hseen

def note (t : Stack) (nowNs : ℤ) (key : ℤ × ℤ) : Stack :=
  { t.pruneSeen nowNs with seenData := (t.pruneSeen nowNs).seenData.insert key nowNs }

theorem send_eq (t : Stack) (waiter : ℕ) (dstPort : ℤ) (msgStr : Bytes) :
    t.send waiter dstPort msgStr = .ok
      ({ t with
          nextSeq := (t.nextSeq + 1) % 256
          pendingAcks := (t.pendingAcks.erase t.nextSeq).insert t.nextSeq waiter },
        { msg := ⟨t.nextSeq, msgStr, dstPort, Packet.wire .data t.nextSeq 0 t.myPort msgStr⟩
          attempt := 0
          phase := .writing
          woken := false },
        [.write dstPort (Packet.wire .data t.nextSeq 0 t.myPort msgStr)]) := by
  rw [send, Packet.encodeData, Packet.encode_eq, Raises.ok_bind]
  rfl

theorem listen_error {rawPacket : Bytes} {e : Packet.DecodeError}
    (h : Packet.decode rawPacket = .ok (.error e)) : t.listen nowNs rawPacket = .ok (t, []) := by
  rw [listen, h]
  rfl

section Ack

variable {rawPacket : Bytes} {packet : Packet.T}

theorem listen_ack_none (nowNs : ℤ) (h : Packet.decode rawPacket = .ok (.ok packet))
    (hk : packet.kind = .ack)
    (hp : t.pendingAcks.lookup packet.ack = none) : t.listen nowNs rawPacket = .ok (t, []) := by
  rw [listen, h, Raises.ok_bind]
  simp only [hk, hp]
  rfl

theorem listen_ack_some (nowNs : ℤ) {waiter : ℕ} (h : Packet.decode rawPacket = .ok (.ok packet))
    (hk : packet.kind = .ack) (hp : t.pendingAcks.lookup packet.ack = some waiter) :
    t.listen nowNs rawPacket =
      .ok ({ t with pendingAcks := t.pendingAcks.erase packet.ack }, [.wakeup waiter]) := by
  rw [listen, h, Raises.ok_bind]
  simp only [hk, hp]
  rfl

theorem listen_data_live (h : Packet.decode rawPacket = .ok (.ok packet)) (hk : packet.kind = .data)
    (hl : t.Live nowNs (packet.srcPort, packet.seq)) :
    t.listen nowNs rawPacket = .ok (t.pruneSeen nowNs,
      [.write packet.srcPort (Packet.wire .ack 0 packet.seq t.myPort [])]) := by
  obtain ⟨hw, seenAt, hseen, hle⟩ := hl
  rw [listen, h, Raises.ok_bind]
  simp only [hk]
  rw [Packet.encodeAck, Packet.encode_eq, Raises.ok_bind,
    lookup_pruneSeen.mpr ⟨hw, hseen, hle⟩]
  simp only [pruneSeen_config]
  rw [if_pos hle]
  rfl

theorem listen_data_fresh (h : Packet.decode rawPacket = .ok (.ok packet))
    (hk : packet.kind = .data) (hl : ¬ t.Live nowNs (packet.srcPort, packet.seq)) :
    t.listen nowNs rawPacket = .ok (t.note nowNs (packet.srcPort, packet.seq),
      [.write packet.srcPort (Packet.wire .ack 0 packet.seq t.myPort []),
        .callback packet.srcPort packet.payload]) := by
  have hnone : (t.pruneSeen nowNs).seenData.lookup (packet.srcPort, packet.seq) = none := by
    rw [Option.eq_none_iff_forall_ne_some]
    intro seenAt hseen
    obtain ⟨hw, hseen, hle⟩ := lookup_pruneSeen.mp hseen
    exact hl ⟨hw, seenAt, hseen, hle⟩
  rw [listen, h, Raises.ok_bind]
  simp only [hk]
  rw [Packet.encodeAck, Packet.encode_eq, Raises.ok_bind, hnone]
  rfl

end Ack

end Stack

end OCamlStudy.NanoOs
