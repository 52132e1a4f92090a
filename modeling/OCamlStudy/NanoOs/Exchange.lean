import OCamlStudy.NanoOs.Network

/-! # One message and its ack

A send whose only packet and its ack arrive at once, from a quiet network.
-/

namespace OCamlStudy.NanoOs

open OCaml Program

namespace System

/-- Every call has returned and the network is empty. -/
structure Quiet (s : System) : Prop where
  nextSeq : 0 ≤ s.sender.nextSeq ∧ s.sender.nextSeq < 256
  inFlight : s.inFlight = []
  returned : ∀ call ∈ s.sends, ∃ result, call.phase = .returned result

variable (s : System) (payload : Bytes)

def outgoing : Stack.Message where
  seq := s.sender.nextSeq
  payload := payload
  dst := s.receiver.myPort
  packet := Packet.wire .data s.sender.nextSeq 0 s.sender.myPort payload

def dataOut : Datagram := ⟨s.receiver.myPort, (s.outgoing payload).packet, s.sends.length⟩

def ackBack : Datagram :=
  ⟨s.srcPort, Packet.wire .ack 0 s.sender.nextSeq s.receiver.myPort [], s.sends.length⟩

/-- The sender while a call sends `payload`. -/
def calling (pendingAcks : Hashtbl ℤ ℕ) (phase : Stack.Phase) (woken : Bool) : System :=
  { s with
    sender := { s.sender with nextSeq := (s.sender.nextSeq + 1) % 256, pendingAcks }
    sends := s.sends ++ [⟨s.outgoing payload, 0, phase, woken⟩] }

def waiting : Hashtbl ℤ ℕ :=
  (s.sender.pendingAcks.erase s.sender.nextSeq).insert s.sender.nextSeq s.sends.length

def received (i : ℕ) (t : Stack) (nowNs : ℤ) (calls : List Stack.Action) : System :=
  { s with
    receiver := t
    clock := nowNs
    callbacks := s.callbacks ++ handed i calls
    arrivals := s.arrivals ++ [(i, nowNs)] }

def sent (phase : Stack.Phase) : System :=
  { s.calling payload s.waiting phase false with inFlight := [s.dataOut payload] }

def answered (t : Stack) (nowNs : ℤ) (calls : List Stack.Action) : System :=
  { (s.calling payload s.waiting .waiting false).received s.sends.length t nowNs calls with
    inFlight := [s.ackBack] }

def wakened (t : Stack) (nowNs : ℤ) (calls : List Stack.Action) : System :=
  (s.calling payload (s.waiting.erase s.sender.nextSeq) .waiting true).received s.sends.length t
    nowNs calls

def exchanged (t : Stack) (nowNs : ℤ) (calls : List Stack.Action) : System :=
  (s.calling payload ((s.waiting.erase s.sender.nextSeq).erase s.sender.nextSeq)
    (.returned (.ok ())) true).received s.sends.length t nowNs calls

variable {s payload} {t : Stack} {nowNs : ℤ} {calls : List Stack.Action}
  {ok : System → Event → Prop}

theorem decode_dataOut (hq : s.Quiet) (hlen : payload.length < 0x10000) :
    Packet.decode (s.dataOut payload).packet =
      .ok (.ok ⟨Packet.version, .data, s.sender.nextSeq, 0, s.srcPort, payload⟩) := by
  rw [dataOut, outgoing, Packet.decode_wire _ _ _ hq.nextSeq (by decide), if_pos hlen, srcPort]

theorem decode_ackBack (hq : s.Quiet) : Packet.decode s.ackBack.packet =
    .ok (.ok ⟨Packet.version, .ack, 0, s.sender.nextSeq, s.receiver.myPort % 0x10000, []⟩) := by
  rw [ackBack, Packet.decode_wire _ _ _ (by decide) hq.nextSeq, if_pos (by decide)]

theorem step_answered (hq : s.Quiet) (hw : s.Wired) (hport : t.myPort = s.receiver.myPort) :
    (s.answered payload t nowNs calls).step (.deliver 0 false nowNs) =
      some (s.wakened payload t nowNs calls) := by
  have hdst : s.ackBack.dst = s.sender.myPort := Int.emod_eq_of_lt hw.sender.1 hw.sender.2
  have hne : s.ackBack.dst ≠ (s.answered payload t nowNs calls).receiver.myPort := by
    rw [hdst]
    exact hport ▸ hw.distinct
  have hpending : (s.answered payload t nowNs calls).sender.pendingAcks.lookup s.sender.nextSeq =
      some s.sends.length := AList.lookup_insert _
  have hlisten := Stack.listen_ack_some nowNs (decode_ackBack hq) rfl hpending
  rw [step_deliver_sender (s := s.answered payload t nowNs calls) (k := 0) false
    (d := s.ackBack) rfl hdst hne hlisten]
  simp [answered, received, datagrams, wakened, calling, wake, hq.inFlight,
    List.modify_eq_take_drop]

theorem exchange (hq : s.Quiet) (hw : s.Wired) (hnow : s.clock ≤ nowNs)
    (hlisten : s.receiver.listen nowNs (s.outgoing payload).packet =
      .ok (t, .write s.ackBack.dst s.ackBack.packet :: calls))
    (hcalls : datagrams s.sends.length calls = []) (hport : t.myPort = s.receiver.myPort)
    (hsend : ok s (.send payload)) (hwritten : ∀ s i result, ok s (.written i result))
    (hdata : ok (s.sent payload .waiting) (.deliver 0 false nowNs))
    (hack : ok (s.answered payload t nowNs calls) (.deliver 0 false nowNs))
    (hacked : ∀ s i, ok s (.acked i)) :
    Reaches step ok s (s.exchanged payload t nowNs calls) := by
  have h1 : s.step (.send payload) = some (s.sent payload .writing) := by
    simp only [step, Stack.send_eq]
    simp [hq.inFlight, datagrams, sent, calling, waiting, dataOut, outgoing]
  have h2 : (s.sent payload .writing).step (.written s.sends.length (.ok ())) =
      some (s.sent payload .waiting) := by
    simp [step, calling, sent, Stack.written]
  have h3 : (s.sent payload .waiting).step (.deliver 0 false nowNs) =
      some (s.answered payload t nowNs calls) := by
    rw [step_deliver_receiver (s := s.sent payload .waiting) (k := 0) false
      (d := s.dataOut payload) rfl rfl hnow hlisten]
    simp only [datagrams] at hcalls
    simp [sent, answered, received, datagrams, handed, dataOut, ackBack, hcalls, calling]
  have h5 : (s.wakened payload t nowNs calls).step (.acked s.sends.length) =
      some (s.exchanged payload t nowNs calls) := by
    simp [step, calling, wakened, exchanged, received, Stack.acked, Stack.cleanupPending, outgoing]
  exact .head _ hsend h1 <| .head _ (hwritten _ _ _) h2 <| .head _ hdata h3 <|
    .head _ hack (step_answered hq hw hport) <| .head _ (hacked _ _) h5 <| .refl _

theorem exchange_fresh (payload : Bytes) (hq : s.Quiet) (hw : s.Wired) (hnow : s.clock ≤ nowNs)
    (hlen : payload.length < 0x10000)
    (hlive : ¬ s.receiver.Live nowNs (s.srcPort, s.sender.nextSeq))
    (hsend : ok s (.send payload)) (hwritten : ∀ s i result, ok s (.written i result))
    (hdata : ok (s.sent payload .waiting) (.deliver 0 false nowNs))
    (hack : ok (s.answered payload (s.receiver.note nowNs (s.srcPort, s.sender.nextSeq)) nowNs
      [.callback s.srcPort payload]) (.deliver 0 false nowNs))
    (hacked : ∀ s i, ok s (.acked i)) :
    Reaches step ok s (s.exchanged payload (s.receiver.note nowNs (s.srcPort, s.sender.nextSeq))
      nowNs [.callback s.srcPort payload]) :=
  exchange hq hw hnow (Stack.listen_data_fresh (decode_dataOut hq hlen) rfl hlive) rfl
    Stack.pruneSeen_myPort hsend hwritten hdata hack hacked

theorem exchange_live (payload : Bytes) (hq : s.Quiet) (hw : s.Wired) (hnow : s.clock ≤ nowNs)
    (hlen : payload.length < 0x10000)
    (hlive : s.receiver.Live nowNs (s.srcPort, s.sender.nextSeq))
    (hsend : ok s (.send payload)) (hwritten : ∀ s i result, ok s (.written i result))
    (hdata : ok (s.sent payload .waiting) (.deliver 0 false nowNs))
    (hack : ok (s.answered payload (s.receiver.pruneSeen nowNs) nowNs []) (.deliver 0 false nowNs))
    (hacked : ∀ s i, ok s (.acked i)) :
    Reaches step ok s (s.exchanged payload (s.receiver.pruneSeen nowNs) nowNs []) :=
  exchange hq hw hnow (Stack.listen_data_live (decode_dataOut hq hlen) rfl hlive) rfl
    Stack.pruneSeen_myPort hsend hwritten hdata hack hacked

theorem exchanged_acked (s : System) (payload : Bytes) (t : Stack) (nowNs : ℤ)
    (calls : List Stack.Action) : (s.exchanged payload t nowNs calls).Acked s.sends.length :=
  ⟨⟨s.outgoing payload, 0, .returned (.ok ()), true⟩, by simp [exchanged, received, calling], rfl⟩

theorem exchanged_quiet (hq : s.Quiet) : (s.exchanged payload t nowNs calls).Quiet where
  nextSeq := by
    simp only [exchanged, received, calling]
    omega
  inFlight := hq.inFlight
  returned call hcall := by
    rcases List.mem_append.mp hcall with hold | hnew
    · exact hq.returned call hold
    · exact ⟨.ok (), by rw [List.mem_singleton.mp hnew]⟩

/-- Two stacks on the ports 1 and 2 before the first `send`. -/
def start : System where
  sender := Stack.create Stack.defaultConfig 0 1
  receiver := Stack.create Stack.defaultConfig 0 2
  sends := []
  inFlight := []
  clock := 0
  callbacks := []
  arrivals := []

theorem start_initial : start.Initial := ⟨by decide, rfl, rfl, rfl, rfl, rfl⟩

theorem start_wired : start.Wired := ⟨by decide, by decide, by decide⟩

theorem start_quiet : start.Quiet := ⟨by decide, rfl, by simp [start]⟩

theorem start_not_live {nowNs : ℤ} {key : ℤ × ℤ} : ¬ start.receiver.Live nowNs key := by
  rintro ⟨-, seenAt, hseen, -⟩
  cases hseen

end System

end OCamlStudy.NanoOs
