import OCamlStudy.NanoOs.ExactlyOnce

/-! # Two stacks that both send and listen

The stack of the client and that of the server serve both directions. A step of
one direction leaves alone what the other relies on, so each direction is the
system of two stacks that is known already.
-/

namespace OCamlStudy.NanoOs

open OCaml Program

/-- What one direction keeps beside the two stacks. -/
structure Lane where
  sends : List Stack.Sending
  inFlight : List Datagram
  clock : ℤ
  callbacks : List Callback
  arrivals : List (ℕ × ℤ)

def Lane.empty (clock : ℤ) : Lane where
  sends := []
  inFlight := []
  clock := clock
  callbacks := []
  arrivals := []

def System.lane (s : System) : Lane where
  sends := s.sends
  inFlight := s.inFlight
  clock := s.clock
  callbacks := s.callbacks
  arrivals := s.arrivals

structure Duplex where
  client : Stack
  server : Stack
  requests : Lane
  responses : Lane

namespace Duplex

def up (d : Duplex) : System where
  sender := d.client
  receiver := d.server
  sends := d.requests.sends
  inFlight := d.requests.inFlight
  clock := d.requests.clock
  callbacks := d.requests.callbacks
  arrivals := d.requests.arrivals

def down (d : Duplex) : System where
  sender := d.server
  receiver := d.client
  sends := d.responses.sends
  inFlight := d.responses.inFlight
  clock := d.responses.clock
  callbacks := d.responses.callbacks
  arrivals := d.responses.arrivals

def setUp (d : Duplex) (s : System) : Duplex where
  client := s.sender
  server := s.receiver
  requests := s.lane
  responses := d.responses

def setDown (d : Duplex) (s : System) : Duplex where
  client := s.receiver
  server := s.sender
  requests := d.requests
  responses := s.lane

inductive Event where
  | up (e : System.Event)
  | down (e : System.Event)

def step (d : Duplex) : Event → Option Duplex
  | .up e => (d.up.step e).map d.setUp
  | .down e => (d.down.step e).map d.setDown

variable (d : Duplex) (s : System)

@[simp]
theorem up_setUp : (d.setUp s).up = s := rfl

@[simp]
theorem down_setDown : (d.setDown s).down = s := rfl

end Duplex

namespace Stack

variable {t t' : Stack} {nowNs : ℤ} {rawPacket : Bytes} {actions : List Action}

/-- Listening keeps everything but the two tables, and adds no waiting call. -/
structure Listened (t t' : Stack) : Prop where
  config : t'.config = t.config
  myPort : t'.myPort = t.myPort
  nextSeq : t'.nextSeq = t.nextSeq
  pendingAcks : ∀ seq i, t'.pendingAcks.lookup seq = some i → t.pendingAcks.lookup seq = some i

theorem Listened.refl (t : Stack) : Listened t t := ⟨rfl, rfl, rfl, fun _ _ => id⟩

theorem listened (h : t.listen nowNs rawPacket = .ok (t', actions)) : Listened t t' := by
  cases hdec : Packet.decode rawPacket with
  | error e =>
    rw [listen, hdec] at h
    cases h
  | ok res =>
    cases res with
    | error e =>
      rw [listen_error hdec] at h
      cases h
      exact .refl t
    | ok packet =>
      cases hkind : packet.kind with
      | ack =>
        cases hp : t.pendingAcks.lookup packet.ack with
        | none =>
          rw [listen_ack_none nowNs hdec hkind hp] at h
          cases h
          exact .refl t
        | some waiter =>
          rw [listen_ack_some nowNs hdec hkind hp] at h
          cases h
          exact ⟨rfl, rfl, rfl, fun seq i => System.lookup_of_erase⟩
      | data =>
        by_cases hlive : t.Live nowNs (packet.srcPort, packet.seq)
        · rw [listen_data_live hdec hkind hlive] at h
          cases h
          exact ⟨pruneSeen_config, pruneSeen_myPort, pruneSeen_nextSeq,
            fun seq i hi => by rwa [pruneSeen_pendingAcks] at hi⟩
        · rw [listen_data_fresh hdec hkind hlive] at h
          cases h
          exact ⟨pruneSeen_config, pruneSeen_myPort, pruneSeen_nextSeq,
            fun seq i hi => by rwa [note, pruneSeen_pendingAcks] at hi⟩

end Stack

namespace System

variable {s s' t : System} {e : Event} {first : ℤ}

/-- What a step leaves alone: of the sender what its own listener uses, and of the receiver what
its own calls use. -/
structure Aside (s s' : System) : Prop where
  receiver : Stack.Listened s.receiver s'.receiver
  myPort : s'.sender.myPort = s.sender.myPort
  config : s'.sender.config = s.sender.config
  seenData : s'.sender.seenData = s.sender.seenData

theorem Linked.listen_sender (hl : Linked s) (hw : s.Wired) {d : Datagram} (hd : d ∈ s.inFlight)
    (hdst : d.dst = s.sender.myPort) {nowNs : ℤ} {t : Stack} {actions : List Stack.Action}
    (h : s.sender.listen nowNs d.packet = .ok (t, actions)) :
    t.config = s.sender.config ∧ t.seenData = s.sender.seenData := by
  cases hdec : Packet.decode d.packet with
  | error e =>
    rw [Stack.listen, hdec] at h
    cases h
  | ok res =>
    cases res with
    | error e =>
      rw [Stack.listen_error hdec] at h
      cases h
      exact ⟨rfl, rfl⟩
    | ok packet =>
      obtain ⟨m, hm, ⟨-, -, -, hdst', -⟩ | ⟨hkind, -⟩⟩ := hl.decode hd hdec
      · exact absurd (hdst.symm.trans hdst') hw.distinct
      · obtain ⟨t', actions', hlisten, -, hconfig, hseen, -⟩ :=
          listen_ack_silent s.sender nowNs d.origin hdec hkind
        rw [h] at hlisten
        cases hlisten
        exact ⟨hconfig, hseen⟩

theorem Linked.aside (hl : Linked s) (hw : s.Wired) (h : s.step e = some s') : Aside s s' := by
  cases e with
  | send msgStr =>
    simp only [step, Stack.send_eq, Option.some.injEq] at h
    subst h
    exact ⟨.refl _, rfl, rfl, rfl⟩
  | written i result =>
    obtain ⟨call, hcall, h⟩ := Option.bind_eq_some_iff.mp h
    split at h
    · cases result <;> cases h <;> exact ⟨.refl _, rfl, rfl, rfl⟩
    · cases h
  | acked i =>
    obtain ⟨call, hcall, h⟩ := Option.bind_eq_some_iff.mp h
    split at h
    · cases h
      exact ⟨.refl _, rfl, rfl, rfl⟩
    · cases h
  | timeout i =>
    obtain ⟨call, hcall, h⟩ := Option.bind_eq_some_iff.mp h
    split at h
    · simp only [Stack.timeout] at h
      split_ifs at h <;> cases h <;> exact ⟨.refl _, rfl, rfl, rfl⟩
    · cases h
  | deliver k keep nowNs =>
    obtain ⟨d, hd, h⟩ := Option.bind_eq_some_iff.mp h
    dsimp only at h
    generalize (if keep then s.inFlight else s.inFlight.eraseIdx k) = rest at h
    split_ifs at h with hreceiver hnow hsender
    · cases hlisten : s.receiver.listen nowNs d.packet with
      | error exn =>
        rw [hlisten] at h
        cases h
      | ok res =>
        obtain ⟨t, actions⟩ := res
        rw [hlisten] at h
        cases h
        exact ⟨Stack.listened hlisten, rfl, rfl, rfl⟩
    · cases hlisten : s.sender.listen nowNs d.packet with
      | error exn =>
        rw [hlisten] at h
        cases h
      | ok res =>
        obtain ⟨t, actions⟩ := res
        rw [hlisten] at h
        cases h
        obtain ⟨hconfig, hseen⟩ := hl.listen_sender hw (List.mem_of_getElem? hd) hsender hlisten
        exact ⟨.refl _, (Stack.listened hlisten).myPort, hconfig, hseen⟩
    · cases h
      exact ⟨.refl _, rfl, rfl, rfl⟩

theorem Effect.callbacks_append (h : Effect s e s') : ∃ new, s'.callbacks = s.callbacks ++ new := by
  cases h with
  | fresh => exact ⟨_, rfl⟩
  | send | resume | duplicate | wakeup | ignored => exact ⟨[], (List.append_nil _).symm⟩

theorem step_send {msgStr : Bytes} (h : s.step (.send msgStr) = some s') :
    ∃ call, s'.sends = s.sends ++ [call] ∧ call.msg.payload = msgStr := by
  simp only [step, Stack.send_eq, Option.some.injEq] at h
  subst h
  exact ⟨_, rfl, rfl⟩

theorem Effect.msgs (h : Effect s e s') (hne : ∀ msgStr, e ≠ .send msgStr) :
    s'.sends.map Stack.Sending.msg = s.sends.map Stack.Sending.msg := by
  cases h with
  | send msgStr => exact absurd rfl (hne msgStr)
  | resume _ _ _ _ _ _ hcall hmsg => exact map_set_msg hcall hmsg
  | wakeup => exact map_wake_msg _ _
  | fresh | duplicate | ignored => rfl

/-- The stacks of a direction after a step of the other one. -/
structure Beside (s s' : System) : Prop where
  sender : Stack.Listened s.sender s'.sender
  myPort : s'.receiver.myPort = s.receiver.myPort
  config : s'.receiver.config = s.receiver.config
  seenData : s'.receiver.seenData = s.receiver.seenData
  lane : s'.lane = s.lane

section Beside

variable (hb : Beside s s')

include hb

theorem Beside.sends : s'.sends = s.sends := congrArg Lane.sends hb.lane

theorem Beside.inFlight : s'.inFlight = s.inFlight := congrArg Lane.inFlight hb.lane

theorem Beside.callbacks : s'.callbacks = s.callbacks := congrArg Lane.callbacks hb.lane

theorem Beside.arrivals : s'.arrivals = s.arrivals := congrArg Lane.arrivals hb.lane

theorem Beside.clock : s'.clock = s.clock := congrArg Lane.clock hb.lane

theorem Beside.message (i : ℕ) : s'.message i = s.message i := by
  rw [System.message, hb.sends, System.message]

theorem Beside.extends : Extends s s' where
  sender := hb.sender.myPort
  receiver := hb.myPort
  message i m hm := (hb.message i).trans hm
  callbacks := by rw [hb.callbacks]; exact List.Subset.refl _

theorem Beside.linked (hl : Linked s) : Linked s' where
  nextSeq := hb.sender.nextSeq ▸ hl.nextSeq
  message i m hm := hb.extends.sound (hl.message i m ((hb.message i).symm.trans hm))
  genuine d hd := hb.extends.genuine (hl.genuine d (hb.inFlight ▸ hd))
  pending seq i hi := by
    obtain ⟨m, hm, hseq⟩ := hl.pending seq i (hb.sender.pendingAcks seq i hi)
    exact ⟨m, (hb.message i).trans hm, hseq⟩
  callback c hc := by
    obtain ⟨m, hm, hpayload, hport⟩ := hl.callback c (hb.callbacks ▸ hc)
    exact ⟨m, (hb.message _).trans hm, hpayload, hport.trans hb.extends.srcPort.symm⟩
  woken i call hcall hwoken := hb.extends.handed (hl.woken i call (hb.sends ▸ hcall) hwoken)
  returned i call hcall := hl.returned i call (hb.sends ▸ hcall)

theorem Beside.unreused (hu : Unreused first s) : Unreused first s' := by
  refine hu.frame (hb.linked hu.linked) hb.extends ?_ ?_ ?_ hb.config hb.callbacks ?_ ?_ ?_ ?_
  · rw [hb.sender.nextSeq, hb.sends]
    exact hu.nextSeq
  · rw [hb.sends]
    exact hu.sends
  · intro i m hm
    exact hu.seq i m ((hb.message i).symm.trans hm)
  · intro key t ht
    rwa [hb.seenData] at ht
  · intro i hi
    rw [hb.seenData, hb.clock]
    exact hu.remembered i hi
  · rw [hb.arrivals]
    exact List.Subset.refl _
  · rw [hb.arrivals, hb.clock]
    exact hu.arrived

end Beside

/-- Only messages of calls have arrived. -/
def Recorded (s : System) : Prop := ∀ a ∈ s.arrivals, ∃ m, s.message a.1 = some m

theorem Beside.recorded (hb : Beside s s') (h : s.Recorded) : s'.Recorded := by
  intro a ha
  rw [hb.arrivals] at ha
  rw [hb.message]
  exact h a ha

theorem step_arrivals (h : s.step e = some s') :
    ∀ a ∈ s'.arrivals, a ∈ s.arrivals ∨ ∃ d ∈ s.inFlight, a.1 = d.origin := by
  cases e with
  | send msgStr =>
    simp only [step, Stack.send_eq, Option.some.injEq] at h
    subst h
    exact fun a => .inl
  | written i result =>
    obtain ⟨call, hcall, h⟩ := Option.bind_eq_some_iff.mp h
    split at h <;> cases h
    exact fun a => .inl
  | acked i =>
    obtain ⟨call, hcall, h⟩ := Option.bind_eq_some_iff.mp h
    split at h <;> cases h
    exact fun a => .inl
  | timeout i =>
    obtain ⟨call, hcall, h⟩ := Option.bind_eq_some_iff.mp h
    split at h <;> cases h
    exact fun a => .inl
  | deliver k keep nowNs =>
    obtain ⟨d, hd, h⟩ := Option.bind_eq_some_iff.mp h
    dsimp only at h
    generalize (if keep then s.inFlight else s.inFlight.eraseIdx k) = rest at h
    split_ifs at h
    · cases hlisten : s.receiver.listen nowNs d.packet with
      | error exn =>
        rw [hlisten] at h
        cases h
      | ok res =>
        rw [hlisten] at h
        cases h
        intro a ha
        rcases List.mem_append.mp ha with hold | hnew
        · exact .inl hold
        · exact .inr ⟨d, List.mem_of_getElem? hd, by rw [List.mem_singleton.mp hnew]⟩
    · cases hlisten : s.sender.listen nowNs d.packet with
      | error exn =>
        rw [hlisten] at h
        cases h
      | ok res =>
        rw [hlisten] at h
        cases h
        exact fun a => .inl
    · cases h
      exact fun a => .inl

theorem Recorded.step (hr : s.Recorded) (hl : Linked s) (h : s.step e = some s') : s'.Recorded := by
  have hx := (hl.effect h).extends
  intro a ha
  rcases step_arrivals h a ha with hold | ⟨d, hd, horigin⟩
  · obtain ⟨m, hm⟩ := hr a hold
    exact ⟨m, hx.message _ m hm⟩
  · obtain ⟨m, hm, -⟩ := hl.genuine d hd
    exact ⟨m, hx.message _ m (horigin ▸ hm)⟩

end System

namespace Duplex

variable {d d' : Duplex} {e : Event} {s : System} {first second : ℤ}

/-- A copy of a message arrives within the window of its first arrival, and the client calls at
most 256 times. -/
def WithinWindow (d : Duplex) : Event → Prop
  | .up e => d.up.WithinWindow e
  | .down e => d.down.WithinWindow e

instance (d : Duplex) (e : Event) : Decidable (d.WithinWindow e) :=
  match e with
  | .up e => inferInstanceAs (Decidable (d.up.WithinWindow e))
  | .down e => inferInstanceAs (Decidable (d.down.WithinWindow e))

/-- Both directions of a run whose first sequence numbers are `first` and `second`. -/
structure Unreused (first second : ℤ) (d : Duplex) : Prop where
  up : System.Unreused first d.up
  down : System.Unreused second d.down
  recorded : d.up.Recorded ∧ d.down.Recorded

theorem beside_setUp (h : System.Aside d.up s) : System.Beside d.down (d.setUp s).down :=
  ⟨h.receiver, h.myPort, h.config, h.seenData, rfl⟩

theorem beside_setDown (h : System.Aside d.down s) : System.Beside d.up (d.setDown s).up :=
  ⟨h.receiver, h.myPort, h.config, h.seenData, rfl⟩

theorem Unreused.step (hu : Unreused first second d) (hw : d.WithinWindow e)
    (h : d.step e = some d') : Unreused first second d' := by
  cases e with
  | up e =>
    obtain ⟨s, hs, rfl⟩ := Option.map_eq_some_iff.mp h
    have hbeside := beside_setUp (hu.up.linked.aside hu.up.wired hs)
    constructor
    · exact (hu.up.linked.effect hs).unreused hu.up hw
    · exact hbeside.unreused hu.down
    · exact ⟨hu.recorded.1.step hu.up.linked hs, hbeside.recorded hu.recorded.2⟩
  | down e =>
    obtain ⟨s, hs, rfl⟩ := Option.map_eq_some_iff.mp h
    have hbeside := beside_setDown (hu.down.linked.aside hu.down.wired hs)
    constructor
    · exact hbeside.unreused hu.up
    · exact (hu.down.linked.effect hs).unreused hu.down hw
    · exact ⟨hbeside.recorded hu.recorded.1, hu.recorded.2.step hu.down.linked hs⟩

theorem Unreused.callbacks_append (hu : Unreused first second d) (h : d.step e = some d') :
    ∃ new, d'.requests.callbacks = d.requests.callbacks ++ new := by
  cases e with
  | up e =>
    obtain ⟨s, hs, rfl⟩ := Option.map_eq_some_iff.mp h
    exact (hu.up.linked.effect hs).callbacks_append
  | down e =>
    obtain ⟨s, hs, rfl⟩ := Option.map_eq_some_iff.mp h
    exact ⟨[], (List.append_nil _).symm⟩

theorem Unreused.msgs (hu : Unreused first second d) (hne : ∀ msgStr, e ≠ .down (.send msgStr))
    (h : d.step e = some d') : d'.responses.sends.map Stack.Sending.msg =
      d.responses.sends.map Stack.Sending.msg := by
  cases e with
  | up e =>
    obtain ⟨s, hs, rfl⟩ := Option.map_eq_some_iff.mp h
    rfl
  | down e =>
    obtain ⟨s, hs, rfl⟩ := Option.map_eq_some_iff.mp h
    refine (hu.down.linked.effect hs).msgs fun msgStr he => hne msgStr ?_
    rw [he]

theorem Unreused.request_msgs (hu : Unreused first second d) (h : d.step e = some d') :
    d'.requests.sends.map Stack.Sending.msg = d.requests.sends.map Stack.Sending.msg ∨
      ∃ m : Stack.Message, e = .up (.send m.payload) ∧
        d'.requests.sends.map Stack.Sending.msg =
          d.requests.sends.map Stack.Sending.msg ++ [m] := by
  cases e with
  | down e =>
    obtain ⟨s, hs, rfl⟩ := Option.map_eq_some_iff.mp h
    exact .inl rfl
  | up e =>
    obtain ⟨s, hs, rfl⟩ := Option.map_eq_some_iff.mp h
    cases e with
    | send msgStr =>
      obtain ⟨call, hsends, rfl⟩ := System.step_send hs
      refine .inr ⟨call.msg, rfl, ?_⟩
      change s.sends.map Stack.Sending.msg = _
      rw [hsends, List.map_append]
      rfl
    | written | acked | timeout | deliver =>
      left
      apply (hu.up.linked.effect hs).msgs
      rintro msgStr ⟨⟩

theorem step_reply {reply : Bytes} (h : d.step (.down (.send reply)) = some d') :
    d'.requests = d.requests ∧ ∃ call, d'.responses.sends = d.responses.sends ++ [call] ∧
      call.msg.payload = reply := by
  obtain ⟨s, hs, rfl⟩ := Option.map_eq_some_iff.mp h
  exact ⟨rfl, System.step_send hs⟩

/-- Two stacks that were just created, on different ports. -/
structure Initial (d : Duplex) : Prop where
  client : d.client.pendingAcks = ∅ ∧ d.client.seenData = ∅
  server : d.server.pendingAcks = ∅ ∧ d.server.seenData = ∅
  nextSeq : (0 ≤ d.client.nextSeq ∧ d.client.nextSeq < 256) ∧
    0 ≤ d.server.nextSeq ∧ d.server.nextSeq < 256
  ports : (0 ≤ d.client.myPort ∧ d.client.myPort < 0x10000) ∧
    0 ≤ d.server.myPort ∧ d.server.myPort < 0x10000
  distinct : d.client.myPort ≠ d.server.myPort
  window : 0 < d.client.config.dedupeWindowNs ∧ 0 < d.server.config.dedupeWindowNs
  requests : d.requests = .empty d.requests.clock
  responses : d.responses = .empty d.responses.clock

theorem Initial.up (h : Initial d) : d.up.Initial where
  nextSeq := h.nextSeq.1
  pendingAcks := h.client.1
  sends := congrArg Lane.sends h.requests
  inFlight := congrArg Lane.inFlight h.requests
  callbacks := congrArg Lane.callbacks h.requests
  arrivals := congrArg Lane.arrivals h.requests

theorem Initial.down (h : Initial d) : d.down.Initial where
  nextSeq := h.nextSeq.2
  pendingAcks := h.server.1
  sends := congrArg Lane.sends h.responses
  inFlight := congrArg Lane.inFlight h.responses
  callbacks := congrArg Lane.callbacks h.responses
  arrivals := congrArg Lane.arrivals h.responses

theorem Initial.unreused (h : Initial d) :
    Unreused d.client.nextSeq d.server.nextSeq d where
  up := h.up.unreused h.server.2 ⟨h.ports.1, h.ports.2, h.distinct⟩ h.window.2
  down := h.down.unreused h.client.2 ⟨h.ports.2, h.ports.1, h.distinct.symm⟩ h.window.1
  recorded := by
    constructor
    · intro a ha
      rw [h.up.arrivals] at ha
      cases ha
    · intro a ha
      rw [h.down.arrivals] at ha
      cases ha

end Duplex

end OCamlStudy.NanoOs
