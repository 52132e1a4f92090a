import OCamlStudy.NanoOs.Stack
import OCamlStudy.Program.Run

/-! # Two stacks and the packets between them

One stack sends to another over a network that delivers only packets that were
written. Each packet carries the call of `send` that it goes back to, and the
system keeps what the callback of the receiver was given and when packets
reached it; neither is read by a stack. An address is the number of its port.
-/

namespace OCamlStudy.NanoOs

open OCaml Program

structure Datagram where
  dst : ℤ
  packet : Bytes
  origin : ℕ

structure Callback where
  origin : ℕ
  srcPort : ℤ
  payload : Bytes

structure System where
  sender : Stack
  receiver : Stack
  sends : List Stack.Sending
  inFlight : List Datagram
  /-- The last time the receiver has read. -/
  clock : ℤ
  callbacks : List Callback
  arrivals : List (ℕ × ℤ)

namespace System

inductive Event where
  | send (msgStr : Bytes)
  | written (i : ℕ) (result : Except Net.Error Unit)
  | acked (i : ℕ)
  | timeout (i : ℕ)
  /-- A packet arrives; a copy may stay in the network. -/
  | deliver (k : ℕ) (keep : Bool) (nowNs : ℤ)

def datagrams (origin : ℕ) (actions : List Stack.Action) : List Datagram :=
  actions.filterMap fun
    | .write dst packet => some ⟨dst, packet, origin⟩
    | _ => none

def handed (origin : ℕ) (actions : List Stack.Action) : List Callback :=
  actions.filterMap fun
    | .callback srcPort payload => some ⟨origin, srcPort, payload⟩
    | _ => none

def wake (sends : List Stack.Sending) (actions : List Stack.Action) : List Stack.Sending :=
  actions.foldl (fun sends action =>
    match action with
    | .wakeup waiter => sends.modify waiter fun call => { call with woken := true }
    | _ => sends) sends

def step (s : System) : Event → Option System
  | .send msgStr =>
    match s.sender.send s.sends.length s.receiver.myPort msgStr with
    | .error _ => none
    | .ok (t, call, actions) => some { s with
        sender := t
        sends := s.sends ++ [call]
        inFlight := s.inFlight ++ datagrams s.sends.length actions }
  | .written i result => do
    let call ← s.sends[i]?
    match call.phase with
    | .writing =>
      let (t, call) := s.sender.written call result
      some { s with sender := t, sends := s.sends.set i call }
    | _ => none
  | .acked i => do
    let call ← s.sends[i]?
    match call.phase, call.woken with
    | .waiting, true =>
      let (t, call) := s.sender.acked call
      some { s with sender := t, sends := s.sends.set i call }
    | _, _ => none
  | .timeout i => do
    let call ← s.sends[i]?
    match call.phase with
    | .waiting =>
      let (t, call, actions) := s.sender.timeout call
      some { s with
        sender := t
        sends := s.sends.set i call
        inFlight := s.inFlight ++ datagrams i actions }
    | _ => none
  | .deliver k keep nowNs => do
    let d ← s.inFlight[k]?
    let rest := if keep then s.inFlight else s.inFlight.eraseIdx k
    if d.dst = s.receiver.myPort then
      if nowNs < s.clock then none
      else
        match s.receiver.listen nowNs d.packet with
        | .error _ => none
        | .ok (t, actions) => some { s with
            receiver := t
            inFlight := rest ++ datagrams d.origin actions
            clock := nowNs
            callbacks := s.callbacks ++ handed d.origin actions
            arrivals := s.arrivals ++ [(d.origin, nowNs)] }
    else if d.dst = s.sender.myPort then
      match s.sender.listen nowNs d.packet with
      | .error _ => none
      | .ok (t, actions) => some { s with
          sender := t
          sends := wake s.sends actions
          inFlight := rest ++ datagrams d.origin actions }
    else some { s with inFlight := rest }

section Deliver

variable {s : System} {k : ℕ} {nowNs : ℤ} {d : Datagram} {t : Stack} {actions : List Stack.Action}

theorem step_deliver_receiver (keep : Bool) (hd : s.inFlight[k]? = some d)
    (hdst : d.dst = s.receiver.myPort) (hnow : s.clock ≤ nowNs)
    (hlisten : s.receiver.listen nowNs d.packet = .ok (t, actions)) :
    s.step (.deliver k keep nowNs) = some { s with
      receiver := t
      inFlight := (if keep then s.inFlight else s.inFlight.eraseIdx k) ++ datagrams d.origin actions
      clock := nowNs
      callbacks := s.callbacks ++ handed d.origin actions
      arrivals := s.arrivals ++ [(d.origin, nowNs)] } := by
  simp [step, hd, hdst, not_lt.mpr hnow, hlisten]

theorem step_deliver_sender (keep : Bool) (hd : s.inFlight[k]? = some d)
    (hdst : d.dst = s.sender.myPort) (hne : d.dst ≠ s.receiver.myPort)
    (hlisten : s.sender.listen nowNs d.packet = .ok (t, actions)) :
    s.step (.deliver k keep nowNs) = some { s with
      sender := t
      sends := wake s.sends actions
      inFlight := (if keep then s.inFlight else s.inFlight.eraseIdx k) ++
        datagrams d.origin actions } := by
  rw [hdst] at hne
  simp [step, hd, hdst, hne, hlisten]

end Deliver

/-- Two different ports. -/
structure Wired (s : System) : Prop where
  sender : 0 ≤ s.sender.myPort ∧ s.sender.myPort < 0x10000
  receiver : 0 ≤ s.receiver.myPort ∧ s.receiver.myPort < 0x10000
  distinct : s.sender.myPort ≠ s.receiver.myPort

/-- Before the first `send`: no call waits and no packet is in the network. -/
structure Initial (s : System) : Prop where
  nextSeq : 0 ≤ s.sender.nextSeq ∧ s.sender.nextSeq < 256
  pendingAcks : s.sender.pendingAcks = ∅
  sends : s.sends = []
  inFlight : s.inFlight = []
  callbacks : s.callbacks = []
  arrivals : s.arrivals = []

def message (s : System) (i : ℕ) : Option Stack.Message := s.sends[i]?.map Stack.Sending.msg

/-- The port that the packets of the sender carry. -/
def srcPort (s : System) : ℤ := s.sender.myPort % 0x10000

def Handed (s : System) (i : ℕ) : Prop := ∃ c ∈ s.callbacks, c.origin = i

/-- A message that can be read has been handed over. -/
def Heard (s : System) (i : ℕ) : Prop :=
  ∃ m, s.message i = some m ∧ (m.payload.length < 0x10000 → s.Handed i)

/-- A call that has returned `Ok`. -/
def Acked (s : System) (i : ℕ) : Prop :=
  ∃ call, s.sends[i]? = some call ∧ call.phase = .returned (.ok ())

/-- A packet is the message of its call, or an ack of it once it was handed over. -/
def Genuine (s : System) (d : Datagram) : Prop :=
  ∃ m, s.message d.origin = some m ∧
    ((d.dst = m.dst ∧ d.packet = m.packet) ∨
      (d.dst = s.srcPort ∧ d.packet = Packet.wire .ack 0 m.seq s.receiver.myPort [] ∧
        s.Handed d.origin))

structure Sound (s : System) (m : Stack.Message) : Prop where
  seq : 0 ≤ m.seq ∧ m.seq < 256
  dst : m.dst = s.receiver.myPort
  packet : m.packet = Packet.wire .data m.seq 0 s.sender.myPort m.payload

structure Linked (s : System) : Prop where
  nextSeq : 0 ≤ s.sender.nextSeq ∧ s.sender.nextSeq < 256
  message : ∀ i m, s.message i = some m → s.Sound m
  genuine : ∀ d ∈ s.inFlight, s.Genuine d
  pending : ∀ seq i, s.sender.pendingAcks.lookup seq = some i →
    ∃ m, s.message i = some m ∧ m.seq = seq
  callback : ∀ c ∈ s.callbacks, ∃ m, s.message c.origin = some m ∧ c.payload = m.payload ∧
    c.srcPort = s.srcPort
  woken : ∀ (i : ℕ) (call : Stack.Sending), s.sends[i]? = some call → call.woken = true → s.Handed i
  returned : ∀ (i : ℕ) (call : Stack.Sending), s.sends[i]? = some call →
    call.phase = .returned (.ok ()) → call.woken = true

/-- The effect of an event where every packet is genuine. -/
inductive Effect (s : System) : Event → System → Prop where
  | send (msgStr : Bytes) (m : Stack.Message) (call : Stack.Sending) (t : Stack)
      (hm : s.Sound m) (hseq : m.seq = s.sender.nextSeq) (hcall : call.msg = m)
      (hphase : call.phase = .writing) (hwoken : call.woken = false)
      (hport : t.myPort = s.sender.myPort) (hnext : t.nextSeq = (s.sender.nextSeq + 1) % 256)
      (hpending : t.pendingAcks = (s.sender.pendingAcks.erase m.seq).insert m.seq s.sends.length) :
      Effect s (.send msgStr) { s with
        sender := t
        sends := s.sends ++ [call]
        inFlight := s.inFlight ++ [⟨m.dst, m.packet, s.sends.length⟩] }
  | resume (e : Event) (i : ℕ) (call call' : Stack.Sending) (t : Stack) (sent : List Datagram)
      (hcall : s.sends[i]? = some call) (hmsg : call'.msg = call.msg)
      (hwoken : call'.woken = call.woken)
      (hreturned : call'.phase = .returned (.ok ()) → call.woken = true)
      (hport : t.myPort = s.sender.myPort) (hnext : t.nextSeq = s.sender.nextSeq)
      (hpending : ∀ seq i, t.pendingAcks.lookup seq = some i →
        s.sender.pendingAcks.lookup seq = some i)
      (hsent : ∀ d ∈ sent, d = ⟨call.msg.dst, call.msg.packet, i⟩)
      (hcleanup : ∀ result, call'.phase = .returned result →
        t.pendingAcks.lookup call.msg.seq = none) :
      Effect s e { s with
        sender := t, sends := s.sends.set i call', inFlight := s.inFlight ++ sent }
  | fresh (k : ℕ) (keep : Bool) (nowNs : ℤ) (d : Datagram) (m : Stack.Message)
      (rest : List Datagram) (hd : s.inFlight[k]? = some d) (hrest : rest ⊆ s.inFlight)
      (hm : s.message d.origin = some m) (hnow : s.clock ≤ nowNs)
      (hlive : ¬ s.receiver.Live nowNs (s.srcPort, m.seq)) (hdst : d.dst = s.receiver.myPort) :
      Effect s (.deliver k keep nowNs) { s with
        receiver := s.receiver.note nowNs (s.srcPort, m.seq)
        inFlight := rest ++ [⟨s.srcPort, Packet.wire .ack 0 m.seq s.receiver.myPort [], d.origin⟩]
        clock := nowNs
        callbacks := s.callbacks ++ [⟨d.origin, s.srcPort, m.payload⟩]
        arrivals := s.arrivals ++ [(d.origin, nowNs)] }
  | duplicate (k : ℕ) (keep : Bool) (nowNs : ℤ) (d : Datagram) (m : Stack.Message)
      (rest : List Datagram) (hd : s.inFlight[k]? = some d) (hrest : rest ⊆ s.inFlight)
      (hm : s.message d.origin = some m) (hnow : s.clock ≤ nowNs)
      (hlive : s.receiver.Live nowNs (s.srcPort, m.seq)) (hdst : d.dst = s.receiver.myPort)
      (hpacket : Packet.decode d.packet =
        .ok (.ok ⟨Packet.version, .data, m.seq, 0, s.srcPort, m.payload⟩)) :
      Effect s (.deliver k keep nowNs) { s with
        receiver := s.receiver.pruneSeen nowNs
        inFlight := rest ++ [⟨s.srcPort, Packet.wire .ack 0 m.seq s.receiver.myPort [], d.origin⟩]
        clock := nowNs
        arrivals := s.arrivals ++ [(d.origin, nowNs)] }
  | wakeup (k : ℕ) (keep : Bool) (nowNs : ℤ) (d : Datagram) (m : Stack.Message) (i : ℕ)
      (rest : List Datagram) (hd : s.inFlight[k]? = some d) (hrest : rest ⊆ s.inFlight)
      (hm : s.message d.origin = some m) (hhanded : s.Handed d.origin)
      (hpending : s.sender.pendingAcks.lookup m.seq = some i) (hdst : d.dst = s.sender.myPort)
      (hdst' : d.dst ≠ s.receiver.myPort)
      (hpacket : Packet.decode d.packet =
        .ok (.ok ⟨Packet.version, .ack, 0, m.seq, s.receiver.myPort % 0x10000, []⟩)) :
      Effect s (.deliver k keep nowNs) { s with
        sender := { s.sender with pendingAcks := s.sender.pendingAcks.erase m.seq }
        sends := s.sends.modify i fun call => { call with woken := true }
        inFlight := rest }
  | ignored (k : ℕ) (keep : Bool) (nowNs : ℤ) (t : Stack) (rest : List Datagram) (clock : ℤ)
      (arrivals : List (ℕ × ℤ)) (hrest : rest ⊆ s.inFlight)
      (hport : t.myPort = s.receiver.myPort) (hconfig : t.config = s.receiver.config)
      (hseen : t.seenData = s.receiver.seenData) (hclock : s.clock ≤ clock)
      (harrivals : ∀ a ∈ arrivals, a.2 = clock) (hheard : ∀ a ∈ arrivals, s.Heard a.1) :
      Effect s (.deliver k keep nowNs) { s with
        receiver := t, inFlight := rest, clock := clock, arrivals := s.arrivals ++ arrivals }

variable {s s' : System} {e : Event}

theorem lookup_of_erase {κ ν : Type} [DecidableEq κ] {table : Hashtbl κ ν} {key k : κ} {v : ν}
    (h : (table.erase k).lookup key = some v) : table.lookup key = some v := by
  by_cases hk : key = k
  · subst hk
    simp at h
  · rwa [AList.lookup_erase_ne hk] at h

theorem Linked.send (hl : Linked s) {msgStr : Bytes} (h : s.step (.send msgStr) = some s') :
    Effect s (.send msgStr) s' := by
  simp only [step, Stack.send_eq, Option.some.injEq] at h
  subst h
  refine .send msgStr _ _ _ ⟨hl.nextSeq, rfl, rfl⟩ rfl rfl rfl rfl rfl rfl rfl

theorem step_written {i : ℕ} {result : Except Net.Error Unit}
    (h : s.step (.written i result) = some s') : Effect s (.written i result) s' := by
  obtain ⟨call, hcall, h⟩ := Option.bind_eq_some_iff.mp h
  split at h
  · rename_i hphase
    cases result with
    | error e =>
      obtain rfl := Option.some.inj h
      have := Effect.resume (s := s) (.written i (.error e)) i call
        { call with phase := .returned (.error e) } (s.sender.cleanupPending call.msg.seq) []
        hcall rfl rfl (by simp) rfl rfl
        (fun seq w => lookup_of_erase) (by simp) (fun _ _ => AList.lookup_erase _ _)
      simpa using this
    | ok =>
      obtain rfl := Option.some.inj h
      have := Effect.resume (s := s) (.written i (.ok ())) i call { call with phase := .waiting }
        s.sender [] hcall rfl rfl (by simp) rfl rfl (fun _ _ => id) (by simp) nofun
      simpa using this
  · cases h

theorem step_acked {i : ℕ} (h : s.step (.acked i) = some s') : Effect s (.acked i) s' := by
  obtain ⟨call, hcall, h⟩ := Option.bind_eq_some_iff.mp h
  split at h
  · rename_i hphase hwoken
    obtain rfl := Option.some.inj h
    have := Effect.resume (s := s) (.acked i) i call { call with phase := .returned (.ok ()) }
      (s.sender.cleanupPending call.msg.seq) [] hcall rfl rfl (fun _ => hwoken) rfl rfl
      (fun seq w => lookup_of_erase) (by simp) (fun _ _ => AList.lookup_erase _ _)
    simpa using this
  · cases h

theorem step_timeout {i : ℕ} (h : s.step (.timeout i) = some s') : Effect s (.timeout i) s' := by
  obtain ⟨call, hcall, h⟩ := Option.bind_eq_some_iff.mp h
  split at h
  · simp only [Stack.timeout] at h
    split_ifs at h with hattempt
    · obtain rfl := Option.some.inj h
      exact .resume _ i call _ (s.sender.cleanupPending call.msg.seq) [] hcall rfl rfl (by simp)
        rfl rfl (fun seq w => lookup_of_erase) (by simp) (fun _ _ => AList.lookup_erase _ _)
    · obtain rfl := Option.some.inj h
      exact .resume _ i call _ s.sender [⟨call.msg.dst, call.msg.packet, i⟩] hcall rfl rfl
        (by simp) rfl rfl (fun _ _ => id) (by simp) nofun
  · cases h

theorem listen_ack_silent (t : Stack) (nowNs : ℤ) (origin : ℕ) {rawPacket : Bytes}
    {packet : Packet.T} (h : Packet.decode rawPacket = .ok (.ok packet)) (hk : packet.kind = .ack) :
    ∃ t' actions, t.listen nowNs rawPacket = .ok (t', actions) ∧ t'.myPort = t.myPort ∧
      t'.config = t.config ∧ t'.seenData = t.seenData ∧ datagrams origin actions = [] ∧
      handed origin actions = [] := by
  cases hp : t.pendingAcks.lookup packet.ack with
  | none => exact ⟨_, _, Stack.listen_ack_none nowNs h hk hp, rfl, rfl, rfl, rfl, rfl⟩
  | some waiter => exact ⟨_, _, Stack.listen_ack_some nowNs h hk hp, rfl, rfl, rfl, rfl, rfl⟩

theorem Linked.deliver (hl : Linked s) {k : ℕ} {keep : Bool} {nowNs : ℤ}
    (h : s.step (.deliver k keep nowNs) = some s') : Effect s (.deliver k keep nowNs) s' := by
  obtain ⟨d, hd, h⟩ := Option.bind_eq_some_iff.mp h
  dsimp only at h
  have hrest : (if keep then s.inFlight else s.inFlight.eraseIdx k) ⊆ s.inFlight := by
    cases keep
    · exact List.eraseIdx_subset
    · exact List.Subset.refl _
  generalize (if keep then s.inFlight else s.inFlight.eraseIdx k) = rest at h hrest
  obtain ⟨m, hm, ⟨hdst, hpacket⟩ | ⟨hdst, hpacket, hhanded⟩⟩ :=
    hl.genuine d (List.mem_of_getElem? hd)
  · obtain ⟨hseq, hmdst, hmpacket⟩ := hl.message _ _ hm
    have hdec := Packet.decode_wire .data s.sender.myPort m.payload hseq
      (show (0 : ℤ) ≤ 0 ∧ (0 : ℤ) < 256 by decide)
    rw [← hmpacket, ← hpacket] at hdec
    rw [if_pos (hdst.trans hmdst)] at h
    split_ifs at h hdec with hnow hlen
    · by_cases hlive : s.receiver.Live nowNs (s.srcPort, m.seq)
      · rw [Stack.listen_data_live hdec rfl hlive] at h
        obtain rfl := Option.some.inj h
        have := Effect.duplicate k keep nowNs d m rest hd hrest hm (not_lt.mp hnow) hlive
          (hdst.trans hmdst) hdec
        simpa [datagrams, handed, srcPort] using this
      · rw [Stack.listen_data_fresh hdec rfl hlive] at h
        obtain rfl := Option.some.inj h
        exact .fresh k keep nowNs d m rest hd hrest hm (not_lt.mp hnow) hlive (hdst.trans hmdst)
    · rw [Stack.listen_error hdec] at h
      obtain rfl := Option.some.inj h
      have hheard : s.Heard d.origin := ⟨m, hm, fun hlt => absurd hlt hlen⟩
      have := Effect.ignored k keep nowNs s.receiver rest nowNs [(d.origin, nowNs)] hrest rfl rfl
        rfl (not_lt.mp hnow) (by simp) (by simpa using hheard)
      simpa [datagrams, handed] using this
  · obtain ⟨hseq, -, -⟩ := hl.message _ _ hm
    have hdec := Packet.decode_wire .ack s.receiver.myPort []
      (show (0 : ℤ) ≤ 0 ∧ (0 : ℤ) < 256 by decide) hseq
    rw [← hpacket, if_pos (by decide)] at hdec
    split_ifs at h with hreceiver hnow hsender
    · obtain ⟨t, actions, hlisten, hport, hconfig, hseen, hsent, hcalls⟩ :=
        listen_ack_silent s.receiver nowNs d.origin hdec rfl
      rw [hlisten] at h
      obtain rfl := Option.some.inj h
      have hheard : s.Heard d.origin := ⟨m, hm, fun _ => hhanded⟩
      have := Effect.ignored k keep nowNs t rest nowNs [(d.origin, nowNs)] hrest hport hconfig
        hseen (not_lt.mp hnow) (by simp) (by simpa using hheard)
      simpa [hsent, hcalls] using this
    · cases hp : s.sender.pendingAcks.lookup m.seq with
      | none =>
        rw [Stack.listen_ack_none _ hdec rfl hp] at h
        obtain rfl := Option.some.inj h
        have := Effect.ignored k keep nowNs s.receiver rest s.clock [] hrest rfl rfl rfl le_rfl
          (by simp) (by simp)
        simpa [datagrams, wake] using this
      | some i =>
        rw [Stack.listen_ack_some _ hdec rfl hp] at h
        obtain rfl := Option.some.inj h
        have := Effect.wakeup k keep nowNs d m i rest hd hrest hm hhanded hp hsender hreceiver hdec
        simpa [datagrams, wake] using this
    · obtain rfl := Option.some.inj h
      have := Effect.ignored k keep nowNs s.receiver rest s.clock [] hrest rfl rfl rfl le_rfl
        (by simp) (by simp)
      simpa using this

theorem Linked.effect (hl : Linked s) (h : s.step e = some s') : Effect s e s' := by
  cases e with
  | send => exact hl.send h
  | written => exact step_written h
  | acked => exact step_acked h
  | timeout => exact step_timeout h
  | deliver => exact hl.deliver h

/-- A message is not taken for a duplicate before it is handed over. -/
def NotMistaken (s : System) (d : Datagram) (nowNs : ℤ) : Prop :=
  d.dst = s.receiver.myPort → ∀ packet : Packet.T, Packet.decode d.packet = .ok (.ok packet) →
    packet.kind = .data → s.receiver.Live nowNs (packet.srcPort, packet.seq) → s.Handed d.origin

/-- An ack wakes only the call whose message it acknowledges. -/
def WakesOwn (s : System) (d : Datagram) : Prop :=
  d.dst = s.sender.myPort → d.dst ≠ s.receiver.myPort → ∀ packet : Packet.T,
    Packet.decode d.packet = .ok (.ok packet) → packet.kind = .ack →
      ∀ i, s.sender.pendingAcks.lookup packet.ack = some i → i = d.origin

/-- No sequence number is taken for that of another message. -/
def Distinguishes (s : System) : Event → Prop
  | .deliver k _ nowNs => ∀ d, s.inFlight[k]? = some d → s.NotMistaken d nowNs ∧ s.WakesOwn d
  | _ => True

/-- What only grows during a run. -/
structure Extends (s s' : System) : Prop where
  sender : s'.sender.myPort = s.sender.myPort
  receiver : s'.receiver.myPort = s.receiver.myPort
  message : ∀ i m, s.message i = some m → s'.message i = some m
  callbacks : s.callbacks ⊆ s'.callbacks

theorem Extends.handed (hx : Extends s s') {i : ℕ} (h : s.Handed i) : s'.Handed i := by
  obtain ⟨c, hc, hi⟩ := h
  exact ⟨c, hx.callbacks hc, hi⟩

theorem Extends.srcPort (hx : Extends s s') : s'.srcPort = s.srcPort := by
  rw [System.srcPort, hx.sender, System.srcPort]

theorem Extends.genuine (hx : Extends s s') {d : Datagram} (h : s.Genuine d) : s'.Genuine d := by
  obtain ⟨m, hm, hdata | ⟨hdst, hpacket, hhanded⟩⟩ := h
  · exact ⟨m, hx.message _ _ hm, .inl hdata⟩
  · refine ⟨m, hx.message _ _ hm, .inr ⟨hdst.trans hx.srcPort.symm, ?_, hx.handed hhanded⟩⟩
    rwa [hx.receiver]

theorem Extends.sound (hx : Extends s s') {m : Stack.Message} (h : s.Sound m) : s'.Sound m := by
  obtain ⟨hseq, hdst, hpacket⟩ := h
  exact ⟨hseq, hdst.trans hx.receiver.symm, by rw [hpacket, hx.sender]⟩

theorem getElem?_modify_eq_some {α : Type} {l : List α} {f : α → α} {b : α} {i j : ℕ}
    (h : (l.modify i f)[j]? = some b) :
    (j = i ∧ ∃ a, l[j]? = some a ∧ b = f a) ∨ l[j]? = some b := by
  rw [List.getElem?_modify] at h
  obtain ⟨a, ha, hb⟩ := Option.map_eq_some_iff.mp h
  split_ifs at hb with hi
  · exact .inl ⟨hi.symm, a, ha, hb.symm⟩
  · exact .inr (ha.trans (congrArg some hb))

theorem message_def (s : System) (i : ℕ) :
    s.message i = (s.sends.map Stack.Sending.msg)[i]? := by
  rw [message, List.getElem?_map]

theorem map_set_msg {i : ℕ} {call call' : Stack.Sending} {sends : List Stack.Sending}
    (hcall : sends[i]? = some call) (hmsg : call'.msg = call.msg) :
    (sends.set i call').map Stack.Sending.msg = sends.map Stack.Sending.msg := by
  apply List.ext_getElem?
  intro j
  rw [List.getElem?_map, List.getElem?_map, List.getElem?_set]
  split_ifs with hj hlt
  · rw [← hj, hcall, Option.map_some, Option.map_some, hmsg]
  · rw [← hj, List.getElem?_eq_none (not_lt.mp hlt)]
  · rfl

theorem map_wake_msg (i : ℕ) (sends : List Stack.Sending) :
    (sends.modify i fun call => { call with woken := true }).map Stack.Sending.msg =
      sends.map Stack.Sending.msg := by
  apply List.ext_getElem?
  intro j
  rw [List.getElem?_map, List.getElem?_map, List.getElem?_modify]
  cases sends[j]? with
  | none => simp
  | some call => by_cases hj : i = j <;> simp [hj]

theorem Effect.message (h : Effect s e s') :
    (∀ i, s'.message i = s.message i) ∨ ∃ m, s.Sound m ∧ ∀ i, s'.message i =
      if i = s.sends.length then some m else s.message i := by
  cases h with
  | send msgStr m call t hm hseq hcall =>
    right
    refine ⟨m, hm, fun i => ?_⟩
    split_ifs with hi
    · simp [System.message, hi, hcall]
    · rcases Nat.lt_or_gt_of_ne hi with hlt | hgt
      · simp [System.message, List.getElem?_append_left hlt]
      · simp [System.message, List.getElem?_eq_none (show s.sends.length ≤ i by omega),
          List.getElem?_eq_none (show (s.sends ++ [call]).length ≤ i by simp; omega)]
  | resume e i call call' t sent hcall hmsg =>
    left
    intro j
    rw [message_def, map_set_msg hcall hmsg, message_def]
  | wakeup k keep nowNs d m i =>
    left
    intro j
    rw [message_def, map_wake_msg, message_def]
  | fresh | duplicate | ignored =>
    left
    intro j
    rfl

theorem message_length (s : System) : s.message s.sends.length = none := by
  simp [message]

theorem Effect.extends (h : Effect s e s') : Extends s s' := by
  have hmessage : ∀ i m, s.message i = some m → s'.message i = some m := by
    intro i m hm
    rcases h.message with heq | ⟨m', -, heq⟩
    · rw [heq, hm]
    · rw [heq, if_neg, hm]
      rintro rfl
      rw [message_length] at hm
      cases hm
  cases h with
  | send _ _ _ _ _ _ _ _ _ hport => exact ⟨hport, rfl, hmessage, List.Subset.refl _⟩
  | resume _ _ _ _ _ _ _ _ _ _ hport => exact ⟨hport, rfl, hmessage, List.Subset.refl _⟩
  | fresh => exact ⟨rfl, Stack.pruneSeen_myPort, hmessage, List.subset_append_left _ _⟩
  | duplicate => exact ⟨rfl, Stack.pruneSeen_myPort, hmessage, List.Subset.refl _⟩
  | wakeup => exact ⟨rfl, rfl, hmessage, List.Subset.refl _⟩
  | ignored _ _ _ _ _ _ _ _ hport => exact ⟨rfl, hport, hmessage, List.Subset.refl _⟩

theorem Effect.sound (hl : Linked s) (h : Effect s e s') {i : ℕ} {m : Stack.Message}
    (hm : s'.message i = some m) : s'.Sound m := by
  apply h.extends.sound
  rcases h.message with heq | ⟨m', hm', heq⟩
  · exact hl.message i m (heq i ▸ hm)
  · rw [heq] at hm
    split_ifs at hm
    · exact Option.some.inj hm ▸ hm'
    · exact hl.message i m hm

theorem Effect.genuine_old (hl : Linked s) (h : Effect s e s') {d : Datagram} {l : List Datagram}
    (hl' : l ⊆ s.inFlight) (hd : d ∈ l) : s'.Genuine d :=
  h.extends.genuine (hl.genuine d (hl' hd))

theorem Effect.callback_old (hl : Linked s) (h : Effect s e s') {c : Callback}
    (hc : c ∈ s.callbacks) : ∃ m, s'.message c.origin = some m ∧ c.payload = m.payload ∧
      c.srcPort = s'.srcPort := by
  obtain ⟨m, hm, hpayload, hport⟩ := hl.callback c hc
  exact ⟨m, h.extends.message _ _ hm, hpayload, hport.trans h.extends.srcPort.symm⟩

theorem Effect.pending_old (hl : Linked s) (h : Effect s e s') {seq : ℤ} {i : ℕ}
    (hp : s.sender.pendingAcks.lookup seq = some i) : ∃ m, s'.message i = some m ∧ m.seq = seq := by
  obtain ⟨m, hm, hseq⟩ := hl.pending seq i hp
  exact ⟨m, h.extends.message _ _ hm, hseq⟩

/-- An ack that the receiver writes goes back to a message that was handed over. -/
theorem Effect.genuine_ack (h : Effect s e s') {i : ℕ} {m : Stack.Message}
    (hm : s.message i = some m) (hh : s'.Handed i) :
    s'.Genuine ⟨s.srcPort, Packet.wire .ack 0 m.seq s.receiver.myPort [], i⟩ :=
  ⟨m, h.extends.message _ _ hm, .inr ⟨h.extends.srcPort.symm, by rw [h.extends.receiver], hh⟩⟩

theorem Effect.nextSeq (hl : Linked s) (h : Effect s e s') :
    0 ≤ s'.sender.nextSeq ∧ s'.sender.nextSeq < 256 := by
  cases h with
  | send _ _ _ _ _ _ _ _ _ _ hnext =>
    dsimp only
    omega
  | resume _ _ _ _ _ _ _ _ _ _ _ hnext =>
    dsimp only
    rw [hnext]
    exact hl.nextSeq
  | fresh | duplicate | wakeup | ignored => exact hl.nextSeq

theorem Effect.genuine (hl : Linked s) (hd : s.Distinguishes e) (h : Effect s e s') :
    ∀ d ∈ s'.inFlight, s'.Genuine d := by
  have hx := h.extends
  have hold := fun d l => h.genuine_old hl (d := d) (l := l)
  have hack := fun i m => h.genuine_ack (i := i) (m := m)
  cases h with
  | send _ m call _ _ _ hcall =>
    rintro d hmem
    rcases List.mem_append.mp hmem with hin | hnew
    · exact hold d _ (List.Subset.refl _) hin
    · obtain rfl := List.mem_singleton.mp hnew
      exact ⟨m, by simp [System.message, hcall], .inl ⟨rfl, rfl⟩⟩
  | resume _ _ call _ _ _ hcall _ _ _ _ _ _ hsent =>
    rintro d hmem
    rcases List.mem_append.mp hmem with hin | hnew
    · exact hold d _ (List.Subset.refl _) hin
    · rw [hsent d hnew]
      exact ⟨call.msg, hx.message _ _ (by simp [System.message, hcall]), .inl ⟨rfl, rfl⟩⟩
  | fresh _ _ _ d' m rest _ hrest hm =>
    rintro d hmem
    rcases List.mem_append.mp hmem with hin | hnew
    · exact hold d rest hrest hin
    · obtain rfl := List.mem_singleton.mp hnew
      exact hack _ m hm ⟨_, List.mem_append_right _ List.mem_cons_self, rfl⟩
  | duplicate _ _ _ d' m rest hd' hrest hm _ hlive hdst hpacket =>
    have hhanded : s.Handed d'.origin := (hd d' hd').1 hdst _ hpacket rfl hlive
    rintro d hmem
    rcases List.mem_append.mp hmem with hin | hnew
    · exact hold d rest hrest hin
    · obtain rfl := List.mem_singleton.mp hnew
      exact hack _ m hm (hx.handed hhanded)
  | wakeup _ _ _ _ _ _ rest _ hrest => exact fun d => hold d rest hrest
  | ignored _ _ _ _ rest _ _ hrest => exact fun d => hold d rest hrest

theorem Effect.pending (hl : Linked s) (h : Effect s e s') (seq : ℤ) (i : ℕ)
    (hlookup : s'.sender.pendingAcks.lookup seq = some i) :
    ∃ m, s'.message i = some m ∧ m.seq = seq := by
  have hold := fun seq i (hp : s.sender.pendingAcks.lookup seq = some i) => h.pending_old hl hp
  cases h with
  | send _ m call _ _ _ hcall _ _ _ _ hpend =>
    rw [hpend] at hlookup
    by_cases hs : seq = m.seq
    · rw [hs, AList.lookup_insert, Option.some.injEq] at hlookup
      subst hlookup
      exact ⟨m, by simp [System.message, hcall], hs.symm⟩
    · rw [AList.lookup_insert_ne hs] at hlookup
      exact hold seq i (lookup_of_erase hlookup)
  | resume _ _ _ _ _ _ _ _ _ _ _ _ hpend => exact hold seq i (hpend seq i hlookup)
  | wakeup => exact hold seq i (lookup_of_erase hlookup)
  | fresh | duplicate | ignored => exact hold seq i hlookup

theorem Effect.callback (hl : Linked s) (h : Effect s e s') :
    ∀ c ∈ s'.callbacks, ∃ m, s'.message c.origin = some m ∧ c.payload = m.payload ∧
      c.srcPort = s'.srcPort := by
  have hold := fun c => h.callback_old hl (c := c)
  cases h with
  | fresh _ _ _ _ m _ _ _ hm =>
    rintro c hc
    rcases List.mem_append.mp hc with hin | hnew
    · exact hold c hin
    · obtain rfl := List.mem_singleton.mp hnew
      exact ⟨m, hm, rfl, rfl⟩
  | send | resume | duplicate | wakeup | ignored => exact hold

theorem Effect.woken (hl : Linked s) (hd : s.Distinguishes e) (h : Effect s e s') (i : ℕ)
    (call : Stack.Sending) (hcall : s'.sends[i]? = some call) (hwoken : call.woken = true) :
    s'.Handed i := by
  apply h.extends.handed
  cases h with
  | send _ _ _ _ _ _ _ _ hnew =>
    rcases getElem?_concat_eq_some hcall with hold | ⟨-, rfl⟩
    · exact hl.woken i call hold hwoken
    · rw [hnew] at hwoken
      cases hwoken
  | resume _ _ old _ _ _ hold _ hsame =>
    rcases getElem?_set_eq_some hcall with ⟨rfl, rfl⟩ | hcall
    · exact hl.woken _ old hold (hsame ▸ hwoken)
    · exact hl.woken i call hcall hwoken
  | wakeup _ _ _ d _ i' _ hd' _ _ hhanded hpend hdst hdst' hpacket =>
    -- the ack wakes the call that it was written for
    obtain rfl : i' = d.origin := (hd d hd').2 hdst hdst' _ hpacket rfl i' hpend
    rcases getElem?_modify_eq_some hcall with ⟨rfl, -⟩ | hold
    · exact hhanded
    · exact hl.woken i call hold hwoken
  | fresh | duplicate | ignored => exact hl.woken i call hcall hwoken

theorem Effect.returned (hl : Linked s) (h : Effect s e s') (i : ℕ) (call : Stack.Sending)
    (hcall : s'.sends[i]? = some call) (hphase : call.phase = .returned (.ok ())) :
    call.woken = true := by
  cases h with
  | send _ _ _ _ _ _ _ hnew =>
    rcases getElem?_concat_eq_some hcall with hold | ⟨-, rfl⟩
    · exact hl.returned i call hold hphase
    · rw [hnew] at hphase
      cases hphase
  | resume _ _ _ _ _ _ _ _ hsame hreturned =>
    rcases getElem?_set_eq_some hcall with ⟨rfl, rfl⟩ | hold
    · rw [hsame]
      exact hreturned hphase
    · exact hl.returned i call hold hphase
  | wakeup =>
    rcases getElem?_modify_eq_some hcall with ⟨rfl, old, -, rfl⟩ | hold
    · rfl
    · exact hl.returned i call hold hphase
  | fresh | duplicate | ignored => exact hl.returned i call hcall hphase

theorem Effect.linked (hl : Linked s) (hd : s.Distinguishes e) (h : Effect s e s') : Linked s' where
  nextSeq := h.nextSeq hl
  message _ _ := h.sound hl
  genuine := h.genuine hl hd
  pending := h.pending hl
  callback := h.callback hl
  woken := h.woken hl hd
  returned := h.returned hl

theorem Initial.linked (h : Initial s) : Linked s where
  nextSeq := h.nextSeq
  message i m hm := by simp [message, h.sends] at hm
  genuine d hd := by simp [h.inFlight] at hd
  pending seq i hp := by simp [h.pendingAcks] at hp
  callback c hc := by simp [h.callbacks] at hc
  woken i call hcall := by simp [h.sends] at hcall
  returned i call hcall := by simp [h.sends] at hcall

/-- A call that returned `Ok` has had its message handed over. -/
theorem Linked.acked (hl : Linked s) {i : ℕ} (h : s.Acked i) : ∃ m, s.message i = some m ∧
    ∃ c ∈ s.callbacks, c.origin = i ∧ c.payload = m.payload ∧ c.srcPort = s.srcPort := by
  obtain ⟨call, hcall, hphase⟩ := h
  obtain ⟨c, hc, rfl⟩ := hl.woken i call hcall (hl.returned i call hcall hphase)
  obtain ⟨m, hm, hpayload, hport⟩ := hl.callback c hc
  exact ⟨m, hm, c, hc, rfl, hpayload, hport⟩

theorem Linked.decode (hl : Linked s) {d : Datagram} (hd : d ∈ s.inFlight) {packet : Packet.T}
    (hdec : Packet.decode d.packet = .ok (.ok packet)) : ∃ m, s.message d.origin = some m ∧
      ((packet.kind = .data ∧ packet.seq = m.seq ∧ packet.srcPort = s.srcPort ∧
          d.dst = s.receiver.myPort ∧ m.payload.length < 0x10000) ∨
        (packet.kind = .ack ∧ packet.ack = m.seq ∧ d.dst = s.srcPort ∧ s.Handed d.origin)) := by
  obtain ⟨m, hm, ⟨hdst, hpacket⟩ | ⟨hdst, hpacket, hhanded⟩⟩ := hl.genuine d hd
  · obtain ⟨hseq, hmdst, hmpacket⟩ := hl.message _ _ hm
    rw [hpacket, hmpacket, Packet.decode_wire _ _ _ hseq (by decide)] at hdec
    split_ifs at hdec with hlen
    · cases hdec
      exact ⟨m, hm, .inl ⟨rfl, rfl, rfl, hdst.trans hmdst, hlen⟩⟩
    · cases hdec
  · obtain ⟨hseq, -, -⟩ := hl.message _ _ hm
    rw [hpacket, Packet.decode_wire _ _ _ (by decide) hseq, if_pos (by decide)] at hdec
    cases hdec
    exact ⟨m, hm, .inr ⟨rfl, rfl, hdst, hhanded⟩⟩

end System

end OCamlStudy.NanoOs
