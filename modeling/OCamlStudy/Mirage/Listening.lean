import OCamlStudy.Mirage.Incoming
import OCamlStudy.Mirage.Outgoing

/-! # The adapter at work

The device hands in frames and the stack hands in payloads, in any order. The
driver calls the handler under `Lwt.async`, so the frame on which it raises ends
the machine; up to there what the adapter does is a function of what it was given.
-/

namespace OCamlStudy.Mirage.NetAdapter

open OCaml

open Cstruct (uint8At uint16At)

section Handler

variable {buf : Bytes} (hostMac : Mac)

instance : Decidable (IsRequest buf) :=
  decidable_of_iff (42 ≤ buf.length ∧ uint16At buf 12 = 0x0806 ∧ uint16At buf 20 = 1 ∧
      (buf.drop 38).take 4 = myIp)
    ⟨fun h => ⟨h.1, h.2.1, h.2.2.1, h.2.2.2⟩, fun h => ⟨h.1, h.2, h.3, h.4⟩⟩

instance : Decidable (IsDatagram buf) :=
  decidable_of_iff (34 ≤ buf.length ∧ uint16At buf 12 = 0x0800 ∧ uint8At buf 23 = 17 ∧
      udpStart buf + 8 ≤ buf.length ∧ uint16At buf (udpStart buf + 2) = 8080)
    ⟨fun h => ⟨h.1, h.2.1, h.2.2.1, h.2.2.2.1, h.2.2.2.2⟩, fun h => ⟨h.1, h.2, h.3, h.4, h.5⟩⟩

instance : Decidable (LengthFits buf) :=
  decidable_of_iff (8 ≤ udpLen buf ∧ udpStart buf + udpLen buf ≤ buf.length)
    ⟨fun h => ⟨h.1, h.2⟩, fun h => ⟨h.1, h.2⟩⟩

theorem IsRequest.source (h : IsRequest buf) : 12 ≤ buf.length := le_trans (by decide) h.length

theorem IsDatagram.source (h : IsDatagram buf) : 12 ≤ buf.length := le_trans (by decide) h.length

theorem IsRequest.not_isDatagram (h : IsRequest buf) : ¬ IsDatagram buf := by
  intro hd
  have hethertype := hd.ethertype
  rw [h.ethertype] at hethertype
  cases hethertype

def learned (hostMac mac : Mac) : Mac := if hostMac = broadcastMac then mac else hostMac

def payloadAt (buf : Bytes) : Bytes := (buf.drop (udpStart buf + 8)).take (udpLen buf - 8)

theorem handle_request (h : IsRequest buf) : handle hostMac buf =
    (.ok (.reply (replyImage (macAt buf h.source) ((buf.drop 28).take 4))),
      learned hostMac (macAt buf h.source)) := by
  rw [handle_eq hostMac (le_trans (by decide) h.length), if_pos h.ethertype, arp_eq h.length,
    if_pos ⟨h.opcode, h.targetIp⟩]
  rfl

theorem handle_ip (h : IsDatagram buf) : handle hostMac buf =
    ((Cstruct.sub buf (udpStart buf + 8) (udpLen buf - 8)).map Action.callback,
      learned hostMac (macAt buf h.source)) := by
  have hne : uint16At buf 12 ≠ 0x0806 := by
    rw [h.ethertype]
    decide
  rw [handle_eq hostMac (le_trans (by decide) h.length), if_neg hne, if_pos h.ethertype,
    ip_eq h.length, if_pos ⟨h.protocol, h.header, h.dstPort⟩]
  cases Cstruct.sub buf (udpStart buf + 8) (udpLen buf - 8) <;> rfl

theorem handle_datagram (h : IsDatagram buf) (hf : LengthFits buf) : handle hostMac buf =
    (.ok (.callback (payloadAt buf)), learned hostMac (macAt buf h.source)) := by
  have hsub : Cstruct.sub buf (udpStart buf + 8) (udpLen buf - 8) = .ok (payloadAt buf) := by
    have hheader := hf.header
    have hframe := hf.frame
    have hview := @Cstruct.sub_natCast buf (udpStart buf + 8) (udpLen buf - 8) (by omega)
    rw [Nat.cast_add, Nat.cast_sub hheader] at hview
    exact hview
  rw [handle_ip hostMac h, hsub]
  rfl

theorem handle_unfit (h : IsDatagram buf) (hf : ¬ LengthFits buf) :
    ∃ exn mac, handle hostMac buf = (.error exn, mac) := by
  rw [handle_ip hostMac h]
  cases hsub : Cstruct.sub buf (udpStart buf + 8) (udpLen buf - 8) with
  | error exn => exact ⟨exn, _, rfl⟩
  | ok x =>
    obtain ⟨-, hheader, hframe⟩ := Cstruct.sub_returns_iff.mp ⟨x, hsub⟩
    exact absurd ⟨by omega, by omega⟩ hf

theorem handle_ignored (hr : ¬ IsRequest buf) (hd : ¬ IsDatagram buf) :
    handle hostMac buf = (.ok .ignore, hostMac) := by
  rcases Nat.lt_or_ge buf.length 14 with hshort | h
  · rw [handle, handler, if_pos hshort]
    rfl
  rw [handle_eq hostMac h]
  split_ifs with harp hip
  · by_cases hlen : 42 ≤ buf.length
    · rw [arp_eq hlen, if_neg fun hc => hr ⟨hlen, harp, hc.1, hc.2⟩]
      rfl
    · rw [arp, if_neg hlen]
      rfl
  · by_cases hlen : 34 ≤ buf.length
    · rw [ip_eq hlen, if_neg fun hc => hd ⟨hlen, hip, hc.1, hc.2.1, hc.2.2⟩]
      rfl
    · rw [ip, if_neg hlen]
      rfl
  · rfl

end Handler

/-- What reaches the adapter: a frame from the device, or a payload to write. -/
inductive Event where
  | frame (buf : Bytes)
  | write (payload : Bytes)
  deriving DecidableEq, Repr

/-- The adapter, the frames that it gave to the device, and the payloads that it handed on. -/
structure Adapter where
  hostMac : Mac
  sent : List Bytes
  received : List Bytes

namespace Adapter

def start : Adapter := ⟨broadcastMac, [], []⟩

/-- One event; none where the handler raises. -/
def step (s : Adapter) : Event → Option Adapter
  | .frame buf =>
    match handle s.hostMac buf with
    | (.ok .ignore, hostMac) => some { s with hostMac }
    | (.ok (.reply frame), hostMac) => some { s with hostMac, sent := s.sent ++ [frame] }
    | (.ok (.callback payload), hostMac) =>
      some { s with hostMac, received := s.received ++ [payload] }
    | (.error _, _) => none
  | .write payload =>
    match NetAdapter.frame s.hostMac payload with
    | .ok frame => some { s with sent := s.sent ++ [frame] }
    | .error _ => none

end Adapter

namespace Event

/-- The handler raises. -/
def Fatal : Event → Prop
  | frame buf => IsDatagram buf ∧ ¬ LengthFits buf
  | write _ => False

def heard : Event → Option Mac
  | frame buf =>
    if h : IsRequest buf ∨ IsDatagram buf then
      some (macAt buf (h.elim IsRequest.source IsDatagram.source))
    else none
  | write _ => none

def payload : Event → Option Bytes
  | frame buf => if IsDatagram buf then some (payloadAt buf) else none
  | write _ => none

def Speaks : Event → Prop
  | frame buf => IsRequest buf
  | write _ => True

instance : DecidablePred Speaks
  | frame buf => inferInstanceAs (Decidable (IsRequest buf))
  | write _ => inferInstanceAs (Decidable True)

/-- The frame that the device is given: a reply to who asked, or the payload in a frame to port 1234
of the host, whoever it is for. -/
def Sends (hostMac : Mac) : Event → Bytes → Prop
  | frame buf, f =>
    ∃ h : IsRequest buf, f = replyImage (macAt buf h.source) ((buf.drop 28).take 4)
  | write payload, f => NetAdapter.frame hostMac payload = .ok f ∧ f.drop 42 = payload ∧
    (f.drop 30).take 4 = hostIp ∧ uint16At f 36 = 1234 ∧
    (28 + payload.length ≤ 65535 → ValidFrame hostMac payload f)

end Event

namespace Adapter

variable {s s' : Adapter} {e : Event}

/-- What an event does to the adapter. -/
structure Takes (s : Adapter) (e : Event) (s' : Adapter) : Prop where
  hostMac : s'.hostMac = (e.heard.map (learned s.hostMac)).getD s.hostMac
  received : s'.received = s.received ++ e.payload.toList
  sent : (e.Speaks ∧ ∃ f, e.Sends s.hostMac f ∧ s'.sent = s.sent ++ [f]) ∨
    (¬ e.Speaks ∧ s'.sent = s.sent)

theorem step_fatal (h : e.Fatal) : s.step e = none := by
  cases e with
  | frame buf =>
    obtain ⟨exn, mac, hhandle⟩ := handle_unfit s.hostMac h.1 h.2
    rw [step, hhandle]
  | write payload => exact h.elim

theorem step_frame {buf : Bytes} (h : ¬ (Event.frame buf).Fatal) :
    ∃ s', s.step (.frame buf) = some s' ∧ s.Takes (.frame buf) s' := by
  by_cases hr : IsRequest buf
  · have hd := hr.not_isDatagram
    have hstep : s.step (.frame buf) = some ⟨learned s.hostMac (macAt buf hr.source),
        s.sent ++ [replyImage (macAt buf hr.source) ((buf.drop 28).take 4)], s.received⟩ := by
      rw [step, handle_request s.hostMac hr]
    refine ⟨_, hstep, ?_, ?_, .inl ⟨hr, _, ⟨hr, rfl⟩, rfl⟩⟩
    · simp [Event.heard, hr]
    · simp [Event.payload, hd]
  · by_cases hd : IsDatagram buf
    · have hf : LengthFits buf := by_contra fun hf => h ⟨hd, hf⟩
      have hstep : s.step (.frame buf) = some ⟨learned s.hostMac (macAt buf hd.source), s.sent,
          s.received ++ [payloadAt buf]⟩ := by
        rw [step, handle_datagram s.hostMac hd hf]
      refine ⟨_, hstep, ?_, ?_, .inr ⟨hr, rfl⟩⟩
      · simp [Event.heard, hd]
      · simp [Event.payload, hd]
    · have hstep : s.step (.frame buf) = some s := by
        rw [step, handle_ignored s.hostMac hr hd]
      refine ⟨_, hstep, ?_, ?_, .inr ⟨hr, rfl⟩⟩
      · simp [Event.heard, hr, hd]
      · simp [Event.payload, hd]

theorem frame_destination (hostMac : Mac) (len c udpLen : ℤ) (payload : Bytes) :
    let f := ethernet hostMac ++ header len c ++ udp udpLen ++ payload
    f.drop 42 = payload ∧ (f.drop 30).take 4 = hostIp ∧ uint16At f 36 = 1234 := by
  obtain ⟨a, b, c, d, e, g, hmac, rfl⟩ := hostMac.exists_octets
  exact ⟨rfl, rfl, rfl⟩

theorem step_write (payload : Bytes) :
    ∃ s', s.step (.write payload) = some s' ∧ s.Takes (.write payload) s' := by
  obtain ⟨c, hc, hframe⟩ := frame_eq s.hostMac payload
  obtain ⟨hpayload, hip, hport⟩ :=
    frame_destination s.hostMac (20 + 8 + payload.length) c (8 + payload.length) payload
  generalize hf : ethernet s.hostMac ++ header (20 + 8 + payload.length) c ++
    udp (8 + payload.length) ++ payload = f at hframe hpayload hip hport
  have hstep : s.step (.write payload) = some { s with sent := s.sent ++ [f] } := by
    rw [step, hframe]
  refine ⟨_, hstep, rfl, (List.append_nil _).symm,
    .inl ⟨trivial, f, ⟨hframe, hpayload, hip, hport, fun hfits => ?_⟩, rfl⟩⟩
  rw [← hf]
  exact validFrame s.hostMac payload rfl hfits (header_fold hc)

theorem step_takes (h : ¬ e.Fatal) : ∃ s', s.step e = some s' ∧ s.Takes e s' := by
  cases e with
  | frame buf => exact step_frame h
  | write payload => exact step_write payload

end Adapter

/-- The address of the host after the events: the first one heard that is not the broadcast one. -/
def learnt (events : List Event) : Mac :=
  ((events.filterMap Event.heard).find? (· ≠ broadcastMac)).getD broadcastMac

theorem learnt_concat (events : List Event) (e : Event) : learnt (events ++ [e]) =
    (e.heard.map (learned (learnt events))).getD (learnt events) := by
  cases hheard : e.heard with
  | none => simp [learnt, hheard]
  | some mac =>
    simp only [learnt, List.filterMap_append, List.filterMap_cons, hheard, List.filterMap_nil,
      List.find?_append, Option.map_some, Option.getD_some]
    cases hfound : (events.filterMap Event.heard).find? (· ≠ broadcastMac) with
    | none =>
      by_cases hmac : mac = broadcastMac <;> simp [learned, hmac]
    | some known =>
      have hknown : known ≠ broadcastMac := by simpa using List.find?_some hfound
      simp [learned, hknown]

/-- The elements of a list, each with those before it. -/
def withPast {α : Type} (past : List α) : List α → List (List α × α)
  | [] => []
  | a :: l => (past, a) :: withPast (past ++ [a]) l

theorem withPast_concat {α : Type} (past l : List α) (a : α) :
    withPast past (l ++ [a]) = withPast past l ++ [(past ++ l, a)] := by
  induction l generalizing past with
  | nil => simp [withPast]
  | cons b l ih => simp [withPast, ih]

/-- The adapter after the events. -/
structure Adapter.Heard (events : List Event) (s : Adapter) : Prop where
  hostMac : s.hostMac = learnt events
  received : s.received = events.filterMap Event.payload
  sent : List.Forall₂ (fun p => p.2.Sends (learnt p.1))
    ((withPast [] events).filter fun p => p.2.Speaks) s.sent

theorem Adapter.Heard.concat {events : List Event} {s s' : Adapter} {e : Event}
    (h : s.Heard events) (ht : s.Takes e s') : s'.Heard (events ++ [e]) := by
  refine ⟨?_, ?_, ?_⟩
  · rw [ht.hostMac, h.hostMac, learnt_concat]
  · rw [ht.received, h.received, List.filterMap_append]
    cases hp : e.payload <;> simp [hp]
  · rw [withPast_concat, List.nil_append, List.filter_append]
    rcases ht.sent with ⟨hspeaks, f, hf, hsent⟩ | ⟨hquiet, hsent⟩
    · rw [hsent]
      rw [h.hostMac] at hf
      have hone : [(events, e)].filter (fun p => p.2.Speaks) = [(events, e)] := by simp [hspeaks]
      rw [hone]
      exact List.rel_append h.sent (.cons hf .nil)
    · have hnone : [(events, e)].filter (fun p => p.2.Speaks) = [] := by simp [hquiet]
      rw [hsent, hnone, List.append_nil]
      exact h.sent

/-- **The adapter is a function of its events.** The machine ends at the first datagram whose length
field does not fit its frame. Up to there the payloads of the datagrams are handed on in order, each
request for the address is answered to who sent it, and what is written goes out in a valid frame to
the first host that was heard. -/
theorem Adapter.listens (events : List Event) :
    ((∃ e ∈ events, e.Fatal) ∧ events.foldlM step start = none) ∨
    ((∀ e ∈ events, ¬ e.Fatal) ∧ ∃ s, events.foldlM step start = some s ∧ s.Heard events) := by
  induction events using List.reverseRecOn with
  | nil => exact .inr ⟨fun e he => by simp at he, start, rfl, rfl, rfl, .nil⟩
  | append_singleton events e ih =>
    rw [List.foldlM_append]
    rcases ih with ⟨⟨e', he', hfatal⟩, hnone⟩ | ⟨hall, s, hrun, hs⟩
    · left
      refine ⟨⟨e', List.mem_append_left _ he', hfatal⟩, ?_⟩
      rw [hnone]
      rfl
    · by_cases hfatal : e.Fatal
      · left
        refine ⟨⟨e, by simp, hfatal⟩, ?_⟩
        rw [hrun, Option.bind_eq_bind, Option.bind_some, List.foldlM_cons, step_fatal hfatal]
        rfl
      · right
        obtain ⟨s', hstep, ht⟩ := step_takes (s := s) hfatal
        refine ⟨?_, s', ?_, hs.concat ht⟩
        · intro e' he'
          rcases List.mem_append.mp he' with he' | he'
          · exact hall e' he'
          · rwa [List.mem_singleton.mp he']
        · rw [hrun, Option.bind_eq_bind, Option.bind_some, List.foldlM_cons, hstep]
          rfl

end OCamlStudy.Mirage.NetAdapter
