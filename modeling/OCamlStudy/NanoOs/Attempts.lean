import OCamlStudy.NanoOs.PacketCodec
import OCamlStudy.NanoOs.Stack

/-! # One call of `send`

A call writes its packet, and waits for its ack or the end of a sleep, until its
attempts are used up. Its listener may hear packets at any moment, also inside a
write. `Lwt.pick` returns as soon as the waiter of the call is resolved.
-/

namespace OCamlStudy.NanoOs

open OCaml

def Packet.Acks (seq : ℤ) (rawPacket : Bytes) : Prop :=
  ∃ packet, decode rawPacket = .ok (.ok packet) ∧ packet.kind = .ack ∧ packet.ack = seq

theorem Packet.Acks.unique {seq seq' : ℤ} {rawPacket : Bytes} (h : Acks seq rawPacket)
    (h' : Acks seq' rawPacket) : seq = seq' := by
  obtain ⟨packet, hp, -, rfl⟩ := h
  obtain ⟨packet', hp', -, rfl⟩ := h'
  cases hp.symm.trans hp'
  rfl

namespace Stack

def wakes (waiter : ℕ) (actions : List Action) : Bool :=
  actions.any fun
    | .wakeup wakener => wakener == waiter
    | _ => false

def Sending.wake (waiter : ℕ) (actions : List Action) (call : Sending) : Sending :=
  if wakes waiter actions then { call with woken := true } else call

/-- `Lwt.pick` returns `Acked` once the waiter is resolved. -/
def pick (t : Stack) (call : Sending) : Stack × Sending :=
  match call.phase, call.woken with
  | .waiting, true => t.acked call
  | _, _ => (t, call)

theorem pick_eq_self {t : Stack} {call : Sending} (h : call.phase = .waiting → call.woken = false) :
    t.pick call = (t, call) := by
  unfold pick
  split
  · rename_i hp hw
    rw [h hp] at hw
    cases hw
  · rfl

/-- The listener resolves at most the awakener that `pendingAcks` has for the ack. -/
theorem listen_cases (t : Stack) (nowNs : ℤ) (rawPacket : Bytes) :
    ∃ t' actions, t.listen nowNs rawPacket = .ok (t', actions) ∧ t'.config = t.config ∧
      t'.nextSeq = t.nextSeq ∧
      ((∃ seq waiter, Packet.Acks seq rawPacket ∧ t.pendingAcks.lookup seq = some waiter ∧
          t'.pendingAcks = t.pendingAcks.erase seq ∧ actions = [.wakeup waiter]) ∨
        ((∀ seq, Packet.Acks seq rawPacket → t.pendingAcks.lookup seq = none) ∧
          t'.pendingAcks = t.pendingAcks ∧ ∀ waiter, wakes waiter actions = false)) := by
  obtain ⟨r, hr⟩ := Packet.decode_returns rawPacket
  cases r with
  | error e =>
    refine ⟨t, [], listen_error hr, rfl, rfl, .inr ⟨?_, rfl, fun waiter => rfl⟩⟩
    rintro seq ⟨packet, hp, -, -⟩
    cases hp.symm.trans hr
  | ok packet =>
    have hacks (seq : ℤ) : Packet.Acks seq rawPacket ↔ packet.kind = .ack ∧ packet.ack = seq := by
      constructor
      · rintro ⟨packet', hp, h⟩
        cases hp.symm.trans hr
        exact h
      · rintro h
        exact ⟨packet, hr, h⟩
    cases hk : packet.kind with
    | ack =>
      cases hp : t.pendingAcks.lookup packet.ack with
      | none =>
        refine ⟨t, [], listen_ack_none nowNs hr hk hp, rfl, rfl, .inr ⟨?_, rfl, fun waiter => rfl⟩⟩
        rintro seq hseq
        obtain ⟨-, rfl⟩ := (hacks seq).mp hseq
        exact hp
      | some waiter =>
        exact ⟨_, _, listen_ack_some nowNs hr hk hp, rfl, rfl,
          .inl ⟨packet.ack, waiter, (hacks _).mpr ⟨hk, rfl⟩, hp, rfl, rfl⟩⟩
    | data =>
      have hno (seq : ℤ) : ¬ Packet.Acks seq rawPacket := by
        rw [hacks, hk]
        simp
      by_cases hl : t.Live nowNs (packet.srcPort, packet.seq)
      · exact ⟨_, _, listen_data_live hr hk hl, pruneSeen_config, pruneSeen_nextSeq,
          .inr ⟨fun seq h => absurd h (hno seq), pruneSeen_pendingAcks, fun waiter => rfl⟩⟩
      · exact ⟨_, _, listen_data_fresh hr hk hl, pruneSeen_config, pruneSeen_nextSeq,
          .inr ⟨fun seq h => absurd h (hno seq), pruneSeen_pendingAcks, fun waiter => rfl⟩⟩

end Stack

/-- A call of `send`, the stack it runs on, and what it has written. -/
structure Attempts where
  stack : Stack
  waiter : ℕ
  call : Stack.Sending
  writes : List Stack.Action

namespace Attempts

inductive Event where
  /-- `N.write` returns. -/
  | written (result : Except Net.Error Unit)
  /-- The sleep of the attempt ends. -/
  | timeout
  /-- The listener hears a packet. -/
  | arrive (nowNs : ℤ) (rawPacket : Bytes)

def start (t : Stack) (waiter : ℕ) (dstPort : ℤ) (msgStr : Bytes) : Raises Attempts := do
  let (t, call, actions) ← t.send waiter dstPort msgStr
  return { stack := t, waiter, call, writes := actions }

def step (s : Attempts) : Event → Option Attempts
  | .written result =>
    match s.call.phase with
    | .writing =>
      let (t, call) := s.stack.written s.call result
      let (t, call) := t.pick call
      some { s with stack := t, call := call }
    | _ => none
  | .timeout =>
    match s.call.phase with
    | .waiting =>
      let (t, call, actions) := s.stack.timeout s.call
      some { s with stack := t, call := call, writes := s.writes ++ actions }
    | _ => none
  | .arrive nowNs rawPacket =>
    match s.stack.listen nowNs rawPacket with
    | .error _ => none
    | .ok (t, actions) =>
      let (t, call) := t.pick (s.call.wake s.waiter actions)
      some { s with stack := t, call := call }

def run (s : Attempts) (events : List Event) : Option Attempts := events.foldlM step s

def timeouts (events : List Event) : ℕ :=
  events.countP fun
    | .timeout => true
    | _ => false

def returns (events : List Event) : ℕ :=
  events.countP fun
    | .written _ => true
    | _ => false

def Failed (events : List Event) : Prop := ∃ e, .written (.error e) ∈ events

/-- An ack of the number came before the sleep of the attempt `limit`, counted from 0, ended. -/
def AckedInTime (seq : ℤ) (limit : ℕ) (events : List Event) : Prop :=
  ∃ earlier nowNs rawPacket later, events = earlier ++ .arrive nowNs rawPacket :: later ∧
    Packet.Acks seq rawPacket ∧ timeouts earlier ≤ limit

section Events

variable {events : List Event} {seq : ℤ} {limit : ℕ}

theorem timeouts_concat (events : List Event) (e : Event) :
    timeouts (events ++ [e]) = timeouts events + match e with | .timeout => 1 | _ => 0 := by
  rw [timeouts, List.countP_append, List.countP_singleton]
  cases e <;> rfl

theorem returns_concat (events : List Event) (e : Event) :
    returns (events ++ [e]) = returns events + match e with | .written _ => 1 | _ => 0 := by
  rw [returns, List.countP_append, List.countP_singleton]
  cases e <;> rfl

theorem ackedInTime_concat (e : Event) : AckedInTime seq limit (events ++ [e]) ↔
    AckedInTime seq limit events ∨ ∃ nowNs rawPacket, e = .arrive nowNs rawPacket ∧
      Packet.Acks seq rawPacket ∧ timeouts events ≤ limit := by
  constructor
  · rintro ⟨earlier, nowNs, rawPacket, later, h, hacks, hle⟩
    rcases List.eq_nil_or_concat later with rfl | ⟨later, e', rfl⟩
    · obtain ⟨rfl, he⟩ := List.append_inj' h rfl
      cases he
      exact .inr ⟨nowNs, rawPacket, rfl, hacks, hle⟩
    · rw [List.concat_eq_append, ← List.cons_append, ← List.append_assoc] at h
      obtain ⟨rfl, -⟩ := List.append_inj' h rfl
      exact .inl ⟨earlier, nowNs, rawPacket, later, rfl, hacks, hle⟩
  · rintro (⟨earlier, nowNs, rawPacket, later, rfl, h⟩ | ⟨nowNs, rawPacket, rfl, h⟩)
    · exact ⟨earlier, nowNs, rawPacket, later ++ [e], by simp, h⟩
    · exact ⟨events, nowNs, rawPacket, [], rfl, h⟩

@[simp]
theorem ackedInTime_written (r : Except Net.Error Unit) :
    AckedInTime seq limit (events ++ [.written r]) ↔ AckedInTime seq limit events := by
  simp [ackedInTime_concat]

@[simp]
theorem ackedInTime_timeout :
    AckedInTime seq limit (events ++ [.timeout]) ↔ AckedInTime seq limit events := by
  simp [ackedInTime_concat]

end Events

def limit (s : Attempts) : ℕ := s.stack.config.maxRetries.toNat

def seq (s : Attempts) : ℤ := s.call.msg.seq

/-- The one write that a call makes, again and again. -/
def write (s : Attempts) : Stack.Action := .write s.call.msg.dst s.call.msg.packet

def slot (s : Attempts) : Option ℕ := s.stack.pendingAcks.lookup s.seq

/-- What no event changes, and what each attempt adds. -/
structure Kept (s₀ s : Attempts) : Prop where
  waiter : s.waiter = s₀.waiter
  msg : s.call.msg = s₀.call.msg
  config : s.stack.config = s₀.stack.config
  attempt : 0 ≤ s.call.attempt ∧ s.call.attempt ≤ s₀.limit
  writes : s.writes = List.replicate (s.call.attempt.toNat + 1) s₀.write
  own : ∀ seq, s.stack.pendingAcks.lookup seq = some s.waiter → seq = s.seq

inductive Stage (events : List Event) (s : Attempts) : Prop
  | writing (phase : s.call.phase = .writing) (woken : s.call.woken = false)
      (unfailed : ¬ Failed events) (unacked : ¬ AckedInTime s.seq s.limit events)
      (timeouts : timeouts events = s.call.attempt) (returns : returns events = s.call.attempt)
      (slot : s.slot = some s.waiter)
  | woken (phase : s.call.phase = .writing) (woken : s.call.woken = true)
      (unfailed : ¬ Failed events) (acked : AckedInTime s.seq s.limit events)
      (timeouts : timeouts events = s.call.attempt) (returns : returns events = s.call.attempt)
      (slot : s.slot = none)
  | waiting (phase : s.call.phase = .waiting) (woken : s.call.woken = false)
      (unfailed : ¬ Failed events) (unacked : ¬ AckedInTime s.seq s.limit events)
      (timeouts : timeouts events = s.call.attempt)
      (returns : returns events = s.call.attempt + 1) (slot : s.slot = some s.waiter)
  | failed (e : Net.Error) (phase : s.call.phase = .returned (.error e))
      (only : ∀ e', .written (.error e') ∈ events ↔ e' = e)
      (count : timeouts events + returns events ≤ 2 * (s.call.attempt + 1)) (slot : s.slot = none)
  | acked (phase : s.call.phase = .returned (.ok ())) (unfailed : ¬ Failed events)
      (acked : AckedInTime s.seq s.limit events)
      (count : timeouts events + returns events ≤ 2 * (s.call.attempt + 1)) (slot : s.slot = none)
  | exhausted (phase : s.call.phase = .returned (.error (Stack.ackTimeout s.seq s.limit)))
      (unfailed : ¬ Failed events) (unacked : ¬ AckedInTime s.seq s.limit events)
      (attempt : s.call.attempt = s.limit) (timeouts : timeouts events = s.limit + 1)
      (returns : returns events = s.limit + 1) (slot : s.slot = none)

section Step

variable {s₀ s s' : Attempts} {events : List Event}

theorem Kept.limit (h : Kept s₀ s) : s.limit = s₀.limit := by rw [Attempts.limit, h.config]; rfl

theorem Stage.waiting_unwoken (h : Stage events s) :
    s.call.phase = .waiting → s.call.woken = false := by
  intro hp
  cases h with
  | waiting _ woken => exact woken
  | writing phase | woken phase | failed _ phase | acked phase | exhausted phase =>
    cases phase.symm.trans hp

theorem Stage.slot_cases (h : Stage events s) : s.slot = none ∨ s.slot = some s.waiter := by
  cases h with
  | writing _ _ _ _ _ _ slot | waiting _ _ _ _ _ _ slot => exact .inr slot
  | woken _ _ _ _ _ _ slot | failed _ _ _ _ slot | acked _ _ _ _ slot
  | exhausted _ _ _ _ _ _ slot => exact .inl slot

theorem not_failed_concat {e : Event} (h : ¬ Failed events)
    (he : ∀ err, e ≠ .written (.error err)) :
    ¬ Failed (events ++ [e]) := by
  rintro ⟨err, hmem⟩
  rcases List.mem_append.mp hmem with hmem | hmem
  · exact h ⟨err, hmem⟩
  · exact he err (List.mem_singleton.mp hmem).symm

def finish (s : Attempts) (result : Except Net.Error Unit) : Attempts :=
  { s with
    stack := s.stack.cleanupPending s.seq
    call := { s.call with phase := .returned result } }

theorem written_cases {r : Except Net.Error Unit} (hs : s.step (.written r) = some s') :
    s.call.phase = .writing ∧
      ((∃ e, r = .error e ∧ s' = s.finish (.error e)) ∨
        (r = .ok () ∧ s.call.woken = true ∧ s' = s.finish (.ok ())) ∨
        (r = .ok () ∧ s.call.woken = false ∧
          s' = { s with call := { s.call with phase := .waiting } })) := by
  cases hp : s.call.phase with
  | waiting | returned => simp [step, hp] at hs
  | writing =>
    refine ⟨rfl, ?_⟩
    simp only [step, hp, Option.some.injEq] at hs
    subst hs
    cases r with
    | error e => exact .inl ⟨e, rfl, rfl⟩
    | ok =>
      cases hw : s.call.woken with
      | true =>
        refine .inr (.inl ⟨rfl, rfl, ?_⟩)
        simp [Stack.written, Stack.pick, hw, Stack.acked, finish, seq]
      | false =>
        refine .inr (.inr ⟨rfl, rfl, ?_⟩)
        simp [Stack.written, Stack.pick, hw]

theorem timeout_cases (hs : s.step .timeout = some s') :
    s.call.phase = .waiting ∧
      ((s.stack.config.maxRetries ≤ s.call.attempt ∧
          s' = s.finish (.error (Stack.ackTimeout s.seq s.call.attempt))) ∨
        (s.call.attempt < s.stack.config.maxRetries ∧
          s' = { s with
            call := { s.call with attempt := s.call.attempt + 1, phase := .writing }
            writes := s.writes ++ [s.write] })) := by
  cases hp : s.call.phase with
  | writing | returned => simp [step, hp] at hs
  | waiting =>
    refine ⟨rfl, ?_⟩
    simp only [step, hp, Option.some.injEq] at hs
    subst hs
    by_cases hle : s.stack.config.maxRetries ≤ s.call.attempt
    · refine .inl ⟨hle, ?_⟩
      simp [Stack.timeout, hle, finish, seq]
    · refine .inr ⟨not_le.mp hle, ?_⟩
      simp [Stack.timeout, hle, write]

theorem arrive_cases {nowNs : ℤ} {rawPacket : Bytes} (hk : Kept s₀ s) (hg : Stage events s)
    (hs : s.step (.arrive nowNs rawPacket) = some s') :
    ∃ t, t.config = s.stack.config ∧
      ((Packet.Acks s.seq rawPacket ∧ s.slot = some s.waiter ∧
          t.pendingAcks = s.stack.pendingAcks.erase s.seq ∧
          ((s.call.phase = .waiting ∧ s' = ({ s with
              stack := t
              call := { s.call with woken := true } } : Attempts).finish (.ok ())) ∨
            (s.call.phase ≠ .waiting ∧
              s' = { s with stack := t, call := { s.call with woken := true } }))) ∨
        ((Packet.Acks s.seq rawPacket → s.slot = none) ∧
          (∀ seq, t.pendingAcks.lookup seq = some s.waiter →
            s.stack.pendingAcks.lookup seq = some s.waiter) ∧
          t.pendingAcks.lookup s.seq = s.slot ∧ s' = { s with stack := t })) := by
  have hwait := hg.waiting_unwoken
  obtain ⟨t, actions, hl, hconfig, -, h⟩ := s.stack.listen_cases nowNs rawPacket
  refine ⟨t, hconfig, ?_⟩
  simp only [step, hl, Option.some.injEq] at hs
  subst hs
  rcases h with ⟨seq', waiter, hacks, hlook, hpend, rfl⟩ | ⟨hnone, hpend, hwakes⟩
  · by_cases hw : waiter = s.waiter
    · subst hw
      obtain rfl := hk.own seq' hlook
      refine .inl ⟨hacks, hlook, hpend, ?_⟩
      cases hp : s.call.phase with
      | waiting =>
        refine .inl ⟨rfl, ?_⟩
        simp [Stack.Sending.wake, Stack.wakes, Stack.pick, hp, Stack.acked, finish, seq]
      | writing | returned =>
        refine .inr ⟨by simp, ?_⟩
        simp [Stack.Sending.wake, Stack.wakes, Stack.pick, hp]
    · have hne : s.seq ≠ seq' := by
        rintro rfl
        rcases hg.slot_cases with hslot | hslot
        · cases hslot.symm.trans hlook
        · cases hslot.symm.trans hlook
          exact hw rfl
      refine .inr ⟨fun h => absurd (h.unique hacks) hne, fun seq hseq => ?_, ?_, ?_⟩
      · rw [hpend] at hseq
        by_cases he : seq = seq'
        · subst he
          simp at hseq
        · rwa [AList.lookup_erase_ne he] at hseq
      · rw [hpend, AList.lookup_erase_ne hne, slot]
      · simp [Stack.Sending.wake, Stack.wakes, hw, Stack.pick_eq_self hwait]
  · refine .inr ⟨hnone s.seq, fun seq hseq => hpend ▸ hseq, by rw [hpend, slot], ?_⟩
    simp [Stack.Sending.wake, hwakes, Stack.pick_eq_self hwait]

theorem Kept.finish {r : Except Net.Error Unit} (hk : Kept s₀ s) : Kept s₀ (s.finish r) where
  waiter := hk.waiter
  msg := hk.msg
  config := hk.config
  attempt := hk.attempt
  writes := hk.writes
  own seq hseq := by
    by_cases he : seq = s.seq
    · exact he
    · change (s.stack.pendingAcks.erase s.seq).lookup seq = some s.waiter at hseq
      rw [AList.lookup_erase_ne he] at hseq
      exact hk.own seq hseq

@[simp]
theorem finish_slot (s : Attempts) (r : Except Net.Error Unit) : (s.finish r).slot = none :=
  AList.lookup_erase _ _

theorem step_written {r : Except Net.Error Unit} (hk : Kept s₀ s) (hg : Stage events s)
    (hs : s.step (.written r) = some s') : Kept s₀ s' ∧ Stage (events ++ [.written r]) s' := by
  obtain ⟨hphase, hs⟩ := written_cases hs
  have hbusy : ¬ Failed events ∧ timeouts events = s.call.attempt ∧
      returns events = s.call.attempt := by
    cases hg with
    | writing _ _ unfailed _ timeouts returns | woken _ _ unfailed _ timeouts returns =>
      exact ⟨unfailed, timeouts, returns⟩
    | waiting phase | failed _ phase | acked phase | exhausted phase =>
      cases phase.symm.trans hphase
  obtain ⟨hunfailed, htimeouts, hreturns⟩ := hbusy
  have ht : timeouts (events ++ [.written r]) = timeouts events := timeouts_concat ..
  have hr : returns (events ++ [.written r]) = returns events + 1 := returns_concat ..
  rcases hs with ⟨e, rfl, rfl⟩ | ⟨rfl, hwoken, rfl⟩ | ⟨rfl, hwoken, rfl⟩
  · refine ⟨hk.finish, .failed e rfl (fun e' => ?_) ?_ (finish_slot ..)⟩
    · constructor
      · intro hmem
        rcases List.mem_append.mp hmem with hmem | hmem
        · exact absurd ⟨e', hmem⟩ hunfailed
        · cases List.mem_singleton.mp hmem
          rfl
      · rintro rfl
        simp
    · change _ ≤ 2 * (s.call.attempt + 1)
      omega
  · have hacked : AckedInTime s.seq s.limit events := by
      cases hg with
      | woken _ _ _ acked => exact acked
      | writing _ woken | waiting _ woken => cases woken.symm.trans hwoken
      | failed _ phase | acked phase | exhausted phase => cases phase.symm.trans hphase
    refine ⟨hk.finish, .acked rfl (not_failed_concat hunfailed (by simp))
      (ackedInTime_written _ |>.mpr hacked) ?_ (finish_slot ..)⟩
    change _ ≤ 2 * (s.call.attempt + 1)
    omega
  · refine ⟨⟨hk.waiter, hk.msg, hk.config, hk.attempt, hk.writes, hk.own⟩, ?_⟩
    cases hg with
    | writing _ _ _ unacked _ _ slot =>
      refine .waiting rfl hwoken (not_failed_concat hunfailed (by simp))
        (mt (ackedInTime_written _).mp unacked) ?_ ?_ slot
      · rw [ht]
        exact htimeouts
      · rw [hr]
        push_cast
        rw [hreturns]
    | woken _ woken => cases woken.symm.trans hwoken
    | waiting phase | failed _ phase | acked phase | exhausted phase =>
      cases phase.symm.trans hphase

theorem step_timeout (hk : Kept s₀ s) (hg : Stage events s)
    (hs : s.step .timeout = some s') : Kept s₀ s' ∧ Stage (events ++ [.timeout]) s' := by
  obtain ⟨hphase, hs⟩ := timeout_cases hs
  have ht : timeouts (events ++ [.timeout]) = timeouts events + 1 := timeouts_concat ..
  have hr : returns (events ++ [.timeout]) = returns events := returns_concat ..
  have hattempt := hk.attempt
  have hlimit : (s.limit : ℤ) = max s.stack.config.maxRetries 0 := Int.toNat_eq_max _
  rw [← hk.limit] at hattempt
  cases hg with
  | writing phase | woken phase | failed _ phase | acked phase | exhausted phase =>
    cases phase.symm.trans hphase
  | waiting _ woken unfailed unacked timeouts returns slot =>
    have hunfailed := not_failed_concat unfailed (e := .timeout) (by simp)
    have hunacked := mt ackedInTime_timeout.mp unacked
    rcases hs with ⟨hle, rfl⟩ | ⟨hlt, rfl⟩
    · have hlast : s.call.attempt = s.limit := by omega
      refine ⟨hk.finish, .exhausted ?_ hunfailed hunacked hlast ?_ ?_ (finish_slot ..)⟩
      · rw [hlast]
        rfl
      · change _ = s.limit + 1
        omega
      · change _ = s.limit + 1
        omega
    · refine ⟨⟨hk.waiter, hk.msg, hk.config, ?_, ?_, hk.own⟩,
        .writing rfl woken hunfailed hunacked ?_ ?_ slot⟩
      · rw [← hk.limit]
        dsimp only
        omega
      · have hsucc : (s.call.attempt + 1).toNat = s.call.attempt.toNat + 1 := by omega
        have hwrite : s.write = s₀.write := by rw [write, write, hk.msg]
        dsimp only
        rw [hk.writes, hwrite, hsucc]
        exact (List.replicate_succ' ..).symm
      · rw [ht]
        push_cast
        rw [timeouts]
      · rw [hr]
        exact returns

theorem ackedInTime_arrive {seq : ℤ} {limit : ℕ} {nowNs : ℤ} {rawPacket : Bytes} :
    AckedInTime seq limit (events ++ [.arrive nowNs rawPacket]) ↔
      AckedInTime seq limit events ∨ (Packet.Acks seq rawPacket ∧ timeouts events ≤ limit) := by
  rw [ackedInTime_concat]
  constructor
  · rintro (h | ⟨_, _, h, hacks⟩)
    · exact .inl h
    · cases h
      exact .inr hacks
  · rintro (h | hacks)
    · exact .inl h
    · exact .inr ⟨nowNs, rawPacket, rfl, hacks⟩

section Arrive

variable {nowNs : ℤ} {rawPacket : Bytes} {t : Stack}

theorem Stage.arrive_own (nowNs : ℤ) (hg : Stage events s)
    (hlimit : limit { s with stack := t } = s.limit)
    (hattempt : s.call.attempt ≤ s.limit) (hacks : Packet.Acks s.seq rawPacket)
    (hslot : s.slot = some s.waiter) (hpend : t.pendingAcks = s.stack.pendingAcks.erase s.seq) :
    (s.call.phase = .waiting → Stage (events ++ [.arrive nowNs rawPacket])
      (({ s with stack := t, call := { s.call with woken := true } } : Attempts).finish (.ok ()))) ∧
    (s.call.phase ≠ .waiting → Stage (events ++ [.arrive nowNs rawPacket])
      { s with stack := t, call := { s.call with woken := true } }) := by
  have ht : timeouts (events ++ [.arrive nowNs rawPacket]) = timeouts events := timeouts_concat ..
  have hr : returns (events ++ [.arrive nowNs rawPacket]) = returns events := returns_concat ..
  have hlimit' : limit { s with stack := t, call := { s.call with woken := true } } = s.limit :=
    hlimit
  cases hg with
  | woken _ _ _ _ _ _ slot | failed _ _ _ _ slot | acked _ _ _ _ slot
  | exhausted _ _ _ _ _ _ slot => cases slot.symm.trans hslot
  | waiting phase _ unfailed _ timeouts returns =>
    refine ⟨fun _ => ?_, fun hne => absurd phase hne⟩
    refine .acked rfl (not_failed_concat unfailed (by simp)) ?_ ?_ (finish_slot ..)
    · change AckedInTime s.seq (limit { s with stack := t, call := _ }) _
      rw [hlimit']
      exact ackedInTime_arrive.mpr (.inr ⟨hacks, by omega⟩)
    · change _ ≤ 2 * (s.call.attempt + 1)
      omega
  | writing phase _ unfailed _ timeouts returns =>
    refine ⟨fun hwaiting => absurd (phase.symm.trans hwaiting) (by simp), fun _ => ?_⟩
    refine .woken phase rfl (not_failed_concat unfailed (by simp)) ?_ ?_ ?_ ?_
    · rw [hlimit']
      exact ackedInTime_arrive.mpr (.inr ⟨hacks, by omega⟩)
    · rw [ht]
      exact timeouts
    · rw [hr]
      exact returns
    · change t.pendingAcks.lookup s.seq = none
      rw [hpend, AList.lookup_erase]

theorem Stage.arrive_other (hg : Stage events s) (hlimit : limit { s with stack := t } = s.limit)
    (hno : Packet.Acks s.seq rawPacket → s.slot = none)
    (hslot : t.pendingAcks.lookup s.seq = s.slot) :
    Stage (events ++ [.arrive nowNs rawPacket]) { s with stack := t } := by
  have ht : timeouts (events ++ [.arrive nowNs rawPacket]) = timeouts events := timeouts_concat ..
  have hr : returns (events ++ [.arrive nowNs rawPacket]) = returns events := returns_concat ..
  have hearlier (h : AckedInTime s.seq s.limit events) : AckedInTime s.seq
      (limit { s with stack := t }) (events ++ [.arrive nowNs rawPacket]) := by
    rw [hlimit]
    exact ackedInTime_arrive.mpr (.inl h)
  have hunacked (h : ¬ AckedInTime s.seq s.limit events)
      (hlate : s.slot = some s.waiter ∨ s.limit < timeouts events) : ¬ AckedInTime s.seq
        (limit { s with stack := t }) (events ++ [.arrive nowNs rawPacket]) := by
    rw [hlimit, ackedInTime_arrive]
    rintro (hbefore | ⟨hacks, hle⟩)
    · exact h hbefore
    · rcases hlate with hsome | hlate
      · cases (hno hacks).symm.trans hsome
      · omega
  cases hg with
  | writing phase woken unfailed unacked timeouts returns slot =>
    exact .writing phase woken (not_failed_concat unfailed (by simp))
      (hunacked unacked (.inl slot)) (ht ▸ timeouts) (hr ▸ returns) (hslot.trans slot)
  | woken phase woken unfailed acked timeouts returns slot =>
    exact .woken phase woken (not_failed_concat unfailed (by simp)) (hearlier acked)
      (ht ▸ timeouts) (hr ▸ returns) (hslot.trans slot)
  | waiting phase woken unfailed unacked timeouts returns slot =>
    exact .waiting phase woken (not_failed_concat unfailed (by simp))
      (hunacked unacked (.inl slot)) (ht ▸ timeouts) (hr ▸ returns) (hslot.trans slot)
  | failed e phase only count slot =>
    refine .failed e phase (fun e' => ?_) (by rw [ht, hr]; exact count) (hslot.trans slot)
    rw [← only e']
    simp
  | acked phase unfailed acked count slot =>
    exact .acked phase (not_failed_concat unfailed (by simp)) (hearlier acked)
      (by rw [ht, hr]; exact count) (hslot.trans slot)
  | exhausted phase unfailed unacked attempt timeouts returns slot =>
    refine .exhausted ?_ (not_failed_concat unfailed (by simp))
      (hunacked unacked (.inr (by omega))) ?_ ?_ ?_ (hslot.trans slot)
    · rw [hlimit]
      exact phase
    · rw [hlimit]
      exact attempt
    · rw [ht, hlimit]
      exact timeouts
    · rw [hr, hlimit]
      exact returns

theorem step_arrive (hk : Kept s₀ s) (hg : Stage events s)
    (hs : s.step (.arrive nowNs rawPacket) = some s') :
    Kept s₀ s' ∧ Stage (events ++ [.arrive nowNs rawPacket]) s' := by
  have hattempt := hk.attempt
  rw [← hk.limit] at hattempt
  obtain ⟨t, hconfig, ⟨hacks, hslot, hpend, hs⟩ | ⟨hno, hown, hslot, rfl⟩⟩ := arrive_cases hk hg hs
  · have hown (seq : ℤ) (hseq : t.pendingAcks.lookup seq = some s.waiter) : seq = s.seq := by
      by_cases he : seq = s.seq
      · exact he
      · rw [hpend, AList.lookup_erase_ne he] at hseq
        exact hk.own seq hseq
    have hkt : Kept s₀ { s with stack := t, call := { s.call with woken := true } } :=
      ⟨hk.waiter, hk.msg, hconfig.trans hk.config, hk.attempt, hk.writes, hown⟩
    obtain ⟨hwaiting, hother⟩ := hg.arrive_own nowNs (hkt.limit.trans hk.limit.symm)
      hattempt.2 hacks hslot hpend
    rcases hs with ⟨hphase, rfl⟩ | ⟨hphase, rfl⟩
    · exact ⟨hkt.finish, hwaiting hphase⟩
    · exact ⟨hkt, hother hphase⟩
  · have hkt : Kept s₀ { s with stack := t } :=
      ⟨hk.waiter, hk.msg, hconfig.trans hk.config, hk.attempt, hk.writes,
        fun seq hseq => hk.own seq (hown seq hseq)⟩
    exact ⟨hkt, hg.arrive_other (hkt.limit.trans hk.limit.symm) hno hslot⟩

end Arrive

/-- Whatever happens next, the account goes on. -/
theorem step_stage {e : Event} (hk : Kept s₀ s) (hg : Stage events s) (hs : s.step e = some s') :
    Kept s₀ s' ∧ Stage (events ++ [e]) s' := by
  cases e with
  | written r => exact step_written hk hg hs
  | timeout => exact step_timeout hk hg hs
  | arrive nowNs rawPacket => exact step_arrive hk hg hs

theorem run_stage {earlier : List Event} (hk : Kept s₀ s) (hg : Stage earlier s)
    (hrun : s.run events = some s') : Kept s₀ s' ∧ Stage (earlier ++ events) s' := by
  induction events generalizing s earlier with
  | nil =>
    cases hrun
    rw [List.append_nil]
    exact ⟨hk, hg⟩
  | cons e events ih =>
    rw [run, List.foldlM_cons] at hrun
    obtain ⟨s₁, hs, hrun⟩ := Option.bind_eq_some_iff.mp hrun
    obtain ⟨hk₁, hg₁⟩ := step_stage hk hg hs
    rw [List.append_cons]
    exact ih hk₁ hg₁ hrun

end Step

section Verdict

variable {s₀ s : Attempts} {events : List Event}

theorem Stage.count (hk : Kept s₀ s) (hg : Stage events s) :
    (timeouts events + returns events : ℤ) ≤ 2 * (s.limit + 1) := by
  have hattempt := hk.attempt
  rw [← hk.limit] at hattempt
  cases hg with
  | writing | woken | waiting | failed | acked | exhausted => omega

/-- A call that has not returned can go on, and waits only for an ack that has not come. -/
theorem Stage.goes_on (hg : Stage events s) : (∃ r, s.call.phase = .returned r) ∨
    (∀ r, (s.step (.written r)).isSome) ∨
      ((s.step .timeout).isSome ∧ ¬ AckedInTime s.seq s.limit events) := by
  cases hg with
  | writing phase | woken phase =>
    refine .inr (.inl fun r => ?_)
    simp [step, phase]
  | waiting phase _ _ unacked =>
    refine .inr (.inr ⟨?_, unacked⟩)
    simp [step, phase]
  | failed _ phase | acked phase | exhausted phase => exact .inl ⟨_, phase⟩

theorem Stage.failed_result {e : Net.Error} (hg : Stage events s)
    (he : .written (.error e) ∈ events) : s.call.phase = .returned (.error e) := by
  cases hg with
  | failed e' phase only =>
    obtain rfl := (only e).mp he
    exact phase
  | writing _ _ unfailed | woken _ _ unfailed | waiting _ _ unfailed | acked _ unfailed
  | exhausted _ unfailed => exact absurd ⟨e, he⟩ unfailed

theorem Stage.result {r : Except Net.Error Unit} (hg : Stage events s)
    (hr : s.call.phase = .returned r) : s.slot = none ∧ (¬ Failed events →
      (r = .ok () ↔ AckedInTime s.seq s.limit events) ∧
      (r ≠ .ok () → r = .error (Stack.ackTimeout s.seq s.limit) ∧ s.call.attempt = s.limit)) := by
  cases hg with
  | writing phase | woken phase | waiting phase => cases phase.symm.trans hr
  | failed e phase only _ slot =>
    exact ⟨slot, fun hunfailed => absurd ⟨e, (only e).mpr rfl⟩ hunfailed⟩
  | acked phase _ acked _ slot =>
    cases phase.symm.trans hr
    exact ⟨slot, fun _ => ⟨iff_of_true rfl acked, fun h => absurd rfl h⟩⟩
  | exhausted phase _ unacked attempt _ _ slot =>
    cases phase.symm.trans hr
    exact ⟨slot, fun _ => ⟨iff_of_false (by simp) unacked, fun _ => ⟨rfl, attempt⟩⟩⟩

end Verdict

section Start

variable {t : Stack} {waiter : ℕ} {dstPort : ℤ} {msgStr : Bytes} {s₀ : Attempts}

theorem start_eq (t : Stack) (waiter : ℕ) (dstPort : ℤ) (msgStr : Bytes) :
    start t waiter dstPort msgStr = .ok {
      stack := { t with
        nextSeq := (t.nextSeq + 1) % 256
        pendingAcks := (t.pendingAcks.erase t.nextSeq).insert t.nextSeq waiter }
      waiter
      call := {
        msg := ⟨t.nextSeq, msgStr, dstPort, Packet.wire .data t.nextSeq 0 t.myPort msgStr⟩
        attempt := 0
        phase := .writing
        woken := false }
      writes := [.write dstPort (Packet.wire .data t.nextSeq 0 t.myPort msgStr)] } := by
  rw [start, Stack.send_eq]
  rfl

theorem start_stage (hfresh : ∀ seq, t.pendingAcks.lookup seq ≠ some waiter)
    (hstart : start t waiter dstPort msgStr = .ok s₀) : Kept s₀ s₀ ∧ Stage [] s₀ := by
  rw [start_eq] at hstart
  cases hstart
  refine ⟨⟨rfl, rfl, rfl, ⟨le_rfl, Int.natCast_nonneg _⟩, rfl, fun seq hseq => ?_⟩,
    .writing rfl rfl ?_ ?_ rfl rfl (AList.lookup_insert _)⟩
  · by_contra hne
    change ¬ seq = t.nextSeq at hne
    change ((t.pendingAcks.erase t.nextSeq).insert t.nextSeq waiter).lookup seq =
      some waiter at hseq
    rw [AList.lookup_insert_ne hne, AList.lookup_erase_ne hne] at hseq
    exact hfresh seq hseq
  · rintro ⟨e, hmem⟩
    cases hmem
  · rintro ⟨earlier, nowNs, rawPacket, later, h, -⟩
    simp at h

/-- **A single call ends with the right verdict.** It makes at most `max 0 maxRetries + 1` writes
of one packet; it ends after at most as many returns and sleeps, and can go on until then; a failed
write is its result at once; otherwise its result is `Ok` exactly if an ack came in time, and else
the timeout after the last attempt; and it leaves no awakener. -/
theorem send_verdict {events : List Event} {s : Attempts}
    (hfresh : ∀ seq, t.pendingAcks.lookup seq ≠ some waiter)
    (hstart : start t waiter dstPort msgStr = .ok s₀) (hrun : s₀.run events = some s) :
    (∃ n : ℕ, s.writes = List.replicate n
        (.write dstPort (Packet.wire .data t.nextSeq 0 t.myPort msgStr)) ∧
      n ≤ max 0 t.config.maxRetries + 1) ∧
    (timeouts events + returns events ≤ 2 * (max 0 t.config.maxRetries + 1)) ∧
    ((∃ r, s.call.phase = .returned r) ∨ (∀ r, (s.step (.written r)).isSome) ∨
      ((s.step .timeout).isSome ∧
        ¬ AckedInTime t.nextSeq t.config.maxRetries.toNat events)) ∧
    (∀ e, .written (.error e) ∈ events → s.call.phase = .returned (.error e)) ∧
    ∀ r, s.call.phase = .returned r →
      s.stack.pendingAcks.lookup t.nextSeq = none ∧
      (¬ Failed events →
        (r = .ok () ↔ AckedInTime t.nextSeq t.config.maxRetries.toNat events) ∧
        (r ≠ .ok () →
          r = .error (Stack.ackTimeout t.nextSeq (max 0 t.config.maxRetries)) ∧
          s.writes.length = max 0 t.config.maxRetries + 1)) := by
  obtain ⟨hk₀, hg₀⟩ := start_stage hfresh hstart
  obtain ⟨hk, hg⟩ := run_stage hk₀ hg₀ hrun
  rw [List.nil_append] at hg
  rw [start_eq] at hstart
  cases hstart
  have hseq : s.seq = t.nextSeq := congrArg Stack.Message.seq hk.msg
  have hlimit : s.limit = t.config.maxRetries.toNat := hk.limit
  have hmax : (s.limit : ℤ) = max 0 t.config.maxRetries := by omega
  have hattempt := hk.attempt
  rw [← hk.limit] at hattempt
  have hwrites := hk.writes
  refine ⟨⟨_, hwrites, by omega⟩, ?_, ?_, fun e he => hg.failed_result he, fun r hr => ?_⟩
  · rw [← hmax]
    exact hg.count hk
  · rw [← hseq, ← hlimit]
    exact hg.goes_on
  · obtain ⟨hslot, hverdict⟩ := hg.result hr
    rw [← hseq, ← hlimit, ← hmax]
    refine ⟨hslot, fun hunfailed => ?_⟩
    obtain ⟨hok, herror⟩ := hverdict hunfailed
    refine ⟨hok, fun hne => ?_⟩
    obtain ⟨hresult, hlast⟩ := herror hne
    refine ⟨hresult, ?_⟩
    rw [hwrites, List.length_replicate]
    omega

def impatient : Stack := Stack.create { Stack.defaultConfig with maxRetries := -3 } 7 9000

/-- One attempt, whose sleep ends. -/
theorem send_verdict_once : ∃ s₀ s, start impatient 0 9001 (bytes "hi") = .ok s₀ ∧
    s₀.run [.written (.ok ()), .timeout] = some s ∧
    (∃ n : ℕ, s.writes = List.replicate n
        (.write 9001 (Packet.wire .data 7 0 9000 (bytes "hi"))) ∧ (n : ℤ) ≤ max 0 (-3) + 1) ∧
    (s.stack.pendingAcks.lookup 7 = none ∧
      s.call.phase = .returned (.error (Stack.ackTimeout 7 0)) ∧
      (s.writes.length : ℤ) = max 0 (-3) + 1) := by
  have hfresh (seq : ℤ) : impatient.pendingAcks.lookup seq ≠ some 0 := by
    simp [impatient, Stack.create]
  have hstart := start_eq impatient 0 9001 (bytes "hi")
  obtain ⟨hwrites, -, -, -, hresult⟩ :=
    send_verdict hfresh hstart
      (show _ = some _ from (rfl : run _ [.written (.ok ()), .timeout] = _))
  obtain ⟨hslot, herror⟩ := hresult _ rfl
  refine ⟨_, _, hstart, rfl, hwrites, hslot, rfl, ?_⟩
  exact ((herror (by simp [Failed])).2 (by simp)).2

end Start

end Attempts

end OCamlStudy.NanoOs
