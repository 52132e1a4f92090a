import OCamlStudy.NanoOs.Attempts
import OCamlStudy.Program.Run

/-! # The slots of concurrent sends

Any number of calls of `send` run on one stack. The listener may hear packets at
any moment; a write returns, or its promise is rejected and the call ends with
that exception, without cleaning up. Each call is named by its position.
-/

namespace OCamlStudy.NanoOs

open OCaml Program

/-- A call of `send`; `rejected` once the promise of its `N.write` was. -/
structure Call where
  sending : Stack.Sending
  rejected : Bool

namespace Call

def seq (call : Call) : ℤ := call.sending.msg.seq

/-- The promise of the call is resolved or rejected. -/
def Finished (call : Call) : Prop := call.rejected = true ∨ ∃ r, call.sending.phase = .returned r

/-- Neither finished nor acked. -/
def Waits (call : Call) : Prop := ¬ call.Finished ∧ call.sending.woken = false

/-- The call once its ack has come; one that waits for it returns at once. -/
def acked (call : Call) : Call :=
  { call with sending :=
    { call.sending with
      phase := match call.sending.phase with
        | .waiting => .returned (.ok ())
        | phase => phase
      woken := true } }

end Call

structure Calls where
  stack : Stack
  calls : List Call

namespace Calls

inductive Event where
  | send (dstPort : ℤ) (msgStr : Bytes)
  | written (i : ℕ) (result : Except Net.Error Unit)
  | rejected (i : ℕ)
  | timeout (i : ℕ)
  | arrive (nowNs : ℤ) (rawPacket : Bytes)

/-- The waiter of a call is resolved. -/
def resume (s : Calls) (waiter : ℕ) : Calls :=
  match s.calls[waiter]? with
  | none => s
  | some call =>
    let (t, sending) := s.stack.pick { call.sending with woken := true }
    { stack := t, calls := s.calls.set waiter { call with sending } }

/-- What the actions of the listener resolve. -/
def perform (s : Calls) (actions : List Stack.Action) : Calls :=
  actions.foldl (fun s action =>
    match action with
    | .wakeup waiter => s.resume waiter
    | _ => s) s

def step (s : Calls) : Event → Option Calls
  | .send dstPort msgStr =>
    match s.stack.send s.calls.length dstPort msgStr with
    | .error _ => none
    | .ok (t, sending, _) =>
        some { stack := t, calls := s.calls ++ [{ sending, rejected := false }] }
  | .written i result => do
    let call ← s.calls[i]?
    match call.sending.phase, call.rejected with
    | .writing, false =>
      let (t, sending) := s.stack.written call.sending result
      let (t, sending) := t.pick sending
      some { stack := t, calls := s.calls.set i { call with sending } }
    | _, _ => none
  | .rejected i => do
    let call ← s.calls[i]?
    match call.sending.phase, call.rejected with
    | .writing, false => some { s with calls := s.calls.set i { call with rejected := true } }
    | _, _ => none
  | .timeout i => do
    let call ← s.calls[i]?
    match call.sending.phase, call.rejected with
    | .waiting, false =>
      let (t, sending, _) := s.stack.timeout call.sending
      some { stack := t, calls := s.calls.set i { call with sending } }
    | _, _ => none
  | .arrive nowNs rawPacket =>
    match s.stack.listen nowNs rawPacket with
    | .error _ => none
    | .ok (t, actions) => some (({ s with stack := t } : Calls).perform actions)

structure Initial (s : Calls) : Prop where
  pendingAcks : s.stack.pendingAcks = ∅
  calls : s.calls = []

/-- Each call that is neither finished nor acked has its awakener under its number. -/
def Owned (s : Calls) : Prop :=
  ∀ (i : ℕ) (call : Call), s.calls[i]? = some call → call.Waits →
    s.stack.pendingAcks.lookup call.seq = some i

/-- A call that finishes has no awakener any more, and each other call has what it had. -/
def CleansUp (s s' : Calls) : Prop :=
  ∀ (i : ℕ) (call call' : Call), s.calls[i]? = some call → ¬ call.Finished →
    s'.calls[i]? = some call' → call'.Finished →
      (∀ seq, s'.stack.pendingAcks.lookup seq ≠ some i) ∧
        ∀ seq j, j ≠ i →
          (s'.stack.pendingAcks.lookup seq = some j ↔ s.stack.pendingAcks.lookup seq = some j)

/-- A new call takes no number of a call that waits, a call that was acked does not return while
another waits under its number, and a write is rejected only once its call was acked. -/
def Orderly (s : Calls) : Event → Prop
  | .send _ _ => ∀ (i : ℕ) (call : Call), s.calls[i]? = some call → call.Waits →
      call.seq ≠ s.stack.nextSeq
  | .written i _ => ∀ call, s.calls[i]? = some call → call.sending.woken = true →
      ∀ (j : ℕ) (other : Call), s.calls[j]? = some other → other.Waits → other.seq ≠ call.seq
  | .rejected i => ∀ call, s.calls[i]? = some call → call.sending.woken = true
  | _ => True

/-- The awakeners are those of the calls that wait. -/
structure Tidy (s : Calls) : Prop where
  slots : ∀ seq i, s.stack.pendingAcks.lookup seq = some i ↔
    ∃ call, s.calls[i]? = some call ∧ call.Waits ∧ call.seq = seq
  picked : ∀ (i : ℕ) (call : Call), s.calls[i]? = some call → call.sending.phase = .waiting →
    call.sending.woken = false

theorem Tidy.owned {s : Calls} (h : Tidy s) : Owned s := fun i call hi hw =>
  (h.slots call.seq i).mpr ⟨call, hi, hw, rfl⟩

theorem Initial.tidy {s : Calls} (h : s.Initial) : Tidy s where
  slots seq i := by simp [h.pendingAcks, h.calls]
  picked i call hi := by simp [h.calls] at hi

section Replace

variable {s : Calls} {i : ℕ} {call call' : Call} {t : Stack}

theorem Tidy.replace (h : Tidy s) (hi : s.calls[i]? = some call)
    (hothers : ∀ seq j, j ≠ i →
      (t.pendingAcks.lookup seq = some j ↔ s.stack.pendingAcks.lookup seq = some j))
    (hown : ∀ seq, t.pendingAcks.lookup seq = some i ↔ call'.Waits ∧ call'.seq = seq)
    (hpick : call'.sending.phase = .waiting → call'.sending.woken = false) :
    Tidy { stack := t, calls := s.calls.set i call' } := by
  have hlt : i < s.calls.length := (List.getElem?_eq_some_iff.mp hi).1
  constructor
  · intro seq j
    by_cases hj : j = i
    · subst hj
      rw [hown seq]
      simp [List.getElem?_set_self hlt]
    · rw [hothers seq j hj, h.slots seq j]
      simp [List.getElem?_set_ne (Ne.symm hj)]
  · intro j other hj
    by_cases he : j = i
    · subst he
      rw [List.getElem?_set_self hlt] at hj
      cases hj
      exact hpick
    · rw [List.getElem?_set_ne (Ne.symm he)] at hj
      exact h.picked j other hj

theorem CleansUp.replace (hi : s.calls[i]? = some call)
    (hothers : ∀ seq j, j ≠ i →
      (t.pendingAcks.lookup seq = some j ↔ s.stack.pendingAcks.lookup seq = some j))
    (hown : call'.Finished → ∀ seq, t.pendingAcks.lookup seq ≠ some i) :
    CleansUp s { stack := t, calls := s.calls.set i call' } := by
  have hlt : i < s.calls.length := (List.getElem?_eq_some_iff.mp hi).1
  intro j c c' hj hc hj' hc'
  by_cases he : j = i
  · subst he
    rw [List.getElem?_set_self hlt] at hj'
    cases hj'
    exact ⟨hown hc', hothers⟩
  · rw [List.getElem?_set_ne (Ne.symm he)] at hj'
    cases hj.symm.trans hj'
    exact absurd hc' hc

end Replace

def finish (s : Calls) (i : ℕ) (call : Call) (result : Except Net.Error Unit) : Calls where
  stack := s.stack.cleanupPending call.seq
  calls := s.calls.set i
    { call with sending := { call.sending with phase := .returned result } }

section Inversion

variable {s s' : Calls} {i : ℕ}

theorem written_cases {r : Except Net.Error Unit} (hs : s.step (.written i r) = some s') :
    ∃ call, s.calls[i]? = some call ∧ call.sending.phase = .writing ∧ call.rejected = false ∧
      ((∃ result, s' = s.finish i call result) ∨
        (call.sending.woken = false ∧ s' = { s with
          calls := s.calls.set i { call with
            sending := { call.sending with phase := .waiting } } })) := by
  obtain ⟨call, hi, hs⟩ := Option.bind_eq_some_iff.mp hs
  refine ⟨call, hi, ?_⟩
  cases hp : call.sending.phase with
  | waiting | returned => simp [hp] at hs
  | writing =>
    cases hr : call.rejected with
    | true => simp [hp, hr] at hs
    | false =>
      simp only [hp, hr, Option.some.injEq] at hs
      subst hs
      refine ⟨rfl, rfl, ?_⟩
      cases r with
      | error e => exact .inl ⟨.error e, by simp [Stack.written, Stack.pick, finish, Call.seq, hr]⟩
      | ok =>
        cases hw : call.sending.woken with
        | true =>
          refine .inl ⟨.ok (), ?_⟩
          simp [Stack.written, Stack.pick, hw, Stack.acked, finish, Call.seq, hr]
        | false =>
          refine .inr ⟨rfl, ?_⟩
          simp [Stack.written, Stack.pick, hw]

theorem rejected_cases (hs : s.step (.rejected i) = some s') :
    ∃ call, s.calls[i]? = some call ∧ call.sending.phase = .writing ∧ call.rejected = false ∧
      s' = { s with calls := s.calls.set i { call with rejected := true } } := by
  obtain ⟨call, hi, hs⟩ := Option.bind_eq_some_iff.mp hs
  refine ⟨call, hi, ?_⟩
  cases hp : call.sending.phase with
  | waiting | returned => simp [hp] at hs
  | writing =>
    cases hr : call.rejected with
    | true => simp [hp, hr] at hs
    | false =>
      simp only [hp, hr, Option.some.injEq] at hs
      exact ⟨rfl, rfl, hs.symm⟩

theorem timeout_cases (hs : s.step (.timeout i) = some s') :
    ∃ call, s.calls[i]? = some call ∧ call.sending.phase = .waiting ∧ call.rejected = false ∧
      ((∃ result, s' = s.finish i call result) ∨
        s' = { s with
          calls := s.calls.set i { call with
            sending := { call.sending with
              attempt := call.sending.attempt + 1
              phase := .writing } } }) := by
  obtain ⟨call, hi, hs⟩ := Option.bind_eq_some_iff.mp hs
  refine ⟨call, hi, ?_⟩
  cases hp : call.sending.phase with
  | writing | returned => simp [hp] at hs
  | waiting =>
    cases hr : call.rejected with
    | true => simp [hp, hr] at hs
    | false =>
      simp only [hp, hr, Option.some.injEq] at hs
      subst hs
      refine ⟨rfl, rfl, ?_⟩
      by_cases hle : s.stack.config.maxRetries ≤ call.sending.attempt
      · refine .inl ⟨.error (Stack.ackTimeout call.seq call.sending.attempt), ?_⟩
        simp [Stack.timeout, hle, finish, Call.seq, hr]
      · refine .inr ?_
        simp [Stack.timeout, hle]

theorem perform_eq_self {actions : List Stack.Action}
    (h : ∀ waiter, Stack.wakes waiter actions = false) (s : Calls) : s.perform actions = s := by
  induction actions generalizing s with
  | nil => rfl
  | cons action actions ih =>
    have hrest (waiter : ℕ) : Stack.wakes waiter actions = false := by
      have := h waiter
      simp only [Stack.wakes, List.any_cons, Bool.or_eq_false_iff] at this
      exact this.2
    cases action with
    | write | callback => exact ih hrest s
    | wakeup waiter =>
      have := h waiter
      simp [Stack.wakes] at this

end Inversion

section Finish

variable {s : Calls} {i : ℕ} {call : Call} {result : Except Net.Error Unit}

theorem Tidy.eq_of_seq (h : Tidy s) (hi : s.calls[i]? = some call) {seq : ℤ}
    (hslot : s.stack.pendingAcks.lookup seq = some i) : call.Waits ∧ call.seq = seq := by
  obtain ⟨call', hi', hw, rfl⟩ := (h.slots seq i).mp hslot
  cases hi.symm.trans hi'
  exact ⟨hw, rfl⟩

/-- A call that returns cleans up nothing but its own slot. -/
theorem Tidy.finish (h : Tidy s) (hi : s.calls[i]? = some call)
    (hsole : ∀ j, s.stack.pendingAcks.lookup call.seq = some j → j = i) :
    Tidy (s.finish i call result) ∧ CleansUp s (s.finish i call result) := by
  have hothers (seq : ℤ) (j : ℕ) (hj : j ≠ i) :
      (s.stack.pendingAcks.erase call.seq).lookup seq = some j ↔
        s.stack.pendingAcks.lookup seq = some j := by
    by_cases he : seq = call.seq
    · subst he
      rw [AList.lookup_erase]
      exact iff_of_false (by simp) fun hslot => hj (hsole j hslot)
    · rw [AList.lookup_erase_ne he]
  have hown (seq : ℤ) : (s.stack.pendingAcks.erase call.seq).lookup seq ≠ some i := by
    by_cases he : seq = call.seq
    · subst he
      simp
    · rw [AList.lookup_erase_ne he]
      exact fun hslot => he (h.eq_of_seq hi hslot).2.symm
  constructor
  · refine h.replace hi hothers (fun seq => iff_of_false (hown seq) ?_) (by simp)
    rintro ⟨⟨hf, -⟩, -⟩
    exact hf (.inr ⟨result, rfl⟩)
  · exact CleansUp.replace hi hothers fun _ => hown

theorem CleansUp.sole (hi : s.calls[i]? = some call) (hf : ¬ call.Finished)
    (hc : CleansUp s (s.finish i call result)) {j : ℕ} (hj : j ≠ i) :
    s.stack.pendingAcks.lookup call.seq ≠ some j := by
  have hlt : i < s.calls.length := (List.getElem?_eq_some_iff.mp hi).1
  obtain ⟨-, hothers⟩ := hc i call _ hi hf (List.getElem?_set_self hlt) (.inr ⟨result, rfl⟩)
  rw [Ne, ← hothers call.seq j hj]
  change ¬ (s.stack.pendingAcks.erase call.seq).lookup call.seq = some j
  simp

end Finish

section Arrive

variable {s s' : Calls} {nowNs : ℤ} {rawPacket : Bytes}

theorem arrive_cases (h : Tidy s) (nowNs : ℤ) (rawPacket : Bytes) :
    ∃ s', s.step (.arrive nowNs rawPacket) = some s' ∧
      ((∃ i call, s.calls[i]? = some call ∧ call.Waits ∧ Packet.Acks call.seq rawPacket ∧
          (∀ seq, s'.stack.pendingAcks.lookup seq =
            (s.stack.pendingAcks.erase call.seq).lookup seq) ∧
          s'.calls = s.calls.set i (call.acked)) ∨
        ((∀ (i : ℕ) (call : Call), s.calls[i]? = some call → call.Waits →
            ¬ Packet.Acks call.seq rawPacket) ∧
          s'.stack.pendingAcks = s.stack.pendingAcks ∧ s'.calls = s.calls)) := by
  obtain ⟨t, actions, hl, -, -, hcases⟩ := s.stack.listen_cases nowNs rawPacket
  refine ⟨({ s with stack := t } : Calls).perform actions, by simp only [step, hl], ?_⟩
  rcases hcases with ⟨seq, i, hacks, hlook, hpend, rfl⟩ | ⟨hnone, hpend, hwakes⟩
  · obtain ⟨call, hi, hw, rfl⟩ := (h.slots seq i).mp hlook
    refine .inl ⟨i, call, hi, hw, hacks, ?_⟩
    change (∀ seq, (resume { s with stack := t } i).stack.pendingAcks.lookup seq = _) ∧
      (resume { s with stack := t } i).calls = _
    cases hp : call.sending.phase with
    | waiting =>
      simp only [resume, hi, Stack.pick, hp, Stack.acked, Stack.cleanupPending, hpend, Call.acked]
      refine ⟨fun seq => ?_, trivial⟩
      by_cases he : seq = call.seq
      · subst he
        rw [AList.lookup_erase]
        exact AList.lookup_erase _ _
      · exact AList.lookup_erase_ne he
    | writing | returned =>
      simp [resume, hi, Stack.pick, hp, hpend, Call.acked]
  · rw [perform_eq_self hwakes]
    refine .inr ⟨fun i call hi hw hacks => ?_, hpend, rfl⟩
    cases (hnone _ hacks).symm.trans (h.owned i call hi hw)

end Arrive

section Runs

variable {s s' : Calls} {e : Event}

theorem cleansUp_of_calls (h : ∀ (i : ℕ) (call : Call), s.calls[i]? = some call →
    s'.calls[i]? = some call) : CleansUp s s' := by
  intro i call call' hi hf hi' hf'
  cases (h i call hi).symm.trans hi'
  exact absurd hf' hf

theorem step_send {dstPort : ℤ} {msgStr : Bytes} (h : Tidy s)
    (ho : Orderly s (.send dstPort msgStr)) (hs : s.step (.send dstPort msgStr) = some s') :
    Tidy s' ∧ CleansUp s s' := by
  simp only [step, Stack.send_eq, Option.some.injEq] at hs
  subst hs
  have hold {i : ℕ} {call : Call} (hi : s.calls[i]? = some call) : i < s.calls.length :=
    (List.getElem?_eq_some_iff.mp hi).1
  refine ⟨⟨fun seq i => ?_, fun i call hi hp => ?_⟩, cleansUp_of_calls fun i call hi => ?_⟩
  · by_cases he : seq = s.stack.nextSeq
    · subst he
      rw [AList.lookup_insert]
      constructor
      · intro hi
        obtain rfl := Option.some.inj hi
        exact ⟨_, List.getElem?_concat_length, ⟨by simp [Call.Finished], rfl⟩, rfl⟩
      · rintro ⟨call, hi, hw, hseq⟩
        rcases getElem?_concat_eq_some hi with hi | ⟨rfl, -⟩
        · exact absurd hseq (ho i call hi hw)
        · rfl
    · rw [AList.lookup_insert_ne he, AList.lookup_erase_ne he, h.slots]
      constructor
      · rintro ⟨call, hi, hw, hseq⟩
        exact ⟨call, (List.getElem?_append_left (hold hi)).trans hi, hw, hseq⟩
      · rintro ⟨call, hi, hw, rfl⟩
        rcases getElem?_concat_eq_some hi with hi | ⟨-, rfl⟩
        · exact ⟨call, hi, hw, rfl⟩
        · exact absurd rfl he
  · rcases getElem?_concat_eq_some hi with hi | ⟨-, rfl⟩
    · exact h.picked i call hi hp
    · rfl
  · exact (List.getElem?_append_left (hold hi)).trans hi

theorem Tidy.move {i : ℕ} {call call' : Call} (h : Tidy s) (hi : s.calls[i]? = some call)
    (hf : ¬ call'.Finished) (hw : call'.Waits ↔ call.Waits) (hseq : call'.seq = call.seq)
    (hpick : call'.sending.phase = .waiting → call'.sending.woken = false) :
    Tidy { s with calls := s.calls.set i call' } ∧
      CleansUp s { s with calls := s.calls.set i call' } := by
  constructor
  · refine h.replace hi (fun _ _ _ => Iff.rfl) (fun seq => ?_) hpick
    rw [h.slots, hw, hseq]
    constructor
    · rintro ⟨c, hc, hwaits⟩
      cases hi.symm.trans hc
      exact hwaits
    · rintro hwaits
      exact ⟨call, hi, hwaits⟩
  · exact CleansUp.replace hi (fun _ _ _ => Iff.rfl) fun hf' => absurd hf' hf

theorem step_written {i : ℕ} {r : Except Net.Error Unit} (h : Tidy s)
    (ho : Orderly s (.written i r)) (hs : s.step (.written i r) = some s') :
    Tidy s' ∧ CleansUp s s' := by
  obtain ⟨call, hi, hphase, hrejected, ⟨result, rfl⟩ | ⟨hwoken, rfl⟩⟩ := written_cases hs
  · refine h.finish hi fun j hj => ?_
    obtain ⟨other, hother, hw, hseq⟩ := (h.slots _ _).mp hj
    by_contra hne
    cases hwoken : call.sending.woken with
    | true => exact ho call hi hwoken j other hother hw hseq
    | false =>
      have hwaits : call.Waits := ⟨by simp [Call.Finished, hrejected, hphase], hwoken⟩
      cases hj.symm.trans (h.owned i call hi hwaits)
      exact hne rfl
  · refine h.move hi ?_ ?_ rfl fun _ => hwoken
    · simp [Call.Finished, hrejected]
    · simp [Call.Waits, Call.Finished, hrejected, hphase]

theorem step_rejected {i : ℕ} (h : Tidy s) (ho : Orderly s (.rejected i))
    (hs : s.step (.rejected i) = some s') : Tidy s' ∧ CleansUp s s' := by
  obtain ⟨call, hi, hphase, hrejected, rfl⟩ := rejected_cases hs
  have hnone (seq : ℤ) : s.stack.pendingAcks.lookup seq ≠ some i := by
    intro hslot
    cases (h.eq_of_seq hi hslot).1.2.symm.trans (ho call hi)
  constructor
  · refine h.replace hi (fun _ _ _ => Iff.rfl) (fun seq => iff_of_false (hnone seq) ?_) ?_
    · rintro ⟨⟨hf, -⟩, -⟩
      exact hf (.inl rfl)
    · intro hp
      cases hp.symm.trans hphase
  · exact CleansUp.replace hi (fun _ _ _ => Iff.rfl) fun _ => hnone

theorem step_timeout {i : ℕ} (h : Tidy s) (hs : s.step (.timeout i) = some s') :
    Tidy s' ∧ CleansUp s s' := by
  obtain ⟨call, hi, hphase, hrejected, hcases⟩ := timeout_cases hs
  have hwoken := h.picked i call hi hphase
  have hwaits : call.Waits := ⟨by simp [Call.Finished, hrejected, hphase], hwoken⟩
  rcases hcases with ⟨result, rfl⟩ | rfl
  · refine h.finish hi fun j hj => ?_
    cases hj.symm.trans (h.owned i call hi hwaits)
    rfl
  · refine h.move hi ?_ ?_ rfl ?_
    · simp [Call.Finished, hrejected]
    · simp [Call.Waits, Call.Finished, hrejected, hphase]
    · simp

theorem step_arrive {nowNs : ℤ} {rawPacket : Bytes} (h : Tidy s)
    (hs : s.step (.arrive nowNs rawPacket) = some s') : Tidy s' ∧ CleansUp s s' := by
  obtain ⟨s₁, hs₁, hcases⟩ := arrive_cases h nowNs rawPacket
  cases hs₁.symm.trans hs
  rcases hcases with ⟨i, call, hi, hw, -, hpend, hcalls⟩ | ⟨-, hpend, hcalls⟩
  · have hslot := h.owned i call hi hw
    have hothers (seq : ℤ) (j : ℕ) (hj : j ≠ i) : s'.stack.pendingAcks.lookup seq = some j ↔
        s.stack.pendingAcks.lookup seq = some j := by
      rw [hpend]
      by_cases he : seq = call.seq
      · subst he
        rw [AList.lookup_erase, hslot]
        simp [Ne.symm hj]
      · rw [AList.lookup_erase_ne he]
    have hown (seq : ℤ) : s'.stack.pendingAcks.lookup seq ≠ some i := by
      rw [hpend]
      by_cases he : seq = call.seq
      · subst he
        simp
      · rw [AList.lookup_erase_ne he]
        exact fun hi' => he (h.eq_of_seq hi hi').2.symm
    obtain ⟨t, calls⟩ := s'
    dsimp only at hcalls
    subst hcalls
    constructor
    · refine h.replace hi hothers (fun seq => iff_of_false (hown seq) ?_) fun hp => ?_
      · rintro ⟨⟨-, hwoken⟩, -⟩
        cases hwoken
      · cases hphase : call.sending.phase <;> simp [Call.acked, hphase] at hp
    · exact CleansUp.replace hi hothers fun _ => hown
  · refine ⟨⟨fun seq i => ?_, ?_⟩, cleansUp_of_calls fun i call hi => hcalls ▸ hi⟩
    · rw [hpend, hcalls]
      exact h.slots seq i
    · rw [hcalls]
      exact h.picked

theorem Tidy.step (h : Tidy s) (ho : Orderly s e) (hs : s.step e = some s') :
    Tidy s' ∧ CleansUp s s' := by
  cases e with
  | send dstPort msgStr => exact step_send h ho hs
  | written i r => exact step_written h ho hs
  | rejected i => exact step_rejected h ho hs
  | timeout i => exact step_timeout h hs
  | arrive nowNs rawPacket => exact step_arrive h hs

/-- An event that is not orderly takes a slot at once, or leaves one behind. -/
theorem Tidy.orderly (h : Tidy s) (hs : s.step e = some s') (hown : Owned s')
    (hc : CleansUp s s') : Orderly s e := by
  cases e with
  | timeout | arrive => trivial
  | send dstPort msgStr =>
    intro i call hi hw hseq
    simp only [Calls.step, Stack.send_eq, Option.some.injEq] at hs
    subst hs
    have hlt : i < s.calls.length := (List.getElem?_eq_some_iff.mp hi).1
    have hslot := hown i call ((List.getElem?_append_left hlt).trans hi) hw
    rw [hseq, AList.lookup_insert] at hslot
    exact hlt.ne (Option.some.inj hslot).symm
  | written i r =>
    intro call hi hwoken j other hj hw hseq
    obtain ⟨call', hi', hphase, hrejected, ⟨result, rfl⟩ | ⟨hunwoken, -⟩⟩ := written_cases hs
    · cases hi.symm.trans hi'
      have hne : j ≠ i := by
        rintro rfl
        cases hi.symm.trans hj
        cases hwoken.symm.trans hw.2
      have hf : ¬ call.Finished := by simp [Call.Finished, hrejected, hphase]
      exact hc.sole hi hf hne (hseq ▸ h.owned j other hj hw)
    · cases hi.symm.trans hi'
      cases hwoken.symm.trans hunwoken
  | rejected i =>
    intro call hi
    obtain ⟨call', hi', hphase, hrejected, rfl⟩ := rejected_cases hs
    cases hi.symm.trans hi'
    by_contra hwoken
    have hf : ¬ call.Finished := by simp [Call.Finished, hrejected, hphase]
    have hlt : i < s.calls.length := (List.getElem?_eq_some_iff.mp hi).1
    obtain ⟨hnone, -⟩ := hc i call _ hi hf (List.getElem?_set_self hlt) (.inl rfl)
    exact hnone _ (h.owned i call hi ⟨hf, by simpa using hwoken⟩)

/-- The ack of a call that waits completes it: at once, or when its write returns. -/
theorem Tidy.completes {i : ℕ} {call : Call} (h : Tidy s) (hi : s.calls[i]? = some call)
    (hw : call.Waits) (nowNs : ℤ) {rawPacket : Bytes} (hacks : Packet.Acks call.seq rawPacket) :
    ∃ s', s.step (.arrive nowNs rawPacket) = some s' ∧ s'.calls[i]? = some call.acked := by
  obtain ⟨s', hs, hcases⟩ := arrive_cases h nowNs rawPacket
  refine ⟨s', hs, ?_⟩
  rcases hcases with ⟨j, other, hj, hwj, hacksj, -, hcalls⟩ | ⟨hno, -⟩
  · have hslot := h.owned j other hj hwj
    rw [hacksj.unique hacks, h.owned i call hi hw] at hslot
    obtain rfl := Option.some.inj hslot
    cases hi.symm.trans hj
    rw [hcalls, List.getElem?_set_self (List.getElem?_eq_some_iff.mp hi).1]
  · exact absurd hacks (hno i call hi hw)

/-- **Slots are owned in orderly runs.** After a run of orderly events each call that waits has its
awakener, and the ack of its number completes it. The next event keeps that, and cleans up its own
slot only, exactly if it is orderly too. -/
theorem owned_of_orderly {s₀ : Calls} (h₀ : s₀.Initial) (hrun : Reaches Calls.step Orderly s₀ s) :
    Owned s ∧
      (∀ (i : ℕ) (call : Call), s.calls[i]? = some call → call.Waits →
        ∀ nowNs rawPacket, Packet.Acks call.seq rawPacket →
          ∃ s', s.step (.arrive nowNs rawPacket) = some s' ∧ s'.calls[i]? = some call.acked) ∧
      ∀ e s', s.step e = some s' → (Orderly s e ↔ Owned s' ∧ CleansUp s s') := by
  have h : Tidy s := hrun.invariant (fun s e s' h ho hs => (h.step ho hs).1) h₀.tidy
  refine ⟨h.owned, fun i call hi hw nowNs rawPacket hacks => h.completes hi hw nowNs hacks,
    fun e s' hs => ?_⟩
  constructor
  · intro ho
    obtain ⟨h', hc⟩ := h.step ho hs
    exact ⟨h'.owned, hc⟩
  · rintro ⟨hown, hc⟩
    exact h.orderly hs hown hc

end Runs

def fresh : Calls where
  stack := Stack.create Stack.defaultConfig 0 9000
  calls := []

theorem fresh_initial : fresh.Initial := ⟨rfl, rfl⟩

def sending (dstPort : ℤ) (msgStr : Bytes) : Calls where
  stack := { fresh.stack with
    nextSeq := 1
    pendingAcks := ((∅ : Hashtbl ℤ ℕ).erase 0).insert 0 0 }
  calls := [{
    sending := {
      msg := ⟨0, msgStr, dstPort, Packet.wire .data 0 0 9000 msgStr⟩
      attempt := 0
      phase := .writing
      woken := false }
    rejected := false }]

theorem step_sending (dstPort : ℤ) (msgStr : Bytes) :
    fresh.step (.send dstPort msgStr) = some (sending dstPort msgStr) := by
  simp only [step, Stack.send_eq]
  rfl

/-- A second call, while the first one waits. -/
def overlapping (msg₁ msg₂ : Bytes) : Calls where
  stack := { (sending 9001 msg₁).stack with
    nextSeq := 2
    pendingAcks := ((sending 9001 msg₁).stack.pendingAcks.erase 1).insert 1 1 }
  calls := (sending 9001 msg₁).calls ++ [{
    sending := {
      msg := ⟨1, msg₂, 9001, Packet.wire .data 1 0 9000 msg₂⟩
      attempt := 0
      phase := .writing
      woken := false }
    rejected := false }]

theorem step_overlapping (msg₁ msg₂ : Bytes) :
    (sending 9001 msg₁).step (.send 9001 msg₂) = some (overlapping msg₁ msg₂) := by
  simp only [step, Stack.send_eq]
  rfl

theorem overlapping_run (msg₁ msg₂ : Bytes) : ∃ s,
    Reaches Calls.step Orderly (overlapping msg₁ msg₂) s ∧
      s.calls[0]? = (sending 9001 msg₁).calls[0]? ∧
      ∃ call, s.calls[1]? = some call ∧ call.sending.phase = .returned (.ok ()) := by
  have hdecode : Packet.decode (Packet.wire .ack 0 1 9001 []) = _ :=
    Packet.decode_wire .ack 9001 [] (by decide) (by decide)
  rw [if_pos (by decide)] at hdecode
  have hslot : (overlapping msg₁ msg₂).stack.pendingAcks.lookup 1 = some 1 := AList.lookup_insert _
  have harrive : (overlapping msg₁ msg₂).step (.arrive 0 (Packet.wire .ack 0 1 9001 [])) =
      some (({ overlapping msg₁ msg₂ with
        stack := { (overlapping msg₁ msg₂).stack with
          pendingAcks := (overlapping msg₁ msg₂).stack.pendingAcks.erase 1 } } : Calls).perform
            [.wakeup 1]) := by
    rw [step, Stack.listen_ack_some 0 hdecode rfl hslot]
  refine ⟨_, .head (.arrive 0 (Packet.wire .ack 0 1 9001 [])) trivial harrive
    (.head (.written 1 (.ok ())) ?_ rfl (.refl _)), rfl, _, rfl, rfl⟩
  rintro call hcall - (_ | _ | j) other hj hwaits
  · cases hcall
    cases hj
    exact zero_ne_one
  · cases hj
    cases hwaits.2
  · cases hj

/-- Two overlapping sends. The second is acked and returns, and the first still has its awakener. -/
theorem owned_of_orderly_overlapping : ∃ s, Reaches Calls.step Orderly fresh s ∧ Owned s ∧
    (∃ call, s.calls[0]? = some call ∧ call.Waits ∧
      s.stack.pendingAcks.lookup call.seq = some 0) ∧
    ∃ call, s.calls[1]? = some call ∧ call.sending.phase = .returned (.ok ()) := by
  obtain ⟨s, hrun, hfirst, hsecond⟩ := overlapping_run (bytes "hi") (bytes "yo")
  have hreach : Reaches Calls.step Orderly fresh s := by
    refine .head (.send 9001 (bytes "hi")) ?_ (step_sending _ _)
      (.head (.send 9001 (bytes "yo")) ?_ (step_overlapping _ _) hrun)
    · intro i call hi
      simp [fresh] at hi
    · rintro (_ | i) call hi -
      · cases hi
        decide
      · simp [sending] at hi
  have hwaits : (sending 9001 (bytes "hi")).calls[0].Waits :=
    ⟨by simp [Call.Finished, sending], rfl⟩
  have howned := (owned_of_orderly fresh_initial hreach).1
  exact ⟨s, hreach, howned, ⟨_, hfirst, hwaits, howned 0 _ hfirst hwaits⟩, hsecond⟩

/-- **A rejected write leaves its awakener.** The call ends, and its slot stays. -/
theorem rejected_leaves_awakener :
    ¬ ∀ s, Reaches step (fun _ _ => True) fresh s →
      Owned s ∧ ∀ e s', s.step e = some s' → CleansUp s s' := by
  intro hall
  obtain ⟨-, hclean⟩ := hall (sending 9001 (bytes "hi"))
    (.head (.send 9001 (bytes "hi")) trivial (step_sending _ _) (.refl _))
  obtain ⟨hnone, -⟩ := hclean (.rejected 0) _ rfl 0 _ _ rfl (by simp [Call.Finished])
    rfl (.inl rfl)
  exact hnone 0 (AList.lookup_insert _)

end Calls

end OCamlStudy.NanoOs
