import OCamlStudy.NanoOs.Kernel

/-! # Lines over a network that loses nothing

From every state in which no packet is on its way, a line that arrives at once is
evaluated on the files as they are, and its reply is printed. So lines that are
sent one after another print the replies of one run.
-/

namespace OCamlStudy.NanoOs

open OCaml Program Shell

namespace System

variable {s : System} {payload : Bytes} {t : Stack} {nowNs : ℤ} {calls : List Stack.Action}
  {first : ℤ}

theorem step_quiet (hq : s.Quiet) (payload : Bytes) :
    s.step (.send payload) = some (s.sent payload .writing) := by
  simp only [step, Stack.send_eq]
  simp [hq.inFlight, datagrams, sent, calling, waiting, dataOut, outgoing]

theorem step_sent : (s.sent payload .writing).step (.written s.sends.length (.ok ())) =
    some (s.sent payload .waiting) := by
  simp [step, calling, sent, Stack.written]

theorem step_fresh (hq : s.Quiet) (hnow : s.clock ≤ nowNs) (hlen : payload.length < 0x10000)
    (hlive : ¬ s.receiver.Live nowNs (s.srcPort, s.sender.nextSeq)) :
    (s.sent payload .waiting).step (.deliver 0 false nowNs) =
      some (s.answered payload (s.receiver.note nowNs (s.srcPort, s.sender.nextSeq)) nowNs
        [.callback s.srcPort payload]) := by
  rw [step_deliver_receiver (s := s.sent payload .waiting) (k := 0) false
    (d := s.dataOut payload) rfl rfl hnow
    (Stack.listen_data_fresh (decode_dataOut hq hlen) rfl hlive)]
  simp [sent, answered, received, datagrams, handed, dataOut, ackBack, calling]

theorem step_wakened : (s.wakened payload t nowNs calls).step (.acked s.sends.length) =
    some (s.exchanged payload t nowNs calls) := by
  simp [step, calling, wakened, exchanged, received, Stack.acked, Stack.cleanupPending, outgoing]

theorem Unreused.not_live (hu : Unreused first s) (hlt : s.sends.length < 256) :
    ¬ s.receiver.Live nowNs (s.srcPort, s.sender.nextSeq) := by
  rintro ⟨-, t, hseen, -⟩
  obtain ⟨i, m, hm, hkey, -⟩ := hu.seen _ t hseen
  have hi := lt_of_message hm
  have hseq := hu.seq i m hm
  have hnext := hu.nextSeq
  have : s.sender.nextSeq = m.seq := (Prod.ext_iff.mp hkey).2
  omega

theorem sent_within (hr : s.Recorded) :
    (s.sent payload .waiting).WithinWindow (.deliver 0 false nowNs) := by
  intro d hd _ t ht
  obtain rfl : s.dataOut payload = d := Option.some.inj hd
  obtain ⟨m, hm⟩ := hr _ ht
  exact absurd (lt_of_message hm) (lt_irrefl _)

theorem answered_within (hw : s.Wired) (hport : t.myPort = s.receiver.myPort) :
    (s.answered payload t nowNs calls).WithinWindow (.deliver 0 false nowNs) := by
  intro d hd hdst
  obtain rfl : s.ackBack = d := Option.some.inj hd
  have hsrc : s.ackBack.dst = s.sender.myPort := Int.emod_eq_of_lt hw.sender.1 hw.sender.2
  exact absurd (hsrc.symm.trans (hdst.trans hport)) hw.distinct

end System

namespace Duplex

/-- Events of the network that start no call and hand nothing to the kernel. -/
def Calm (d : Duplex) (e : Event) : Prop :=
  d.WithinWindow e ∧ (∀ msgStr, e ≠ .up (.send msgStr) ∧ e ≠ .down (.send msgStr)) ∧
    ∀ d', d.step e = some d' → d'.requests.callbacks = d.requests.callbacks

/-- No packet is on its way and every call has returned. -/
structure Idle (d : Duplex) (nowNs : ℤ) : Prop where
  up : d.up.Quiet
  down : d.down.Quiet
  clock : d.requests.clock ≤ nowNs ∧ d.responses.clock ≤ nowNs

section Calm

variable {d d' : Duplex} {s : System} {e : System.Event} {payload : Bytes} {nowNs : ℤ}

theorem calm_up (h : d.up.step e = some s) (hw : d.up.WithinWindow e)
    (hne : ∀ msgStr, e ≠ .send msgStr) (hcalls : s.callbacks = d.requests.callbacks)
    (hrest : Reaches step Calm (d.setUp s) d') : Reaches step Calm d d' := by
  have hstep : d.step (.up e) = some (d.setUp s) := by rw [step, h, Option.map_some]
  refine .head (.up e) ⟨hw, ?_, ?_⟩ hstep hrest
  · intro msgStr
    constructor
    · intro he
      cases he
      exact hne msgStr rfl
    · rintro ⟨⟩
  · intro d₁ h₁
    rw [hstep] at h₁
    cases h₁
    exact hcalls

theorem calm_down (h : d.down.step e = some s) (hw : d.down.WithinWindow e)
    (hne : ∀ msgStr, e ≠ .send msgStr) (hrest : Reaches step Calm (d.setDown s) d') :
    Reaches step Calm d d' := by
  have hstep : d.step (.down e) = some (d.setDown s) := by rw [step, h, Option.map_some]
  refine .head (.down e) ⟨hw, ?_, ?_⟩ hstep hrest
  · intro msgStr
    constructor
    · rintro ⟨⟩
    · intro he
      cases he
      exact hne msgStr rfl
  · intro d₁ h₁
    rw [hstep] at h₁
    cases h₁
    rfl

theorem calm_ack {t : Stack} {calls : List Stack.Action}
    (hd : d.up = s.answered payload t nowNs calls) (hq : s.Quiet) (hw : s.Wired)
    (hport : t.myPort = s.receiver.myPort) :
    Reaches step Calm d (d.setUp (s.exchanged payload t nowNs calls)) := by
  have hcalls : d.requests.callbacks = s.callbacks ++ System.handed s.sends.length calls :=
    congrArg System.callbacks hd
  have hstep : d.up.step (.deliver 0 false nowNs) = some (s.wakened payload t nowNs calls) := by
    rw [hd]
    exact System.step_answered hq hw hport
  have hwithin : d.up.WithinWindow (.deliver 0 false nowNs) := by
    rw [hd]
    exact System.answered_within hw hport
  refine calm_up hstep hwithin ?_ hcalls.symm ?_
  · rintro msgStr ⟨⟩
  refine calm_up (d := d.setUp _) System.step_wakened trivial ?_ rfl (.refl _)
  rintro msgStr ⟨⟩

theorem calm_reply (hd : d.down = s.sent payload .writing) (hq : s.Quiet) (hw : s.Wired)
    (hnow : s.clock ≤ nowNs) (hlen : payload.length < 0x10000) (hr : s.Recorded)
    (hlive : ¬ s.receiver.Live nowNs (s.srcPort, s.sender.nextSeq)) :
    Reaches step Calm d (d.setDown
      (s.exchanged payload (s.receiver.note nowNs (s.srcPort, s.sender.nextSeq)) nowNs
        [.callback s.srcPort payload])) := by
  have hstep : d.down.step (.written s.sends.length (.ok ())) = some (s.sent payload .waiting) := by
    rw [hd]
    exact System.step_sent
  have hport : (s.receiver.note nowNs (s.srcPort, s.sender.nextSeq)).myPort = s.receiver.myPort :=
    Stack.pruneSeen_myPort
  refine calm_down hstep trivial ?_ ?_
  · rintro msgStr ⟨⟩
  refine calm_down (d := d.setDown _) (System.step_fresh hq hnow hlen hlive)
    (System.sent_within hr) ?_ ?_
  · rintro msgStr ⟨⟩
  refine calm_down (d := d.setDown _) (System.step_answered hq hw hport)
    (System.answered_within hw hport) ?_ ?_
  · rintro msgStr ⟨⟩
  refine calm_down (d := d.setDown _) System.step_wakened trivial ?_ (.refl _)
  rintro msgStr ⟨⟩

end Calm

section Line

variable (d : Duplex) (cmdStr reply : Bytes) (nowNs : ℤ)

/-- The stack of the server has handed a line over, and its ack is on its way. -/
def arrived : Duplex :=
  d.setUp (d.up.answered cmdStr (d.server.note nowNs (d.up.srcPort, d.client.nextSeq)) nowNs
    [.callback d.up.srcPort cmdStr])

/-- The reply is on its way, too. -/
def replied : Duplex :=
  (d.arrived cmdStr nowNs).setDown ((d.arrived cmdStr nowNs).down.sent reply .writing)

/-- The line has been acked. -/
def settled : Duplex :=
  (d.replied cmdStr reply nowNs).setUp (d.up.exchanged cmdStr (d.replied cmdStr reply nowNs).server
    nowNs [.callback d.up.srcPort cmdStr])

/-- The direction of the reply before its `send`, with the client that has been acked. -/
def before : System :=
  { (d.arrived cmdStr nowNs).down with receiver := (d.settled cmdStr reply nowNs).client }

theorem arrived_port : (d.arrived cmdStr nowNs).server.myPort = d.server.myPort :=
  Stack.pruneSeen_myPort

theorem arrived_nextSeq : (d.arrived cmdStr nowNs).server.nextSeq = d.server.nextSeq :=
  Stack.pruneSeen_nextSeq

variable {d cmdStr reply nowNs}

section Idle

variable (hi : d.Idle nowNs)

include hi

theorem line_sent : d.step (.up (.send cmdStr)) = some (d.setUp (d.up.sent cmdStr .writing)) := by
  rw [step, System.step_quiet hi.up, Option.map_some]

omit hi in
theorem line_written : Reaches step Calm (d.setUp (d.up.sent cmdStr .writing))
    (d.setUp (d.up.sent cmdStr .waiting)) := by
  refine calm_up (d := d.setUp _) System.step_sent trivial ?_ rfl (.refl _)
  rintro msgStr ⟨⟩

theorem arrived_quiet : (d.arrived cmdStr nowNs).down.Quiet := by
  refine ⟨?_, hi.down.inFlight, hi.down.returned⟩
  have hnext : (d.arrived cmdStr nowNs).down.sender.nextSeq = d.down.sender.nextSeq :=
    arrived_nextSeq d cmdStr nowNs
  rw [hnext]
  exact hi.down.nextSeq

theorem reply_sent : (d.arrived cmdStr nowNs).step (.down (.send reply)) =
    some (d.replied cmdStr reply nowNs) := by
  rw [step, System.step_quiet (arrived_quiet hi)]
  rfl

theorem before_quiet : (d.before cmdStr reply nowNs).Quiet := by
  have hq : (d.arrived cmdStr nowNs).down.Quiet := arrived_quiet hi
  exact ⟨hq.nextSeq, hq.inFlight, hq.returned⟩

end Idle

section Unreused

variable {first second : ℤ} (hu : Unreused first second d)

include hu

theorem line_arrives (hi : d.Idle nowNs) (hcalls : d.requests.sends.length < 256)
    (hlen : cmdStr.length < 0x10000) :
    (d.setUp (d.up.sent cmdStr .waiting)).step (.up (.deliver 0 false nowNs)) =
      some (d.arrived cmdStr nowNs) := by
  have hfresh := System.step_fresh hi.up hi.clock.1 hlen (hu.up.not_live hcalls)
  rw [step, up_setUp, hfresh]
  rfl

theorem before_wired : (d.before cmdStr reply nowNs).Wired := by
  have hport : (d.before cmdStr reply nowNs).sender.myPort = d.down.sender.myPort :=
    arrived_port d cmdStr nowNs
  constructor
  · rw [hport]
    exact hu.down.wired.sender
  · exact hu.down.wired.receiver
  · rw [hport]
    exact hu.down.wired.distinct

theorem before_not_live (hsends : d.responses.sends.length < 256) :
    ¬ (d.before cmdStr reply nowNs).receiver.Live nowNs
      ((d.before cmdStr reply nowNs).srcPort, (d.before cmdStr reply nowNs).sender.nextSeq) := by
  have hsrc : (d.before cmdStr reply nowNs).srcPort = d.down.srcPort :=
    congrArg (· % 0x10000) (arrived_port d cmdStr nowNs)
  have hseq : (d.before cmdStr reply nowNs).sender.nextSeq = d.down.sender.nextSeq :=
    arrived_nextSeq d cmdStr nowNs
  rw [hsrc, hseq]
  exact hu.down.not_live hsends

theorem reply_returns (hi : d.Idle nowNs) (hsends : d.responses.sends.length < 256)
    (hlen : reply.length < 0x10000) :
    ∃ d', Reaches step Calm (d.replied cmdStr reply nowNs) d' ∧ d'.Idle nowNs ∧
      d'.requests.sends.length = d.requests.sends.length + 1 ∧
      d'.responses.callbacks.map Callback.payload =
        d.responses.callbacks.map Callback.payload ++ [reply] := by
  have hq : (d.before cmdStr reply nowNs).Quiet := before_quiet hi
  have hack : Reaches step Calm (d.replied cmdStr reply nowNs) (d.settled cmdStr reply nowNs) :=
    calm_ack (s := d.up) rfl hi.up hu.up.wired (arrived_port d cmdStr nowNs)
  have hshown := calm_reply (d := d.settled cmdStr reply nowNs) (s := d.before cmdStr reply nowNs)
    rfl hq (before_wired hu) hi.clock.2 hlen hu.recorded.2 (before_not_live hu hsends)
  refine ⟨_, hack.trans hshown, ?_, List.length_append, List.map_append⟩
  constructor
  · have hquiet : (d.settled cmdStr reply nowNs).up.Quiet := System.exchanged_quiet hi.up
    refine ⟨?_, hquiet.inFlight, hquiet.returned⟩
    change 0 ≤ (Stack.pruneSeen _ nowNs).nextSeq ∧ (Stack.pruneSeen _ nowNs).nextSeq < 256
    rw [Stack.pruneSeen_nextSeq]
    exact hquiet.nextSeq
  · exact System.exchanged_quiet hq
  · exact ⟨le_rfl, le_rfl⟩

end Unreused

end Line

end Duplex

namespace Kernel

variable {n : ℕ} {dev : Device n}

section Turns

variable {k : Kernel dev} {i : ℕ} {w : World dev} {r : Request} {x : FsProg Bytes} {m fs : Fs}
  {disk : dev.State} {reply : Bytes} {net : Duplex}

/-- A request that takes its turns without any other in between. -/
theorem turns (hstep : k.world.step i = some w) (hr : w.requests[i]? = some r)
    (hs : r.started = true) (hp : r.prog = (x.settle m).1) (hfs : w.fs = (x.settle m).2)
    (hrun : x.run dev.handler m w.disk = (.done reply, fs, disk))
    (hsend : k.net.step (.down (.send reply)) = some net) :
    ∃ k₁ k₂, k.turn i = some k₁ ∧ Reaches step WithinWindow k₁ k₂ ∧ k₂.net = net ∧
      k₂.world.fs = fs ∧ k₂.world.disk = disk := by
  induction x generalizing k w r m with
  | ret =>
    cases hrun
    have hreply : w.replyOf i = some reply := World.replyOf_eq_some_iff.mpr ⟨r, hr, hs, hp⟩
    refine ⟨⟨net, w, k.answered ++ [i]⟩, _, ?_, .refl _, rfl, hfs, rfl⟩
    rw [turn, hstep, Option.bind_eq_bind, Option.bind_some]
    simp only [hreply, hsend]
    rfl
  | raise exn => cases hrun
  | get c ih => exact ih m hstep hr hs hp hfs hrun hsend
  | set m' c ih => exact ih hstep hr hs hp hfs hrun hsend
  | call q c ih =>
    have hcall : r.prog = .call q c := hp
    have hnone : w.replyOf i = none := by
      rw [World.replyOf, hr, Option.bind_eq_bind, Option.bind_some, hs, hcall]
    have hturn : k.turn i = some { k with world := w } := by
      rw [turn, hstep, Option.bind_eq_bind, Option.bind_some]
      simp only [hnone]
      rfl
    rw [Prog.run] at hrun
    rcases hq : dev.handler q w.disk with ⟨res | exn | _, disk'⟩
    · rw [hq] at hrun
      have hnext : w.step i = some ⟨((c res).settle w.fs).2, disk', w.requests.set i
          (({ r with prog := ((c res).settle w.fs).1 } : Request).observe
            (dev.contents w.disk) q)⟩ := by
        rw [World.step, hr, Option.bind_eq_bind, Option.bind_some, if_pos hs]
        simp only [hcall, hq]
      have hm : w.fs = m := hfs
      subst hm
      obtain ⟨k₁, k₂, h₁, hreach, hend⟩ := ih res (k := { k with world := w }) hnext
        (List.getElem?_set_self (List.getElem?_eq_some_iff.mp hr).1)
        ((Request.observe_started _ _ _).trans hs) (Request.observe_prog _ _ _) rfl hrun hsend
      exact ⟨_, k₂, hturn, .head (.turn i) trivial h₁ hreach, hend⟩
    · rw [hq] at hrun
      cases hrun
    · rw [hq] at hrun
      cases hrun

theorem accept_now {c : Callback}
    (hset : (eval c.payload).settle k.world.fs = (.ret reply, fs))
    (hsend : k.net.step (.down (.send reply)) = some net) :
    ∃ k', k.accept c = some k' ∧ k'.world.Replied k.world.requests.length reply := by
  have hr : (k.world.arrive c.payload).requests[k.world.requests.length]? =
      some (.waiting c.payload (dev.contents k.world.disk)) := List.getElem?_concat_length
  have hstep := World.step_start hr rfl rfl hset
  obtain ⟨w, hw⟩ : ∃ w, (k.world.arrive c.payload).step k.world.requests.length = some w :=
    ⟨_, hstep⟩
  have hreplied : w.Replied k.world.requests.length reply := by
    rw [hw] at hstep
    cases hstep
    exact ⟨_, List.getElem?_set_self (List.getElem?_eq_some_iff.mp hr).1, rfl, rfl⟩
  refine ⟨⟨net, w, k.answered ++ [k.world.requests.length]⟩, ?_, hreplied⟩
  rw [accept, turn, hw, Option.bind_eq_bind, Option.bind_some]
  simp only [World.replyOf_eq_some_iff.mpr hreplied, hsend]
  rfl

theorem accepts {c : Callback}
    (hrun : (eval c.payload).run dev.handler k.world.fs k.world.disk = (.done reply, fs, disk))
    (hsend : k.net.step (.down (.send reply)) = some net) :
    ∃ k₁ k₂, k.accept c = some k₁ ∧ Reaches step WithinWindow k₁ k₂ ∧ k₂.net = net ∧
      k₂.world.fs = fs ∧ k₂.world.disk = disk := by
  have hr : (k.world.arrive c.payload).requests[k.world.requests.length]? =
      some (.waiting c.payload (dev.contents k.world.disk)) := List.getElem?_concat_length
  have hstep := World.step_start hr rfl rfl rfl
  exact turns (k := { k with world := k.world.arrive c.payload }) hstep
    (List.getElem?_set_self (List.getElem?_eq_some_iff.mp hr).1) rfl rfl rfl hrun hsend

end Turns

theorem step_of_network {k : Kernel dev} {e : Duplex.Event} {net : Duplex}
    (hne : ∀ msgStr, e ≠ .down (.send msgStr)) (h : k.net.step e = some net) :
    k.step (.network e) =
      (net.requests.callbacks.drop k.net.requests.callbacks.length).foldlM accept
        { k with net } := by
  have hstep : k.step (.network e) = (k.net.step e).bind fun net =>
      (net.requests.callbacks.drop k.net.requests.callbacks.length).foldlM accept
        { k with net } := by
    cases e with
    | up e => rfl
    | down e =>
      cases e with
      | send msgStr => exact absurd rfl (hne msgStr)
      | written | acked | timeout | deliver => rfl
  rw [hstep, h, Option.bind_some]

theorem undisturbed_network (k : Kernel dev) {e : Duplex.Event}
    (hne : ∀ msgStr, e ≠ .up (.send msgStr)) : k.Undisturbed (.network e) := by
  cases e with
  | down e => trivial
  | up e =>
    cases e with
    | send msgStr => exact absurd rfl (hne msgStr)
    | written | acked | timeout | deliver => trivial

theorem reaches_calm (k : Kernel dev) {d d' : Duplex} (h : Reaches Duplex.step Duplex.Calm d d') :
    Reaches step Orderly { k with net := d } { k with net := d' } := by
  have hlift : ∀ (d : Duplex) (e : Duplex.Event) (d' : Duplex), d.Calm e → d.step e = some d' →
      ∃ e', Orderly { k with net := d } e' ∧
        step { k with net := d } e' = some { k with net := d' } := by
    rintro d e d' ⟨hw, hne, hcalls⟩ he
    refine ⟨.network e, ⟨hw, ?_⟩, ?_⟩
    · exact undisturbed_network _ fun msgStr => (hne msgStr).1
    · have hstep := step_of_network (k := { k with net := d }) (fun msgStr => (hne msgStr).2) he
      rw [hstep, hcalls d' he, List.drop_length]
      rfl
  exact Reaches.lift (fun net => { k with net }) hlift h

section Line

variable {k : Kernel dev} {first second : ℤ} {cmdStr reply : Bytes} {nowNs : ℤ} {fs : Fs}
  {disk : dev.State}

theorem step_line (hi : k.net.Idle nowNs) : step k (.network (.up (.send cmdStr))) =
    some { k with net := k.net.setUp (k.net.up.sent cmdStr .writing) } := by
  rw [step_of_network (by rintro msgStr ⟨⟩) (Duplex.line_sent hi)]
  exact congrArg (List.foldlM _ _) List.drop_length

theorem step_arrives (hs : Serving first second k []) (hi : k.net.Idle nowNs)
    (hcalls : k.net.requests.sends.length < 256) (hlen : cmdStr.length < 0x10000) :
    step { k with net := k.net.setUp (k.net.up.sent cmdStr .waiting) }
        (.network (.up (.deliver 0 false nowNs))) =
      accept { k with net := k.net.arrived cmdStr nowNs }
        ⟨k.net.requests.sends.length, k.net.up.srcPort, cmdStr⟩ := by
  have harrive := Duplex.line_arrives hs.net hi hcalls hlen
  have hstep := step_of_network
    (k := { k with net := k.net.setUp (k.net.up.sent cmdStr .waiting) })
    (by rintro msgStr ⟨⟩) harrive
  have hdrop : (k.net.arrived cmdStr nowNs).requests.callbacks.drop
      k.net.requests.callbacks.length =
        [⟨k.net.requests.sends.length, k.net.up.srcPort, cmdStr⟩] := List.drop_left
  rw [hstep]
  change ((k.net.arrived cmdStr nowNs).requests.callbacks.drop
    k.net.requests.callbacks.length).foldlM accept
      { k with net := k.net.arrived cmdStr nowNs } = _
  rw [hdrop, List.foldlM_cons]
  exact bind_pure _

theorem reaches_accepted (hs : Serving first second k []) (hi : k.net.Idle nowNs)
    (hcalls : k.net.requests.sends.length < 256) (hlen : cmdStr.length < 0x10000)
    (hadmissible : (parse cmdStr).Admissible) {k' : Kernel dev}
    (h : accept { k with net := k.net.arrived cmdStr nowNs }
      ⟨k.net.requests.sends.length, k.net.up.srcPort, cmdStr⟩ = some k') :
    Reaches step Orderly k k' := by
  refine .head (.network (.up (.send cmdStr))) ⟨hcalls, hadmissible⟩ (step_line hi) ?_
  refine (reaches_calm k Duplex.line_written).trans ?_
  exact .head (.network (.up (.deliver 0 false nowNs)))
    ⟨System.sent_within hs.net.recorded.1, trivial⟩
    ((step_arrives hs hi hcalls hlen).trans h) (.refl _)

/-- **A line that arrives is answered.** -/
theorem answer_line (hs : Serving first second k []) (hi : k.net.Idle nowNs)
    (hcalls : k.net.requests.sends.length < 256) (hlen : cmdStr.length < 0x10000)
    (hreply : reply.length < 0x10000)
    (hrun : (eval cmdStr).run dev.handler k.world.fs k.world.disk = (.done reply, fs, disk)) :
    ∃ k', Reaches step WithinWindow k k' ∧ k'.net.Idle nowNs ∧
      k'.net.requests.sends.length = k.net.requests.sends.length + 1 ∧
      k'.net.responses.callbacks.map Callback.payload =
        k.net.responses.callbacks.map Callback.payload ++ [reply] ∧
      k'.world.fs = fs ∧ k'.world.disk = disk := by
  have hsends : k.net.responses.sends.length < 256 := by
    have h₁ := hs.sends_le
    have h₂ := hs.length_le
    omega
  obtain ⟨k₁, k₂, hacc, hturns, hnet, hfs, hdisk⟩ :=
    accepts (k := { k with net := k.net.arrived cmdStr nowNs })
      (c := ⟨k.net.requests.sends.length, k.net.up.srcPort, cmdStr⟩) hrun (Duplex.reply_sent hi)
  have hwritten := (reaches_calm k (@Duplex.line_written k.net cmdStr)).mono
    fun _ _ h => h.1
  have hdelivered : Reaches step WithinWindow
      { k with net := k.net.setUp (k.net.up.sent cmdStr .waiting) } k₂ :=
    .head (.network (.up (.deliver 0 false nowNs))) (System.sent_within hs.net.recorded.1)
      ((step_arrives hs hi hcalls hlen).trans hacc) hturns
  have hline : Reaches step WithinWindow k k₂ :=
    .head (.network (.up (.send cmdStr))) hcalls (step_line hi) (hwritten.trans hdelivered)
  obtain ⟨d, hreturn, hidle, hlength, hshown⟩ :=
    @Duplex.reply_returns _ cmdStr _ _ _ _ hs.net hi hsends hreply
  have hlast := (reaches_calm k₂ hreturn).mono fun _ _ h => h.1
  rw [← hnet] at hlast
  exact ⟨_, hline.trans hlast, hidle, hlength, hshown, hfs, hdisk⟩

/-- Lines that the client sends one after another. -/
theorem answer_lines {lines replies : List Bytes} (hs : Serving first second k [])
    (hi : k.net.Idle nowNs) (hcalls : k.net.requests.sends.length + lines.length ≤ 256)
    (hlen : ∀ cmdStr ∈ lines, cmdStr.length < 0x10000)
    (hreply : ∀ reply ∈ replies, reply.length < 0x10000)
    (hrun : (evalAll lines).run dev.handler k.world.fs k.world.disk = (.done replies, fs, disk)) :
    ∃ k', Reaches step WithinWindow k k' ∧ k'.net.Idle nowNs ∧
      k'.net.responses.callbacks.map Callback.payload =
        k.net.responses.callbacks.map Callback.payload ++ replies ∧
      k'.world.fs = fs ∧ k'.world.disk = disk := by
  induction lines generalizing k replies with
  | nil =>
    cases hrun
    exact ⟨k, .refl k, hi, (List.append_nil _).symm, rfl, rfl⟩
  | cons cmdStr lines ih =>
    rw [List.length_cons] at hcalls
    rw [evalAll] at hrun
    obtain ⟨reply, fs₁, disk₁, hone, hrun⟩ := Prog.run_bind_eq_done hrun
    obtain ⟨rest, fs₂, disk₂, hrest, hrun⟩ := Prog.run_bind_eq_done hrun
    cases hrun
    obtain ⟨k₁, h₁, hi₁, hsends, hshown₁, rfl, rfl⟩ := answer_line hs hi (by omega)
      (hlen _ List.mem_cons_self) (hreply _ List.mem_cons_self) hone
    obtain ⟨k₂, h₂, hi₂, hshown₂, hend⟩ := ih (hs.run h₁) hi₁ (by omega)
      (fun l hl => hlen l (List.mem_cons_of_mem _ hl))
      (fun r hr => hreply r (List.mem_cons_of_mem _ hr)) hrest
    refine ⟨k₂, h₁.trans h₂, hi₂, ?_, hend⟩
    rw [hshown₂, hshown₁, List.append_assoc, List.singleton_append]

end Line

end Kernel

end OCamlStudy.NanoOs
