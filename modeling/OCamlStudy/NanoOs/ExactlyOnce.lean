import OCamlStudy.NanoOs.Exchange

/-! # Exactly-once transport

With at most 256 calls no sequence number is used twice, so an entry of the
table of seen messages belongs to one message. While every copy of a message
arrives within the window of the first, its entry is there when the copy comes.
-/

namespace OCamlStudy.NanoOs

open OCaml Program

namespace System

/-- At most 256 calls; a copy of a message arrives within the window of its first arrival. -/
def WithinWindow (s : System) : Event → Prop
  | .send _ => s.sends.length < 256
  | .deliver k _ nowNs => ∀ d, s.inFlight[k]? = some d → d.dst = s.receiver.myPort →
      ∀ t, (d.origin, t) ∈ s.arrivals → nowNs - t ≤ s.receiver.config.dedupeWindowNs
  | _ => True

instance (s : System) (e : Event) : Decidable (s.WithinWindow e) :=
  match e with
  | .send _ => inferInstanceAs (Decidable (_ < _))
  | .deliver k _ nowNs => decidable_of_iff (∀ d ∈ s.inFlight[k]?, d.dst = s.receiver.myPort →
      ∀ a ∈ s.arrivals, a.1 = d.origin → nowNs - a.2 ≤ s.receiver.config.dedupeWindowNs)
        ⟨fun h d hd hdst _ ht => h d hd hdst _ ht rfl,
          fun h d hd hdst a ha ho => h d hd hdst a.2 (ho ▸ ha)⟩
  | .written _ _ | .acked _ | .timeout _ => inferInstanceAs (Decidable True)

/-- How often the callback was given the message of a call. -/
def handedCount (s : System) (i : ℕ) : ℕ := s.callbacks.countP (·.origin = i)

structure Unreused (first : ℤ) (s : System) : Prop where
  linked : s.Linked
  wired : s.Wired
  window : 0 < s.receiver.config.dedupeWindowNs
  nextSeq : s.sender.nextSeq = (first + s.sends.length) % 256
  sends : s.sends.length ≤ 256
  seq : ∀ i m, s.message i = some m → m.seq = (first + i) % 256
  seen : ∀ key t, s.receiver.seenData.lookup key = some t → ∃ i m, s.message i = some m ∧
    key = (s.srcPort, m.seq) ∧ s.Handed i ∧ (i, t) ∈ s.arrivals
  remembered : ∀ i, s.Handed i → ∃ m t, s.message i = some m ∧ (i, t) ∈ s.arrivals ∧
    (s.receiver.seenData.lookup (s.srcPort, m.seq) = some t ∨
      t + s.receiver.config.dedupeWindowNs < s.clock)
  arrived : ∀ a ∈ s.arrivals, a.2 ≤ s.clock
  once : (s.callbacks.map Callback.origin).Nodup

variable {s s' : System} {e : Event} {first : ℤ}

theorem lt_of_message {i : ℕ} {m : Stack.Message} (h : s.message i = some m) :
    i < s.sends.length := by
  rw [message_def] at h
  simpa using (List.getElem?_eq_some_iff.mp h).1

theorem Wired.srcPort_eq (h : s.Wired) : s.srcPort = s.sender.myPort :=
  Int.emod_eq_of_lt h.sender.1 h.sender.2

theorem Unreused.seq_inj (hu : Unreused first s) {i j : ℕ} {m m' : Stack.Message}
    (hm : s.message i = some m) (hm' : s.message j = some m') (h : m.seq = m'.seq) : i = j := by
  have hi := lt_of_message hm
  have hj := lt_of_message hm'
  have hle := hu.sends
  rw [hu.seq i m hm, hu.seq j m' hm'] at h
  omega

theorem wrap64_age {window now t : ℤ} (hw : window < 2 ^ 63) (ht : t ≤ now)
    (h : now - t ≤ window) : wrap64 (now - t) ≤ window := by
  rwa [wrap64_eq (by omega) (by omega)]

theorem Unreused.live (hu : Unreused first s) {i : ℕ} {m : Stack.Message} {now : ℤ}
    (hm : s.message i = some m) (hh : s.Handed i) (hnow : s.clock ≤ now)
    (hw : ∀ t, (i, t) ∈ s.arrivals → now - t ≤ s.receiver.config.dedupeWindowNs) :
    s.receiver.Live now (s.srcPort, m.seq) := by
  obtain ⟨m', t, hm', ht, hseen | hold⟩ := hu.remembered i hh
  · obtain rfl : m' = m := Option.some.inj (hm'.symm.trans hm)
    have hle := hu.arrived _ ht
    exact ⟨hu.window, t, hseen,
      wrap64_age s.receiver.config.window_bounds.2 (le_trans hle hnow) (hw t ht)⟩
  · have := hw t ht
    omega

theorem Unreused.distinguishes (hu : Unreused first s) : s.Distinguishes e := by
  cases e with
  | deliver k keep nowNs =>
    intro d hd
    have hmem := List.mem_of_getElem? hd
    constructor
    · intro hdst packet hdec hkind hlive
      obtain ⟨m, hm, ⟨-, hseq, hport, -⟩ | ⟨hack, -⟩⟩ := hu.linked.decode hmem hdec
      · obtain ⟨-, t, hseen, -⟩ := hlive
        obtain ⟨i, m', hm', hkey, hhanded, -⟩ := hu.seen _ t hseen
        have hseq' : m'.seq = m.seq := by
          rw [← hseq]
          exact (Prod.ext_iff.mp hkey).2.symm
        exact hu.seq_inj hm' hm hseq' ▸ hhanded
      · rw [hkind] at hack
        cases hack
    · intro hdst hdst' packet hdec hkind i hpending
      obtain ⟨m, hm, ⟨hdata, -⟩ | ⟨-, hack, -⟩⟩ := hu.linked.decode hmem hdec
      · rw [hkind] at hdata
        cases hdata
      · obtain ⟨m', hm', hseq⟩ := hu.linked.pending _ i hpending
        exact hu.seq_inj hm' hm (hseq.trans hack)
  | _ => trivial

theorem Unreused.not_handed (hu : Unreused first s) {i : ℕ} {m : Stack.Message} {now : ℤ}
    (hm : s.message i = some m) (hnow : s.clock ≤ now)
    (hw : ∀ t, (i, t) ∈ s.arrivals → now - t ≤ s.receiver.config.dedupeWindowNs)
    (hlive : ¬ s.receiver.Live now (s.srcPort, m.seq)) : ¬ s.Handed i :=
  fun hh => hlive (hu.live hm hh hnow hw)

/-- Pruning forgets a message only when no copy of it can come any more. -/
theorem Unreused.remembered_prune (hu : Unreused first s) {now : ℤ} (hnow : s.clock ≤ now) {i : ℕ}
    (hh : s.Handed i) : ∃ m t, s.message i = some m ∧ (i, t) ∈ s.arrivals ∧
      ((s.receiver.pruneSeen now).seenData.lookup (s.srcPort, m.seq) = some t ∨
        t + s.receiver.config.dedupeWindowNs < now) := by
  obtain ⟨m, t, hm, ht, hseen | hold⟩ := hu.remembered i hh
  · refine ⟨m, t, hm, ht, ?_⟩
    have hle := hu.arrived _ ht
    by_cases hage : now - t ≤ s.receiver.config.dedupeWindowNs
    · left
      exact Stack.lookup_pruneSeen.mpr ⟨hu.window, hseen,
        wrap64_age s.receiver.config.window_bounds.2 (le_trans hle hnow) hage⟩
    · right
      omega
  · exact ⟨m, t, hm, ht, .inr (lt_of_lt_of_le hold hnow)⟩

theorem Unreused.arrived_append (hu : Unreused first s) {now : ℤ} (hnow : s.clock ≤ now)
    {new : List (ℕ × ℤ)} (hnew : ∀ a ∈ new, a.2 ≤ now) : ∀ a ∈ s.arrivals ++ new, a.2 ≤ now := by
  intro a ha
  rcases List.mem_append.mp ha with hold | hin
  · exact le_trans (hu.arrived a hold) hnow
  · exact hnew a hin

theorem Unreused.remembered_wait (hu : Unreused first s) {clock : ℤ} (hclock : s.clock ≤ clock)
    {i : ℕ} (hh : s.Handed i) : ∃ m t, s.message i = some m ∧ (i, t) ∈ s.arrivals ∧
      (s.receiver.seenData.lookup (s.srcPort, m.seq) = some t ∨
        t + s.receiver.config.dedupeWindowNs < clock) := by
  obtain ⟨m, t, hm, ht, hor⟩ := hu.remembered i hh
  exact ⟨m, t, hm, ht, hor.imp_right fun h => lt_of_lt_of_le h hclock⟩

/-- An event that hands over no message and forgets only what is too old. -/
theorem Unreused.frame (hu : Unreused first s) (hl : s'.Linked) (hx : Extends s s')
    (hnext : s'.sender.nextSeq = (first + s'.sends.length) % 256)
    (hsends : s'.sends.length ≤ 256)
    (hseq : ∀ i m, s'.message i = some m → m.seq = (first + i) % 256)
    (hconfig : s'.receiver.config = s.receiver.config) (hcalls : s'.callbacks = s.callbacks)
    (hseen : ∀ key t, s'.receiver.seenData.lookup key = some t →
      s.receiver.seenData.lookup key = some t)
    (hremembered : ∀ i, s.Handed i → ∃ m t, s.message i = some m ∧ (i, t) ∈ s.arrivals ∧
      (s'.receiver.seenData.lookup (s.srcPort, m.seq) = some t ∨
        t + s.receiver.config.dedupeWindowNs < s'.clock))
    (harrivals : s.arrivals ⊆ s'.arrivals) (harrived : ∀ a ∈ s'.arrivals, a.2 ≤ s'.clock) :
    Unreused first s' where
  linked := hl
  wired := ⟨hx.sender ▸ hu.wired.sender, hx.receiver ▸ hu.wired.receiver,
    by rw [hx.sender, hx.receiver]; exact hu.wired.distinct⟩
  window := hconfig ▸ hu.window
  nextSeq := hnext
  sends := hsends
  seq := hseq
  seen key t h := by
    obtain ⟨i, m, hm, hkey, hh, ht⟩ := hu.seen key t (hseen key t h)
    exact ⟨i, m, hx.message i m hm, by rw [hx.srcPort, hkey], hx.handed hh, harrivals ht⟩
  remembered i hh := by
    obtain ⟨m, t, hm, ht, hor⟩ := hremembered i (by rwa [Handed, ← hcalls])
    refine ⟨m, t, hx.message i m hm, harrivals ht, ?_⟩
    rwa [hx.srcPort, hconfig]
  arrived := harrived
  once := hcalls ▸ hu.once

theorem Effect.numbering (hu : Unreused first s) (hw : s.WithinWindow e) (h : Effect s e s') :
    s'.sender.nextSeq = (first + s'.sends.length) % 256 ∧ s'.sends.length ≤ 256 ∧
      ∀ i m, s'.message i = some m → m.seq = (first + i) % 256 := by
  have hnextSeq := hu.nextSeq
  have hsends := hu.sends
  cases h with
  | send msgStr m call t hm hseq hcall hphase hwoken hport hnext =>
    have hlt : s.sends.length < 256 := hw
    refine ⟨?_, by simpa using hlt, ?_⟩
    · simp only [List.length_append, List.length_singleton, hnext]
      omega
    · intro i m' hm'
      obtain ⟨call', hcall', rfl⟩ := Option.map_eq_some_iff.mp hm'
      rcases getElem?_concat_eq_some hcall' with hold | ⟨rfl, rfl⟩
      · exact hu.seq i _ (by simp [System.message, hold])
      · rw [hcall, hseq, hnextSeq]
  | resume e i call call' t sent hcall hmsg hwoken hreturned hport hnext =>
    refine ⟨?_, ?_, ?_⟩
    · simpa [hnext] using hnextSeq
    · simpa using hsends
    · intro j m hm
      rw [message_def, map_set_msg hcall hmsg, ← message_def] at hm
      exact hu.seq j m hm
  | wakeup k keep nowNs d m i =>
    refine ⟨?_, ?_, ?_⟩
    · simpa using hnextSeq
    · simpa using hsends
    · intro j m' hm'
      rw [message_def, map_wake_msg, ← message_def] at hm'
      exact hu.seq j m' hm'
  | fresh | duplicate | ignored => exact ⟨hnextSeq, hsends, hu.seq⟩

theorem Unreused.fresh (hu : Unreused first s) (hl : s'.Linked) (hx : Extends s s')
    {i : ℕ} {m : Stack.Message} {now : ℤ} (hm : s.message i = some m)
    (hnow : s.clock ≤ now) (hh : ¬ s.Handed i)
    (hsender : s'.sender = s.sender) (hsends : s'.sends = s.sends)
    (hreceiver : s'.receiver = s.receiver.note now (s.srcPort, m.seq))
    (hclock : s'.clock = now) (hcalls : s'.callbacks = s.callbacks ++ [⟨i, s.srcPort, m.payload⟩])
    (harrivals : s'.arrivals = s.arrivals ++ [(i, now)]) : Unreused first s' where
  linked := hl
  wired := ⟨hx.sender ▸ hu.wired.sender, hx.receiver ▸ hu.wired.receiver,
    by rw [hx.sender, hx.receiver]; exact hu.wired.distinct⟩
  window := by
    rw [hreceiver]
    simpa [Stack.note] using hu.window
  nextSeq := by rw [hsender, hsends, hu.nextSeq]
  sends := hsends ▸ hu.sends
  seq j m' hm' := hu.seq j m' (by rwa [System.message, ← hsends])
  seen key t h := by
    have hhanded : s'.Handed i := ⟨⟨i, s.srcPort, m.payload⟩, by simp [hcalls], rfl⟩
    rw [hreceiver, Stack.note] at h
    by_cases hkey : key = (s.srcPort, m.seq)
    · subst hkey
      rw [AList.lookup_insert, Option.some.injEq] at h
      exact ⟨i, m, hx.message i m hm, by rw [hx.srcPort], hhanded, by simp [harrivals, h]⟩
    · rw [AList.lookup_insert_ne hkey] at h
      obtain ⟨-, hseen, -⟩ := Stack.lookup_pruneSeen.mp h
      obtain ⟨j, m', hm', hkey', hj, ht⟩ := hu.seen key t hseen
      exact ⟨j, m', hx.message j m' hm', by rw [hx.srcPort, hkey'], hx.handed hj,
        by simp [harrivals, ht]⟩
  remembered j hj := by
    rw [hreceiver, hclock, hx.srcPort]
    obtain ⟨c, hc, rfl⟩ := hj
    rw [hcalls] at hc
    rcases List.mem_append.mp hc with hold | hnew
    · have hne : c.origin ≠ i := fun he => hh ⟨c, hold, he⟩
      obtain ⟨m', t, hm', ht, hor⟩ := hu.remembered_prune hnow ⟨c, hold, rfl⟩
      refine ⟨m', t, hx.message _ m' hm', by simp [harrivals, ht], ?_⟩
      have hkey : (s.srcPort, m'.seq) ≠ (s.srcPort, m.seq) := fun he =>
        hne (hu.seq_inj hm' hm (Prod.ext_iff.mp he).2)
      simpa [Stack.note, AList.lookup_insert_ne hkey] using hor
    · obtain rfl := List.mem_singleton.mp hnew
      exact ⟨m, now, hx.message i m hm, by simp [harrivals], .inl (by simp [Stack.note])⟩
  arrived a ha := by
    rw [harrivals] at ha
    rw [hclock]
    exact hu.arrived_append hnow (by simp) a ha
  once := by
    rw [hcalls, List.map_append, List.nodup_append]
    refine ⟨hu.once, by simp, ?_⟩
    intro a ha b hb hab
    obtain ⟨c, hc, rfl⟩ := List.mem_map.mp ha
    exact hh ⟨c, hc, by simpa [hab] using hb⟩

theorem Effect.unreused (hu : Unreused first s) (hw : s.WithinWindow e) (h : Effect s e s') :
    Unreused first s' := by
  have hx := h.extends
  have hl := h.linked hu.linked hu.distinguishes
  obtain ⟨hnext, hsends, hseq⟩ := h.numbering hu hw
  cases h with
  | send | resume | wakeup =>
    exact hu.frame hl hx hnext hsends hseq rfl rfl (fun _ _ => id) hu.remembered
      (List.Subset.refl _) hu.arrived
  | fresh k keep nowNs d m rest hd hrest hm hnow hlive hdst =>
    have hh := hu.not_handed hm hnow (hw d hd hdst) hlive
    exact hu.fresh hl hx hm hnow hh rfl rfl rfl rfl rfl rfl
  | duplicate k keep nowNs d m rest hd' hrest hm hnow hlive hdst hpacket =>
    refine hu.frame hl hx hnext hsends hseq Stack.pruneSeen_config rfl
      (fun key t h => (Stack.lookup_pruneSeen.mp h).2.1) (fun i => hu.remembered_prune hnow)
      (List.subset_append_left _ _) (hu.arrived_append hnow ?_)
    simp
  | ignored k keep nowNs t rest clock arrivals hrest hport hconfig hseen hclock harrivals =>
    exact hu.frame hl hx hnext hsends hseq hconfig rfl (fun _ _ => by rw [← hseen]; exact id)
      (fun i hh => hseen ▸ hu.remembered_wait hclock hh) (List.subset_append_left _ _)
      (hu.arrived_append hclock fun a ha => (harrivals a ha).le)

theorem Initial.unreused (h : Initial s) (hseen : s.receiver.seenData = ∅) (hwired : s.Wired)
    (hwindow : 0 < s.receiver.config.dedupeWindowNs) : Unreused s.sender.nextSeq s where
  linked := h.linked
  wired := hwired
  window := hwindow
  nextSeq := by
    have := h.nextSeq
    simp only [h.sends, List.length_nil]
    omega
  sends := by simp [h.sends]
  seq i m hm := by simp [message, h.sends] at hm
  seen key t ht := by simp [hseen] at ht
  remembered i hi := by simp [Handed, h.callbacks] at hi
  arrived a ha := by simp [h.arrivals] at ha
  once := by simp [h.callbacks]

theorem Unreused.run (hu : Unreused first s) (h : Reaches step WithinWindow s s') :
    Unreused first s' :=
  h.invariant (fun _ _ _ hu hw he => (hu.linked.effect he).unreused hu hw) hu

theorem Unreused.count_le (hu : Unreused first s) (i : ℕ) : s.handedCount i ≤ 1 := by
  have := List.nodup_iff_count_le_one.mp hu.once i
  rwa [List.count, List.countP_map] at this

/-- Exactly-once transport while no sequence number is used twice and every copy of a message
arrives within the dedupe window. -/
theorem exactly_once (hi : s.Initial) (hseen : s.receiver.seenData = ∅) (hwired : s.Wired)
    (hwindow : 0 < s.receiver.config.dedupeWindowNs) (hrun : Reaches step WithinWindow s s') :
    (∀ c ∈ s'.callbacks, ∃ m, s'.message c.origin = some m ∧ c.payload = m.payload ∧
      c.srcPort = s'.sender.myPort) ∧
    ∀ i, s'.handedCount i ≤ 1 ∧ (s'.Acked i → s'.handedCount i = 1) := by
  have hu := (hi.unreused hseen hwired hwindow).run hrun
  constructor
  · intro c hc
    obtain ⟨m, hm, hpayload, hport⟩ := hu.linked.callback c hc
    exact ⟨m, hm, hpayload, hport.trans hu.wired.srcPort_eq⟩
  · refine fun i => ⟨hu.count_le i, fun ha => ?_⟩
    obtain ⟨m, -, c, hc, hci, -⟩ := hu.linked.acked ha
    have hpos : 0 < s'.handedCount i := List.countP_pos_iff.mpr ⟨c, hc, by simpa using hci⟩
    have := hu.count_le i
    omega

theorem exactly_once_one : ∃ s', Reaches step WithinWindow start s' ∧ s'.Acked 0 ∧
    s'.handedCount 0 = 1 := by
  have hrun : Reaches step WithinWindow start _ :=
    exchange_fresh (bytes "ls") start_quiet start_wired le_rfl (by decide)
      start_not_live (show 0 < 256 by decide) (fun _ _ _ => trivial)
      (fun d _ _ t ht => by cases ht)
      (fun d hd hdst => by
        obtain rfl := Option.some.inj hd
        exact absurd hdst (by decide))
      (fun _ _ => trivial)
  have hacked := exchanged_acked start (bytes "ls") (start.receiver.note 0 (start.srcPort, 0)) 0
    [.callback start.srcPort (bytes "ls")]
  exact ⟨_, hrun, hacked,
    ((exactly_once start_initial rfl start_wired (by decide) hrun).2 0).2 hacked⟩

end System

end OCamlStudy.NanoOs
