import OCamlStudy.NanoOs.Exchange

/-! # Messages that are acked

While no sequence number comes round within the window, or before its last use
is over, a call that returns `Ok` has had its message handed over, in runs of any
length. A number is used again after 256 calls, and the receiver acks before it
looks into its table: when the window still holds the first use, the message is
dropped.
-/

namespace OCamlStudy.NanoOs

open OCaml Program

namespace System

/-- Calls one after another, over a network that delivers every packet once. -/
def OneByOne (s : System) : Event → Prop
  | .send _ => ∀ call ∈ s.sends, ∃ result, call.phase = .returned result
  | .deliver _ keep _ => keep = false
  | _ => True

/-- Every call that returned `Ok` has had its payload handed to the callback. -/
def NeverDropped (s : System) : Prop :=
  ∀ i, s.Acked i → ∃ m, s.message i = some m ∧
    ∃ c ∈ s.callbacks, c.origin = i ∧ c.payload = m.payload

/-- The window that ends now holds the time. -/
def Recent (s : System) (nowNs time : ℤ) : Prop :=
  0 < s.receiver.config.dedupeWindowNs ∧ wrap64 (nowNs - time) ≤ s.receiver.config.dedupeWindowNs

/-- When the first copy of a message arrives, the window holds no arrival of another message with
its number, nor an entry for the number in the table that the receiver began with. -/
def NumberFree (table : Hashtbl (ℤ × ℤ) ℤ) (s : System) (d : Datagram) (nowNs : ℤ) : Prop :=
  d.dst = s.receiver.myPort → (∀ t, (d.origin, t) ∉ s.arrivals) → ∀ m, s.message d.origin = some m →
    (∀ t, table.lookup (s.srcPort, m.seq) = some t → ¬ s.Recent nowNs t) ∧
    ∀ i m' t, (i, t) ∈ s.arrivals → s.message i = some m' → m'.seq = m.seq → ¬ s.Recent nowNs t

/-- A call that has neither been woken nor returned. -/
def Waits (s : System) (i : ℕ) : Prop :=
  ∃ call, s.sends[i]? = some call ∧ call.woken = false ∧ ∀ result, call.phase ≠ .returned result

/-- When an ack arrives, no other call with the number that it acknowledges waits. -/
def WaitsAlone (s : System) (d : Datagram) : Prop :=
  d.dst = s.sender.myPort → d.dst ≠ s.receiver.myPort → ∀ m, s.message d.origin = some m →
    ∀ i m', s.message i = some m' → m'.seq = m.seq → s.Waits i → i = d.origin

/-- No number comes round within the window, or while an ack of its earlier use is on its way. -/
def NotReused (table : Hashtbl (ℤ × ℤ) ℤ) (s : System) : Event → Prop
  | .deliver k _ nowNs => ∀ d, s.inFlight[k]? = some d → s.NumberFree table d nowNs ∧ s.WaitsAlone d
  | _ => True

variable {s s' : System} {e : Event} {table : Hashtbl (ℤ × ℤ) ℤ}

/-- Where the entries of the two tables come from. -/
structure Traced (table : Hashtbl (ℤ × ℤ) ℤ) (s : System) : Prop where
  linked : s.Linked
  seen : ∀ key t, s.receiver.seenData.lookup key = some t → table.lookup key = some t ∨
    ∃ i m, s.message i = some m ∧ key = (s.srcPort, m.seq) ∧ (i, t) ∈ s.arrivals
  heard : ∀ a ∈ s.arrivals, s.Heard a.1
  pending : ∀ seq i, s.sender.pendingAcks.lookup seq = some i → s.Waits i

theorem Initial.traced (h : Initial s) : Traced s.receiver.seenData s where
  linked := h.linked
  seen _ _ ht := .inl ht
  heard a ha := by simp [h.arrivals] at ha
  pending seq i hp := by simp [h.pendingAcks] at hp

/-- An entry within the window belongs to the message that arrives. -/
theorem Traced.notMistaken (ht : Traced table s) {d : Datagram} {nowNs : ℤ} (hd : d ∈ s.inFlight)
    (hfree : s.NumberFree table d nowNs) : s.NotMistaken d nowNs := by
  intro hdst packet hdec hkind hlive
  obtain ⟨m, hm, ⟨-, hseq, hport, -, hlen⟩ | ⟨hack, -⟩⟩ := ht.linked.decode hd hdec
  · by_cases harrived : ∃ t, (d.origin, t) ∈ s.arrivals
    · obtain ⟨t, harrived⟩ := harrived
      obtain ⟨m', hm', hhanded⟩ := ht.heard _ harrived
      obtain rfl : m' = m := Option.some.inj (hm'.symm.trans hm)
      exact hhanded hlen
    · obtain ⟨hold, hother⟩ := hfree hdst (not_exists.mp harrived) m hm
      obtain ⟨hwindow, t, hseen, hage⟩ := hlive
      rw [hport, hseq] at hseen
      rcases ht.seen _ t hseen with hfirst | ⟨i, m', hm', hkey, harr⟩
      · exact absurd ⟨hwindow, hage⟩ (hold t hfirst)
      · exact absurd ⟨hwindow, hage⟩ (hother i m' t harr hm' (Prod.ext_iff.mp hkey).2.symm)
  · rw [hkind] at hack
    cases hack

theorem Traced.wakesOwn (ht : Traced table s) {d : Datagram} (hd : d ∈ s.inFlight)
    (halone : s.WaitsAlone d) : s.WakesOwn d := by
  intro hdst hdst' packet hdec hkind i hpending
  obtain ⟨m, hm, ⟨hdata, -⟩ | ⟨-, hack, -⟩⟩ := ht.linked.decode hd hdec
  · rw [hkind] at hdata
    cases hdata
  · obtain ⟨m', hm', hseq⟩ := ht.linked.pending _ i hpending
    exact halone hdst hdst' m hm i m' hm' (hseq.trans hack) (ht.pending _ i hpending)

theorem Traced.distinguishes (ht : Traced table s) (hr : s.NotReused table e) :
    s.Distinguishes e := by
  cases e with
  | deliver k keep nowNs =>
    intro d hd
    have hmem := List.mem_of_getElem? hd
    exact ⟨ht.notMistaken hmem (hr d hd).1, ht.wakesOwn hmem (hr d hd).2⟩
  | _ => trivial

theorem Extends.heard (hx : Extends s s') {i : ℕ} (h : s.Heard i) : s'.Heard i := by
  obtain ⟨m, hm, hhanded⟩ := h
  exact ⟨m, hx.message i m hm, fun hlen => hx.handed (hhanded hlen)⟩

theorem Effect.seen (ht : Traced table s) (h : Effect s e s') (key : ℤ × ℤ) (t : ℤ)
    (hseen : s'.receiver.seenData.lookup key = some t) : table.lookup key = some t ∨
      ∃ i m, s'.message i = some m ∧ key = (s'.srcPort, m.seq) ∧ (i, t) ∈ s'.arrivals := by
  have hx := h.extends
  have hold : s.arrivals ⊆ s'.arrivals → s.receiver.seenData.lookup key = some t →
      table.lookup key = some t ∨
        ∃ i m, s'.message i = some m ∧ key = (s'.srcPort, m.seq) ∧ (i, t) ∈ s'.arrivals := by
    intro harrivals hlookup
    rcases ht.seen key t hlookup with hfirst | ⟨i, m, hm, hkey, harr⟩
    · exact .inl hfirst
    · exact .inr ⟨i, m, hx.message i m hm, by rw [hx.srcPort, hkey], harrivals harr⟩
  cases h with
  | send | resume | wakeup => exact hold (List.Subset.refl _) hseen
  | fresh k keep nowNs d m rest hd hrest hm =>
    by_cases hkey : key = (s.srcPort, m.seq)
    · rw [hkey, Stack.note, AList.lookup_insert, Option.some.injEq] at hseen
      exact .inr ⟨d.origin, m, hx.message _ m hm, by rw [hx.srcPort, hkey], by simp [hseen]⟩
    · rw [Stack.note, AList.lookup_insert_ne hkey] at hseen
      exact hold (List.subset_append_left _ _) (Stack.lookup_pruneSeen.mp hseen).2.1
  | duplicate =>
    exact hold (List.subset_append_left _ _) (Stack.lookup_pruneSeen.mp hseen).2.1
  | ignored _ _ _ _ _ _ _ _ _ _ hsame =>
    exact hold (List.subset_append_left _ _) (hsame ▸ hseen)

theorem Effect.heard (ht : Traced table s) (hd : s.Distinguishes e) (h : Effect s e s') :
    ∀ a ∈ s'.arrivals, s'.Heard a.1 := by
  have hx := h.extends
  cases h with
  | send | resume | wakeup => exact fun a ha => hx.heard (ht.heard a ha)
  | fresh k keep nowNs d m rest hin hrest hm =>
    intro a ha
    rcases List.mem_append.mp ha with hold | hnew
    · exact hx.heard (ht.heard a hold)
    · obtain rfl := List.mem_singleton.mp hnew
      exact ⟨m, hx.message _ m hm, fun _ => ⟨_, List.mem_append_right _ List.mem_cons_self, rfl⟩⟩
  | duplicate k keep nowNs d m rest hin hrest hm hnow hlive hdst hpacket =>
    intro a ha
    rcases List.mem_append.mp ha with hold | hnew
    · exact hx.heard (ht.heard a hold)
    · obtain rfl := List.mem_singleton.mp hnew
      have hhanded : s.Handed d.origin := (hd d hin).1 hdst _ hpacket rfl hlive
      exact ⟨m, hx.message _ m hm, fun _ => hx.handed hhanded⟩
  | ignored k keep nowNs t rest clock arrivals hrest hport hconfig hsame hclock harr hheard =>
    intro a ha
    rcases List.mem_append.mp ha with hold | hnew
    · exact hx.heard (ht.heard a hold)
    · exact hx.heard (hheard a hnew)

theorem Effect.waits (ht : Traced table s) (h : Effect s e s') (seq : ℤ) (i : ℕ)
    (hlookup : s'.sender.pendingAcks.lookup seq = some i) : s'.Waits i := by
  have hown : ∀ seq i m, s.sender.pendingAcks.lookup seq = some i → s.message i = some m →
      m.seq = seq := by
    intro seq i m hp hm
    obtain ⟨m', hm', hseq⟩ := ht.linked.pending seq i hp
    obtain rfl : m' = m := Option.some.inj (hm'.symm.trans hm)
    exact hseq
  cases h with
  | send _ m call _ _ _ _ hphase hwoken _ _ hpend =>
    rw [hpend] at hlookup
    by_cases hs : seq = m.seq
    · rw [hs, AList.lookup_insert, Option.some.injEq] at hlookup
      subst hlookup
      refine ⟨call, by simp, hwoken, fun result hr => ?_⟩
      rw [hphase] at hr
      cases hr
    · rw [AList.lookup_insert_ne hs] at hlookup
      obtain ⟨old, hold, hrest⟩ := ht.pending seq i (lookup_of_erase hlookup)
      exact ⟨old, (List.getElem?_append_left (List.getElem?_eq_some_iff.mp hold).1).trans hold,
        hrest⟩
  | resume _ j call call' t _ hcall _ hsame _ _ _ hpend _ hcleanup =>
    have hp := hpend seq i hlookup
    obtain ⟨old, hold, hwoken, hrunning⟩ := ht.pending seq i hp
    by_cases hij : i = j
    · subst hij
      obtain rfl : old = call := Option.some.inj (hold.symm.trans hcall)
      have hlt := (List.getElem?_eq_some_iff.mp hcall).1
      refine ⟨call', List.getElem?_set_self hlt, hsame.trans hwoken, fun result hr => ?_⟩
      have hseq := hown seq i old.msg hp (by simp [System.message, hcall])
      rw [← hseq, hcleanup result hr] at hlookup
      cases hlookup
    · exact ⟨old, by rw [List.getElem?_set_ne (Ne.symm hij)]; exact hold, hwoken, hrunning⟩
  | wakeup k keep nowNs d m j rest hin hrest hm hhanded hpending =>
    have hne : seq ≠ m.seq := by
      rintro rfl
      rw [AList.lookup_erase] at hlookup
      cases hlookup
    rw [AList.lookup_erase_ne hne] at hlookup
    obtain ⟨old, hold, hwoken, hrunning⟩ := ht.pending seq i hlookup
    have hij : j ≠ i := by
      rintro rfl
      have hmsg : s.message j = some old.msg := by simp [System.message, hold]
      exact hne ((hown seq j _ hlookup hmsg).symm.trans (hown m.seq j _ hpending hmsg))
    refine ⟨old, ?_, hwoken, hrunning⟩
    dsimp only
    rw [List.getElem?_modify_ne _ _ hij]
    exact hold
  | fresh | duplicate | ignored => exact ht.pending seq i hlookup

theorem Effect.traced (ht : Traced table s) (hr : s.NotReused table e) (h : Effect s e s') :
    Traced table s' where
  linked := h.linked ht.linked (ht.distinguishes hr)
  seen := h.seen ht
  heard := h.heard ht (ht.distinguishes hr)
  pending := h.waits ht

theorem Traced.run (ht : Traced table s)
    (h : Reaches step (fun s e => s.OneByOne e ∧ s.NotReused table e) s s') : Traced table s' :=
  h.invariant (fun _ _ _ ht hok he => (ht.linked.effect he).traced ht hok.2) ht

theorem never_dropped (hi : s.Initial)
    (h : Reaches step (fun s' e => s'.OneByOne e ∧ s'.NotReused s.receiver.seenData e) s s') :
    s'.NeverDropped := by
  intro i hacked
  obtain ⟨m, hm, c, hc, hi, hpayload, -⟩ := (hi.traced.run h).linked.acked hacked
  exact ⟨m, hm, c, hc, hi, hpayload⟩

/-- After `n` messages at time 0, all of them with the payload `a`. -/
structure Streamed (n : ℕ) (s : System) : Prop where
  quiet : s.Quiet
  senderPort : s.sender.myPort = 1
  receiverPort : s.receiver.myPort = 2
  config : s.receiver.config = Stack.defaultConfig
  sends : s.sends.length = n
  nextSeq : s.sender.nextSeq = n % 256
  clock : s.clock = 0
  numbers : ∀ i m, s.message i = some m → m.seq = i
  arrivals : ∀ a ∈ s.arrivals, a.1 < n ∧ a.2 = 0
  seen : ∀ seq, s.receiver.seenData.lookup (1, seq) =
    if 0 ≤ seq ∧ seq < n then some 0 else none
  callbacks : ∀ c ∈ s.callbacks, c.payload = bytes "a"

theorem start_streamed : Streamed 0 start where
  quiet := start_quiet
  senderPort := rfl
  receiverPort := rfl
  config := rfl
  sends := rfl
  nextSeq := rfl
  clock := rfl
  numbers i m hm := by simp [message, start] at hm
  arrivals a ha := by cases ha
  seen seq := by
    rw [if_neg (by simp)]
    rfl
  callbacks c hc := by cases hc

section Exchange

variable {n : ℕ} {payload : Bytes} {nowNs : ℤ} {t : Stack} {calls : List Stack.Action}

theorem Streamed.wired (h : Streamed n s) : s.Wired where
  sender := by rw [h.senderPort]; decide
  receiver := by rw [h.receiverPort]; decide
  distinct := by rw [h.senderPort, h.receiverPort]; decide

theorem Streamed.srcPort (h : Streamed n s) : s.srcPort = 1 := by
  rw [System.srcPort, h.senderPort]
  rfl

theorem Streamed.live_iff (h : Streamed n s) (nowNs seq : ℤ) :
    s.receiver.Live nowNs (s.srcPort, seq) ↔
      (0 ≤ seq ∧ seq < n) ∧ wrap64 nowNs ≤ 30000000000 := by
  rw [h.srcPort, Stack.Live, h.config, h.seen]
  constructor
  · rintro ⟨-, seenAt, hseen, hage⟩
    split_ifs at hseen with hlt
    obtain rfl := Option.some.inj hseen
    rw [sub_zero] at hage
    exact ⟨hlt, hage⟩
  · rintro ⟨hlt, hage⟩
    rw [if_pos hlt]
    refine ⟨by decide, 0, rfl, ?_⟩
    rw [sub_zero]
    exact hage

theorem Streamed.sent_notReused (h : Streamed n s) (hn : n < 256 ∨ 30000000000 < wrap64 nowNs) :
    (s.sent payload .waiting).NotReused ∅ (.deliver 0 false nowNs) := by
  intro d hd
  obtain rfl : s.dataOut payload = d := Option.some.inj hd
  refine ⟨fun hdst hfirst m hm => ⟨nofun, fun i m' t harr hm' hseq hrecent => ?_⟩,
    fun hdst hdst' => absurd rfl hdst'⟩
  obtain ⟨hlt, rfl⟩ : i < n ∧ t = 0 := h.arrivals (i, t) harr
  have hnumber : m'.seq = i := by
    refine h.numbers i m' ?_
    rw [← hm', message, message]
    exact congrArg _ (List.getElem?_append_left (h.sends ▸ hlt)).symm
  have hown : m.seq = n % 256 := by
    rw [← h.nextSeq]
    simp only [message, dataOut, sent, calling, List.getElem?_concat_length, Option.map_some,
      Option.some.injEq] at hm
    rw [← hm]
    rfl
  rcases hn with hn | hlate
  · omega
  · have hage : wrap64 (nowNs - 0) ≤ s.receiver.config.dedupeWindowNs := hrecent.2
    rw [h.config, sub_zero] at hage
    exact absurd hage (not_le.mpr hlate)

theorem answered_notReused (hq : s.Quiet) (hw : s.Wired) (hport : t.myPort = s.receiver.myPort) :
    (s.answered payload t nowNs calls).NotReused table (.deliver 0 false nowNs) := by
  intro d hd
  obtain rfl : s.ackBack = d := Option.some.inj hd
  have hsrc : s.ackBack.dst = s.sender.myPort := Int.emod_eq_of_lt hw.sender.1 hw.sender.2
  refine ⟨fun hdst => absurd (hsrc.symm.trans (hdst.trans hport)) hw.distinct, ?_⟩
  rintro hdst hdst' m hm i m' hm' hseq ⟨call, hcall, hwoken, hrunning⟩
  rcases getElem?_concat_eq_some hcall with hold | ⟨hi, -⟩
  · obtain ⟨result, hresult⟩ := hq.returned call (List.mem_of_getElem? hold)
    exact absurd hresult (hrunning result)
  · exact hi

variable (payload) in
theorem Streamed.reaches (h : Streamed n s) (hnow : 0 ≤ nowNs) (hlen : payload.length < 0x10000)
    (hlive : ¬ s.receiver.Live nowNs (s.srcPort, s.sender.nextSeq))
    (hn : n < 256 ∨ 30000000000 < wrap64 nowNs) :
    Reaches step (fun s e => s.OneByOne e ∧ s.NotReused ∅ e) s
      (s.exchanged payload (s.receiver.note nowNs (s.srcPort, s.sender.nextSeq)) nowNs
        [.callback s.srcPort payload]) :=
  exchange_fresh payload h.quiet h.wired (h.clock.trans_le hnow) hlen hlive
    ⟨h.quiet.returned, trivial⟩ (fun _ _ _ => ⟨trivial, trivial⟩) ⟨rfl, h.sent_notReused hn⟩
    ⟨rfl, answered_notReused h.quiet h.wired Stack.pruneSeen_myPort⟩ (fun _ _ => ⟨trivial, trivial⟩)

theorem Streamed.seen_note (h : Streamed n s) (seq : ℤ) :
    (s.receiver.note 0 (s.srcPort, (n : ℤ))).seenData.lookup (1, seq) =
      if 0 ≤ seq ∧ seq < (n + 1 : ℕ) then some 0 else none := by
  rw [Stack.note, h.srcPort]
  by_cases hseq : seq = n
  · subst hseq
    rw [AList.lookup_insert, if_pos (by omega)]
  · rw [AList.lookup_insert_ne (by simpa using hseq)]
    have hprune : ∀ seenAt, (s.receiver.pruneSeen 0).seenData.lookup (1, seq) = some seenAt ↔
        s.receiver.seenData.lookup (1, seq) = some seenAt := by
      intro seenAt
      rw [Stack.lookup_pruneSeen, h.config, h.seen]
      constructor
      · exact fun hs => hs.2.1
      · intro hs
        refine ⟨by decide, hs, ?_⟩
        split_ifs at hs
        obtain rfl := Option.some.inj hs
        decide
    rw [Option.ext hprune, h.seen]
    congr 1
    simp only [eq_iff_iff]
    omega

theorem Streamed.next (h : Streamed n s) (hn : n < 256) :
    ∃ s', Reaches step (fun s e => s.OneByOne e ∧ s.NotReused ∅ e) s s' ∧ Streamed (n + 1) s' := by
  have hseq : s.sender.nextSeq = n := by rw [h.nextSeq]; omega
  have hlive : ¬ s.receiver.Live 0 (s.srcPort, s.sender.nextSeq) := by
    rw [h.live_iff, hseq]
    omega
  refine ⟨_, h.reaches (bytes "a") le_rfl (by decide) hlive (.inl hn), ?_⟩
  constructor
  case quiet => exact exchanged_quiet h.quiet
  case senderPort => exact h.senderPort
  case receiverPort => exact Stack.pruneSeen_myPort.trans h.receiverPort
  case config => exact Stack.pruneSeen_config.trans h.config
  case sends => simp [exchanged, received, calling, h.sends]
  case nextSeq =>
    simp only [exchanged, received, calling, hseq]
    omega
  case clock => rfl
  case numbers =>
    intro i m hm
    obtain ⟨call, hcall, rfl⟩ := Option.map_eq_some_iff.mp hm
    rcases getElem?_concat_eq_some hcall with hold | ⟨rfl, rfl⟩
    · exact h.numbers i _ (by simp [message, hold])
    · rw [h.sends]
      exact hseq
  case arrivals =>
    intro a ha
    rcases List.mem_append.mp ha with hold | hnew
    · exact ⟨Nat.lt_succ_of_lt (h.arrivals a hold).1, (h.arrivals a hold).2⟩
    · obtain rfl := List.mem_singleton.mp hnew
      exact ⟨by rw [h.sends]; exact Nat.lt_succ_self n, rfl⟩
  case seen =>
    intro seq
    rw [hseq]
    exact h.seen_note seq
  case callbacks =>
    intro c hc
    rcases List.mem_append.mp hc with hold | hnew
    · exact h.callbacks c hold
    · obtain rfl := List.mem_singleton.mp hnew
      rfl

theorem Streamed.dropped (h : Streamed 256 s) : ∃ s', Reaches step OneByOne s s' ∧
    s'.inFlight = [] ∧ ¬ s'.NeverDropped := by
  have hseq : s.sender.nextSeq = 0 := h.nextSeq
  have hlive : s.receiver.Live 0 (s.srcPort, s.sender.nextSeq) := by
    rw [h.live_iff, hseq]
    decide
  refine ⟨_, exchange_live (bytes "b") h.quiet h.wired h.clock.le
    (by decide) hlive h.quiet.returned (fun _ _ _ => trivial) rfl rfl (fun _ _ => trivial),
    h.quiet.inFlight, ?_⟩
  intro hnever
  obtain ⟨m, hm, c, hc, -, hpayload⟩ := hnever _ (exchanged_acked ..)
  have hb : m.payload = bytes "b" := by
    simp only [System.message, exchanged, received, calling, List.getElem?_concat_length,
      Option.map_some, Option.some.injEq] at hm
    subst hm
    rfl
  have ha : c.payload = bytes "a" := by
    simp only [exchanged, received, calling, handed, List.filterMap_nil, List.append_nil] at hc
    exact h.callbacks c hc
  rw [ha, hb] at hpayload
  exact absurd hpayload (by decide)

end Exchange

theorem start_stream (n : ℕ) (hn : n ≤ 256) :
    ∃ s, Reaches step (fun s e => s.OneByOne e ∧ s.NotReused ∅ e) start s ∧ Streamed n s := by
  induction n with
  | zero => exact ⟨start, .refl _, start_streamed⟩
  | succ n ih =>
    obtain ⟨s, hrun, hs⟩ := ih (by omega)
    obtain ⟨s', hrun', hs'⟩ := hs.next (by omega)
    exact ⟨s', hrun.trans hrun', hs'⟩

/-- The first number is used again when the window is over, and the message is handed over. -/
theorem never_dropped_reused : ∃ s',
    Reaches step (fun s e => s.OneByOne e ∧ s.NotReused ∅ e) start s' ∧ s'.sends.length = 257 ∧
      s'.Acked 256 ∧ s'.NeverDropped := by
  obtain ⟨s, hrun, hs⟩ := start_stream 256 le_rfl
  have hlive : ¬ s.receiver.Live 31000000000 (s.srcPort, s.sender.nextSeq) := by
    rw [hs.live_iff]
    exact fun hl => absurd hl.2 (by decide)
  have hlast := hs.reaches (bytes "b") (by decide) (by decide) hlive (.inr (by decide))
  refine ⟨_, hrun.trans hlast, ?_, ?_, never_dropped start_initial (hrun.trans hlast)⟩
  · simp [exchanged, received, calling, hs.sends]
  · have hacked := exchanged_acked s (bytes "b")
    rw [hs.sends] at hacked
    exact hacked ..

/-- A run over a network that delivers every packet once, in which an acked message is dropped. -/
theorem message_dropped : ∃ s s', s.Initial ∧ s.Wired ∧ s.receiver.seenData = ∅ ∧
    Reaches step OneByOne s s' ∧ s'.inFlight = [] ∧ ¬ s'.NeverDropped := by
  obtain ⟨s, hrun, hs⟩ := start_stream 256 le_rfl
  obtain ⟨s', hrun', hflight, hdrop⟩ := hs.dropped
  exact ⟨start, s', start_initial, start_wired, rfl, (hrun.mono fun _ _ h => h.1).trans hrun',
    hflight, hdrop⟩

end System

end OCamlStudy.NanoOs
