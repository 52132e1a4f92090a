import OCamlStudy.NanoOs.Stack

/-! # Duplicate suppression

A listener hears Data packets at the times of a clock that never runs backwards.
It hands a packet to its callback unless it handed over one with the same port
and sequence number within the window, and its table of seen messages holds the
hand-overs of the last window.
-/

namespace OCamlStudy.NanoOs

open OCaml

/-- A valid Data packet, and the time at which it is received. -/
structure Arrival where
  nowNs : ℤ
  rawPacket : Bytes
  packet : Packet.T
  decoded : Packet.decode rawPacket = .ok (.ok packet)
  isData : packet.kind = .data
  nowNs_bounds : 0 ≤ nowNs ∧ nowNs < 2 ^ 63

namespace Arrival

def dedupeKey (a : Arrival) : ℤ × ℤ := (a.packet.srcPort, a.packet.seq)

/-- The clock does not run backwards. -/
def Ordered (arrivals : List Arrival) : Prop :=
  arrivals.Pairwise fun a b => a.nowNs ≤ b.nowNs

def ofWire (nowNs : ℤ) (seq srcPort : ℤ) (payload : Bytes)
    (hn : 0 ≤ nowNs ∧ nowNs < 2 ^ 63) (hs : 0 ≤ seq ∧ seq < 256)
    (hl : payload.length < 0x10000) : Arrival where
  nowNs := nowNs
  rawPacket := Packet.wire .data seq 0 srcPort payload
  packet := { version := Packet.version, kind := .data, seq, ack := 0,
              srcPort := srcPort % 0x10000, payload }
  decoded := by rw [Packet.decode_wire .data srcPort payload hs (by decide), if_pos hl]
  isData := rfl
  nowNs_bounds := hn

end Arrival

namespace Stack

/-- The listener on one packet after another, with what it does on each. -/
def hear (t : Stack) : List Arrival → Raises (Stack × List (Arrival × List Action))
  | [] => return (t, [])
  | a :: arrivals => do
    let (t, actions) ← t.listen a.nowNs a.rawPacket
    let (t, heard) ← t.hear arrivals
    return (t, (a, actions) :: heard)

def Calls (a : Arrival) (actions : List Action) : Prop :=
  .callback a.packet.srcPort a.packet.payload ∈ actions

def callbacks (actions : List Action) : List (ℤ × Bytes) :=
  actions.filterMap fun
    | .callback srcPort payload => some (srcPort, payload)
    | _ => none

/-- The callback gets the packet once, or it is not invoked at all. -/
def CallsAtMost (a : Arrival) (actions : List Action) : Prop :=
  callbacks actions = [] ∨ callbacks actions = [(a.packet.srcPort, a.packet.payload)]

/-- A packet with the key was handed to the callback at the time. -/
def HandedOver (heard : List (Arrival × List Action)) (key : ℤ × ℤ) (time : ℤ) : Prop :=
  ∃ a actions, (a, actions) ∈ heard ∧ a.dedupeKey = key ∧ a.nowNs = time ∧ Calls a actions

/-- At the given time the table holds exactly the hand-overs of the last window. -/
def Remembers (t : Stack) (heard : List (Arrival × List Action)) (nowNs : ℤ) : Prop :=
  ∀ key seenAt, t.seenData.lookup key = some seenAt ↔
    HandedOver heard key seenAt ∧ nowNs - seenAt ≤ t.config.dedupeWindowNs

section HandedOver

variable {heard : List (Arrival × List Action)} {a : Arrival} {actions : List Action}
  {key : ℤ × ℤ} {time : ℤ}

theorem not_handedOver_nil : ¬ HandedOver [] key time := by
  rintro ⟨a, actions, hmem, -⟩
  exact List.not_mem_nil hmem

theorem handedOver_concat : HandedOver (heard ++ [(a, actions)]) key time ↔
    HandedOver heard key time ∨ (a.dedupeKey = key ∧ a.nowNs = time ∧ Calls a actions) := by
  constructor
  · rintro ⟨b, acts, hmem, hkey, htime, hc⟩
    rcases List.mem_append.mp hmem with hmem | hmem
    · exact .inl ⟨b, acts, hmem, hkey, htime, hc⟩
    · cases List.mem_singleton.mp hmem
      exact .inr ⟨hkey, htime, hc⟩
  · rintro (⟨b, acts, hmem, h⟩ | h)
    · exact ⟨b, acts, List.mem_append_left _ hmem, h⟩
    · exact ⟨a, actions, by simp, h⟩

theorem HandedOver.wrap64_sub (h : HandedOver heard key time) :
    wrap64 (a.nowNs - time) = a.nowNs - time := by
  obtain ⟨b, acts, -, -, rfl, -⟩ := h
  have ha := a.nowNs_bounds
  have hb := b.nowNs_bounds
  apply wrap64_eq <;> omega

end HandedOver

variable {t t' : Stack} {a : Arrival} {arrivals : List Arrival}
  {heard : List (Arrival × List Action)}

theorem hear_concat {actions : List Action} {t'' : Stack} (h : t.hear arrivals = .ok (t', heard))
    (ha : t'.listen a.nowNs a.rawPacket = .ok (t'', actions)) :
    t.hear (arrivals ++ [a]) = .ok (t'', heard ++ [(a, actions)]) := by
  induction arrivals generalizing t heard with
  | nil =>
    cases h
    simp only [List.nil_append, hear, ha, Raises.ok_bind]
    rfl
  | cons b arrivals ih =>
    rw [hear] at h
    obtain ⟨⟨t₁, acts⟩, hb, h⟩ := Raises.bind_ok h
    obtain ⟨⟨t₂, rest⟩, hrest, h⟩ := Raises.bind_ok h
    cases h
    simp only [List.cons_append, hear, hb, Raises.ok_bind, ih hrest]
    rfl

theorem Remembers.live_iff {last : ℤ} (hm : t.Remembers heard last) (hle : last ≤ a.nowNs)
    (hw : 0 < t.config.dedupeWindowNs) (key : ℤ × ℤ) : t.Live a.nowNs key ↔
      ∃ time, HandedOver heard key time ∧ a.nowNs - time ≤ t.config.dedupeWindowNs := by
  constructor
  · rintro ⟨-, time, hseen, hlive⟩
    have hover := ((hm key time).mp hseen).1
    rw [hover.wrap64_sub] at hlive
    exact ⟨time, hover, hlive⟩
  · rintro ⟨time, hover, hlive⟩
    have hseen := (hm key time).mpr ⟨hover, by omega⟩
    exact ⟨hw, time, hseen, by rwa [hover.wrap64_sub]⟩

theorem Remembers.lookup_pruneSeen {last : ℤ} (hm : t.Remembers heard last) (hle : last ≤ a.nowNs)
    (hw : 0 < t.config.dedupeWindowNs) (key : ℤ × ℤ) (time : ℤ) :
    (t.pruneSeen a.nowNs).seenData.lookup key = some time ↔
      HandedOver heard key time ∧ a.nowNs - time ≤ t.config.dedupeWindowNs := by
  rw [Stack.lookup_pruneSeen, hm key time]
  constructor
  · rintro ⟨-, ⟨hover, -⟩, hlive⟩
    rw [hover.wrap64_sub] at hlive
    exact ⟨hover, hlive⟩
  · rintro ⟨hover, hlive⟩
    exact ⟨hw, ⟨hover, by omega⟩, by rwa [hover.wrap64_sub]⟩

theorem not_calls_ack {dst : ℤ} {packet : Bytes} : ¬ Calls a [.write dst packet] := by
  simp [Calls]

theorem calls_callback {dst : ℤ} {packet : Bytes} :
    Calls a [.write dst packet, .callback a.packet.srcPort a.packet.payload] := by
  simp [Calls]

/-- One packet: it is handed over unless its key was within the window, and the table follows. -/
theorem Remembers.listen {last : ℤ} (hm : t.Remembers heard last) (hle : last ≤ a.nowNs)
    (hw : 0 < t.config.dedupeWindowNs) :
    ∃ t' actions, t.listen a.nowNs a.rawPacket = .ok (t', actions) ∧ t'.config = t.config ∧
      CallsAtMost a actions ∧
      (Calls a actions ↔ ¬ ∃ time, HandedOver heard a.dedupeKey time ∧
        a.nowNs - time ≤ t.config.dedupeWindowNs) ∧
      t'.Remembers (heard ++ [(a, actions)]) a.nowNs := by
  by_cases hl : t.Live a.nowNs a.dedupeKey
  · refine ⟨_, _, listen_data_live a.decoded a.isData hl, pruneSeen_config, .inl rfl, ?_, ?_⟩
    · rw [← hm.live_iff hle hw]
      exact iff_of_false not_calls_ack (not_not_intro hl)
    · intro key time
      rw [hm.lookup_pruneSeen hle hw, handedOver_concat, pruneSeen_config]
      simp [not_calls_ack]
  · refine ⟨_, _, listen_data_fresh a.decoded a.isData hl, pruneSeen_config, .inr rfl, ?_, ?_⟩
    · rw [← hm.live_iff hle hw]
      exact iff_of_true calls_callback hl
    · intro key time
      rw [handedOver_concat]
      rw [hm.live_iff hle hw] at hl
      change ((t.pruneSeen a.nowNs).seenData.insert a.dedupeKey a.nowNs).lookup key = some time ↔
        _ ∧ _ ≤ (t.pruneSeen a.nowNs).config.dedupeWindowNs
      rw [pruneSeen_config]
      by_cases hk : key = a.dedupeKey
      · subst hk
        rw [AList.lookup_insert]
        constructor
        · rintro h
          obtain rfl := Option.some.inj h
          exact ⟨.inr ⟨rfl, rfl, calls_callback⟩, by omega⟩
        · rintro ⟨hover | ⟨-, rfl, -⟩, hlive⟩
          · exact absurd ⟨time, hover, hlive⟩ hl
          · rfl
      · rw [AList.lookup_insert_ne hk, hm.lookup_pruneSeen hle hw]
        simp [Ne.symm hk]

/-- A run over packets in the order of the clock keeps the table exact. -/
theorem remembers_hear (hw : 0 < t.config.dedupeWindowNs) (h0 : t.seenData = ∅)
    (ho : Arrival.Ordered (arrivals ++ [a])) :
    ∃ t' heard last, t.hear arrivals = .ok (t', heard) ∧ t'.config = t.config ∧
      last ≤ a.nowNs ∧ t'.Remembers heard last := by
  induction arrivals using List.reverseRecOn generalizing a with
  | nil =>
    refine ⟨t, [], a.nowNs, rfl, rfl, le_rfl, fun key seenAt => ?_⟩
    simp [h0, not_handedOver_nil]
  | append_singleton arrivals b ih =>
    obtain ⟨hfirst, -, hlast⟩ := List.pairwise_append.mp ho
    obtain ⟨t', heard, last, hrun, hconfig, hle, hm⟩ := ih hfirst
    obtain ⟨t'', actions, hb, hc, -, -, hm'⟩ := hm.listen hle (hconfig ▸ hw)
    exact ⟨t'', _, b.nowNs, hear_concat hrun hb, hc.trans hconfig,
      hlast b (by simp) a (by simp), hm'⟩

/-- A packet is handed over exactly if none with its key was within the window, and then the
table holds the hand-overs of the window, with their times. -/
theorem hear_exact (hw : 0 < t.config.dedupeWindowNs) (h0 : t.seenData = ∅)
    (ho : Arrival.Ordered (arrivals ++ [a])) :
    ∃ t' heard t'' actions, t.hear arrivals = .ok (t', heard) ∧
      t'.listen a.nowNs a.rawPacket = .ok (t'', actions) ∧
      t.hear (arrivals ++ [a]) = .ok (t'', heard ++ [(a, actions)]) ∧
      CallsAtMost a actions ∧
      (Calls a actions ↔ ¬ ∃ time, HandedOver heard a.dedupeKey time ∧
        a.nowNs - time ≤ t.config.dedupeWindowNs) ∧
      ∀ key seenAt, t''.seenData.lookup key = some seenAt ↔
        HandedOver (heard ++ [(a, actions)]) key seenAt ∧
          a.nowNs - seenAt ≤ t.config.dedupeWindowNs := by
  obtain ⟨t', heard, last, hrun, hconfig, hle, hm⟩ := remembers_hear hw h0 ho
  obtain ⟨t'', actions, ha, hc, hmost, hcalls, hm'⟩ := hm.listen hle (hconfig ▸ hw)
  rw [Remembers, hc, hconfig] at hm'
  rw [hconfig] at hcalls
  exact ⟨t', heard, t'', actions, hrun, ha, hear_concat hrun ha, hmost, hcalls, hm'⟩

/-- The same message twice at one time. -/
theorem hear_exact_twice :
    let a := Arrival.ofWire 7 3 9001 (bytes "hi") (by decide) (by decide) (by decide)
    ∃ t' heard t'' actions, (create defaultConfig 0 9000).hear [a] = .ok (t', heard) ∧
      t'.listen a.nowNs a.rawPacket = .ok (t'', actions) ∧
      (create defaultConfig 0 9000).hear ([a] ++ [a]) = .ok (t'', heard ++ [(a, actions)]) ∧
      CallsAtMost a actions ∧
      (Calls a actions ↔ ¬ ∃ time, HandedOver heard a.dedupeKey time ∧
        a.nowNs - time ≤ defaultConfig.dedupeWindowNs) ∧
      ∀ key seenAt, t''.seenData.lookup key = some seenAt ↔
        HandedOver (heard ++ [(a, actions)]) key seenAt ∧
          a.nowNs - seenAt ≤ defaultConfig.dedupeWindowNs := by
  exact hear_exact (by decide) rfl (by simp [Arrival.Ordered])

end Stack

end OCamlStudy.NanoOs
