import OCamlStudy.NanoOs.ReplySize

/-! # Replies that the peer receives

From a formatted disk every request that arrived keeps the invariant at each of
its turns, so in every state reached the replies that the peer can receive are
known: an echo of the request may be longer than the request was.
-/

namespace OCamlStudy.NanoOs

open OCaml Program Shell

theorem Request.observe_cmdStr (r : Request) (c : Disk) (q : Block.Op) :
    (r.observe c q).cmdStr = r.cmdStr := by
  cases q with
  | getInfo => rfl
  | read | write =>
    dsimp only [Request.observe]
    split_ifs <;> rfl

theorem Request.observe_cacheThen (r : Request) (c : Disk) (q : Block.Op) :
    (r.observe c q).cacheThen = r.cacheThen := by
  cases q with
  | getInfo => rfl
  | read | write =>
    dsimp only [Request.observe]
    split_ifs <;> rfl

/-- A request that has started, and will reply as its command and the cache then say. -/
def Request.RepliesFit (n : ℕ) (r : Request) : Prop :=
  r.started = true ∧ ∀ fs, CacheFits n fs →
    r.prog.Keeps (Disk.handler n) (CacheFits n) (DiskFits n)
      (fun reply => reply.length ≤ 4086 ↔ ReplyFits r.cacheThen r.cmdStr) fs

/-- The invariant of the requests and of what they share. -/
structure World.Fits {n : ℕ} {dev : Device n} (w : World dev) : Prop where
  cache : CacheFits n w.fs
  disk : DiskFits n (dev.contents w.disk)
  arrived : ∀ r ∈ w.requests, r.cmdStr.length ≤ 4086
  requests : ∀ r ∈ w.requests, (r.started = false ∧ r.prog = eval r.cmdStr) ∨ r.RepliesFit n

section Step

variable {n : ℕ} {dev : Device n} {w w' : World dev} {i : ℕ} {r : Request}

theorem World.Fits.set (hw : w.Fits) {fs : Fs} {disk : dev.State} (hm : CacheFits n fs)
    (hd : DiskFits n (dev.contents disk)) (hlen : r.cmdStr.length ≤ 4086) (hr : r.RepliesFit n) :
    (⟨fs, disk, w.requests.set i r⟩ : World dev).Fits := by
  refine ⟨hm, hd, ?_, ?_⟩
  · rintro r' hr'
    rcases List.mem_or_eq_of_mem_set hr' with hmem | rfl
    · exact hw.arrived r' hmem
    · exact hlen
  · rintro r' hr'
    rcases List.mem_or_eq_of_mem_set hr' with hmem | rfl
    · exact hw.requests r' hmem
    · exact Or.inr hr

/-- **One turn keeps the invariant.** -/
theorem World.Fits.step (h5 : 5 ≤ n) (hn : n < 2 ^ 31) (hw : w.Fits) (hstep : w.step i = some w') :
    w'.Fits := by
  cases hr : w.requests[i]? with
  | none => simp [World.step, hr] at hstep
  | some r =>
    have hmem := List.mem_of_getElem? hr
    have hlen := hw.arrived r hmem
    rcases hw.requests r hmem with ⟨hs, hp⟩ | ⟨hs, hk⟩
    · have hkeeps := keeps_eval h5 hn hw.cache hlen
      rw [World.step_start hr hs hp rfl] at hstep
      obtain rfl := Option.some.inj hstep
      apply hw.set hkeeps.settle_memory hw.disk
      · exact hlen
      · exact ⟨rfl, fun fs hm => hkeeps.settle_any hm⟩
    · have hkeeps := hk w.fs hw.cache
      cases hp : r.prog with
      | ret | get | set => simp [World.step, hr, hs, hp] at hstep
      | raise =>
        rw [hp] at hkeeps
        exact (Prog.not_keeps_raise hkeeps).elim
      | call q k =>
        rw [hp] at hkeeps
        obtain ⟨reply, c, hd, hc, hnext⟩ := (Prog.keeps_call.mp hkeeps).2 _ hw.disk
        obtain ⟨disk, rfl, rfl⟩ := World.of_step_call hr hs hp hd rfl hstep
        have hturn := hnext w.fs hw.cache
        apply hw.set hturn.settle_memory hc
        · rwa [Request.observe_cmdStr]
        · refine ⟨by rwa [Request.observe_started], fun fs hm => ?_⟩
          rw [Request.observe_prog, Request.observe_cacheThen, Request.observe_cmdStr]
          exact hturn.settle_any hm

end Step

section Run

variable {n : ℕ} {dev : Device n}

theorem Mounted.cacheFits {fs : Fs} {c : Disk} (hm : Mounted n [] fs c) : CacheFits n fs := by
  rw [hm.fs_eq]
  refine ⟨rfl, ?_⟩
  rintro name start size hl
  cases hl

theorem Mounted.diskFits {fs : Fs} {c : Disk} (hm : Mounted n [] fs c) : DiskFits n c := by
  refine ⟨hm.magic, ?_⟩
  rintro e he
  have hparsed := hm.parsed
  rw [hm.fs_eq] at hparsed
  rw [show parsedEntries ⟨deviceInfo n, ∅⟩ c = [] from hparsed] at he
  cases he

theorem World.fits_start {fs : Fs} {s : dev.State} {cmds : List Bytes}
    (hm : Mounted n [] fs (dev.contents s)) (harrive : ∀ cmdStr ∈ cmds, Arrives cmdStr) :
    (World.start dev fs s cmds).Fits := by
  refine ⟨hm.cacheFits, hm.diskFits, ?_, ?_⟩
  · rintro r hr
    obtain ⟨cmdStr, hcmd, rfl⟩ := List.mem_map.mp hr
    exact arrives_iff.mp (harrive cmdStr hcmd)
  · rintro r hr
    obtain ⟨cmdStr, _, rfl⟩ := List.mem_map.mp hr
    exact Or.inl ⟨rfl, rfl⟩

theorem World.fits_of_reaches (h5 : 5 ≤ n) (hn : n < 2 ^ 31) {w w' : World dev} (hw : w.Fits)
    (h : Reaches World.step (fun _ _ => True) w w') : w'.Fits :=
  h.invariant (fun _ _ _ hw _ hstep => hw.step h5 hn hstep) hw

end Run

/-- **What the peer can receive.** In every state that requests which arrived have reached from a
formatted disk, by any order of their turns, the reply to a further request can be received
exactly when it fits, and so can the replies that were given on the way. -/
theorem reply_received_iff {n : ℕ} (h5 : 5 ≤ n) (hn : n < 2 ^ 31) (dev : Device n) (repair : Bool)
    (fs₀ : Fs) (s₀ : dev.State) (cmds : List Bytes) (harrive : ∀ cmdStr ∈ cmds, Arrives cmdStr) :
    ∃ fs s, dev.Completes (formatDisk repair) fs₀ s₀ (.ok ()) fs s ∧
      ∀ w, Reaches World.step (fun _ _ => True) (World.start dev fs s cmds) w →
        (∀ cmdStr, Arrives cmdStr → ∃ reply fs' s',
          dev.Completes (eval cmdStr) w.fs w.disk reply fs' s' ∧
          ∀ t waiter dstPort, Received t waiter dstPort reply ↔ ReplyFits w.fs.cache cmdStr) ∧
        ∀ r ∈ w.requests, r.started = true → ∀ reply, r.prog = .ret reply →
          ∀ t waiter dstPort, Received t waiter dstPort reply ↔ ReplyFits r.cacheThen r.cmdStr := by
  obtain ⟨fs, c, hformat, hm, _⟩ := run_formatDisk h5 fs₀ (dev.contents s₀) repair
  obtain ⟨s, hs, rfl⟩ := dev.completes hformat
  refine ⟨fs, s, hs, fun w hreach => ?_⟩
  have hw := World.fits_of_reaches h5 hn (World.fits_start hm harrive) hreach
  constructor
  · intro cmdStr hcmd
    obtain ⟨reply, fs', c', hrun, hreply, _⟩ :=
      (keeps_eval h5 hn hw.cache (arrives_iff.mp hcmd)).run hw.disk
    obtain ⟨s', hs', _⟩ := dev.completes hrun
    exact ⟨reply, fs', s', hs', fun t waiter dstPort => received_iff.trans hreply⟩
  · intro r hr hstarted reply hp t waiter dstPort
    rcases hw.requests r hr with ⟨hs, _⟩ | ⟨_, hkeeps⟩
    · rw [hs] at hstarted
      cases hstarted
    · have hk := hkeeps w.fs hw.cache
      rw [hp, Prog.keeps_ret] at hk
      exact received_iff.trans hk.2

theorem reply_received_iff_ramDisk : ∃ fs s,
    RamDisk.device.Completes (formatDisk true) ⟨deviceInfo 0, ∅⟩ RamDisk.fresh (.ok ()) fs s ∧
      ∀ w, Reaches World.step (fun _ _ => True)
          (World.start RamDisk.device fs s [bytes "write a x"]) w →
        (∀ cmdStr, Arrives cmdStr → ∃ reply fs' s',
          RamDisk.device.Completes (eval cmdStr) w.fs w.disk reply fs' s' ∧
          ∀ t waiter dstPort, Received t waiter dstPort reply ↔ ReplyFits w.fs.cache cmdStr) ∧
        ∀ r ∈ w.requests, r.started = true → ∀ reply, r.prog = .ret reply →
          ∀ t waiter dstPort, Received t waiter dstPort reply ↔ ReplyFits r.cacheThen r.cmdStr := by
  refine reply_received_iff (by decide) (by decide) RamDisk.device true _ _ _ ?_
  rintro cmdStr hcmd
  obtain rfl := List.mem_singleton.mp hcmd
  exact arrives_iff.mpr (by decide)

theorem parse_long_word {word : Bytes} (hspace : 32 ∉ word) (hlen : 5 < word.length) :
    parse word = .unknown word := by
  have hne : word ≠ [] := by
    rintro rfl
    simp at hlen
  have hparts : (word.splitOn 32).filter (· ≠ []) = [word] := by
    rw [List.splitOn_eq_singleton hspace]
    simp [hne]
  have hcommand : ∀ command : Bytes, command.length ≤ 5 → lowercaseAscii word ≠ command := by
    rintro command hle rfl
    rw [lowercaseAscii, List.length_map] at hle
    omega
  unfold parse
  rw [hparts]
  dsimp only
  rw [if_neg (hcommand _ (by decide)), if_neg (hcommand _ (by decide)),
    if_neg (hcommand _ (by decide)), if_neg (hcommand _ (by decide)),
    if_neg (hcommand _ (by decide)), if_neg (hcommand _ (by decide))]

theorem long_word_lost {k : ℕ} (hle : k ≤ 4086) (hlt : 4046 < k) :
    Arrives (List.replicate k 120) ∧ ∃ fs s,
      RamDisk.device.Completes (formatDisk true) ⟨deviceInfo 0, ∅⟩ RamDisk.fresh (.ok ()) fs s ∧
        ∃ reply fs' s',
          RamDisk.device.Completes (eval (List.replicate k 120)) fs s reply fs' s' ∧
          ∀ t waiter dstPort, ¬ Received t waiter dstPort reply := by
  have harrives : Arrives (List.replicate k 120) := arrives_iff.mpr (by simpa using hle)
  obtain ⟨fs, c, hformat, hm, _⟩ := run_formatDisk (n := 2048) (by decide)
    ⟨deviceInfo 0, ∅⟩ (RamDisk.device.contents RamDisk.fresh) true
  obtain ⟨s, hs, rfl⟩ := RamDisk.device.completes hformat
  obtain ⟨reply, fs', c', hrun, hreply, _⟩ := (keeps_eval (by decide) (by decide) hm.cacheFits
    (arrives_iff.mp harrives)).run hm.diskFits
  obtain ⟨s', hs', _⟩ := RamDisk.device.completes hrun
  refine ⟨harrives, fs, s, hs, reply, fs', s', hs', fun t waiter dstPort hreceived => ?_⟩
  have hfits := hreply.mp (received_iff.mp hreceived)
  rw [ReplyFits, parse_long_word (by simp) (by simp; omega)] at hfits
  simp only [List.length_replicate] at hfits
  omega

/-- The longest request, one word that is no command. -/
theorem unknown_reply_lost : Arrives (List.replicate 4086 120) ∧ ∃ fs s,
    RamDisk.device.Completes (formatDisk true) ⟨deviceInfo 0, ∅⟩ RamDisk.fresh (.ok ()) fs s ∧
      ∃ reply fs' s',
        RamDisk.device.Completes (eval (List.replicate 4086 120)) fs s reply fs' s' ∧
        ∀ t waiter dstPort, ¬ Received t waiter dstPort reply :=
  long_word_lost le_rfl (by decide)

end OCamlStudy.NanoOs
