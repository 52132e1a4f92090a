import OCamlStudy.NanoOs.Serial

/-! # Undisturbed requests are linearizable

Every request takes effect at one turn: a reader of the cache when it starts, a
writer when it writes the directory. As long as what the requests rely on is
undisturbed, the turns that take effect, in their order, are a sequential run
with the same replies and the same files.
-/

namespace OCamlStudy.NanoOs

open OCaml Program Shell

variable {n : ℕ} {dev : Device n} {cmds : List Bytes} {fs₀ : Fs} {s₀ : dev.State}
  {entries : List Entry} {w w' : World dev} {log : List (ℕ × Bytes)}

section Turn

variable {i : ℕ} {r r' : Request} {reply : Bytes}

theorem Serial.answer (h : Serial cmds fs₀ s₀ w entries log) (hr : w.requests[i]? = some r)
    (hstage : Stage n r' (some reply)) (hcmd : r'.cmdStr = r.cmdStr)
    (hlog : ∀ reply, (i, reply) ∉ log) {disk : dev.State}
    (hdisk : dev.contents disk = dev.contents w.disk)
    (hrun : ∀ c, Mounted n entries w.fs c → Agree entries c (dev.contents w.disk) →
      (eval r.cmdStr).run (Disk.handler n) w.fs c = (.done reply, w.fs, c)) :
    Serial cmds fs₀ s₀ ⟨w.fs, disk, w.requests.set i r'⟩ entries (log ++ [(i, reply)]) := by
  refine h.effect hr hstage hcmd hlog (hdisk ▸ h.mounted) fun c hm ha => ?_
  exact ⟨c, hrun c hm ha, hm, hdisk ▸ ha⟩

theorem Serial.start_ret (h : Serial cmds fs₀ s₀ w entries log) (hr : w.requests[i]? = some r)
    (hs : r.started = false) (hp : r.prog = eval r.cmdStr) (hlog : ∀ reply, (i, reply) ∉ log)
    (hset : (eval r.cmdStr).settle w.fs = (.ret reply, w.fs)) (hw : w.step i = some w') :
    Serial cmds fs₀ s₀ w' entries (log ++ [(i, reply)]) := by
  obtain rfl := Option.some.inj (hw.symm.trans (World.step_start hr hs hp hset))
  have hstage : Stage n (r.begun (.ret reply) w.fs.cache (dev.contents w.disk)) (some reply) :=
    .replied reply rfl rfl
  refine h.answer hr hstage rfl hlog rfl fun c _ _ => ?_
  rw [← Prog.run_settle, hset]
  rfl

theorem Serial.start_call (h : Serial cmds fs₀ s₀ w entries log) (hr : w.requests[i]? = some r)
    (hs : r.started = false) (hp : r.prog = eval r.cmdStr) (hlog : ∀ reply, (i, reply) ∉ log)
    {prog : FsProg Bytes} (hset : (eval r.cmdStr).settle w.fs = (prog, w.fs))
    (hstage : Stage n (r.begun prog w.fs.cache (dev.contents w.disk)) none)
    (hw : w.step i = some w') : Serial cmds fs₀ s₀ w' entries log := by
  obtain rfl := Option.some.inj (hw.symm.trans (World.step_start hr hs hp hset))
  exact h.silent hr hstage rfl (fun reply => by simp [hlog reply]) h.mounted fun _ _ => rfl

theorem Serial.start (hn : n < 2 ^ 31) (h : Serial cmds fs₀ s₀ w entries log)
    (hr : w.requests[i]? = some r) (hs : r.started = false) (hp : r.prog = eval r.cmdStr)
    (hst : r.stored = []) (hlog : ∀ reply, (i, reply) ∉ log) (hw : w.step i = some w') :
    ∃ log', Serial cmds fs₀ s₀ w' entries log' := by
  cases hparse : parse r.cmdStr with
  | empty | ls | help | unknown =>
    exact ⟨_, h.start_ret hr hs hp hlog (by rw [eval, hparse]; rfl) hw⟩
  | cat filename =>
    by_cases hmem : filename ∈ entries.map Entry.name
    · obtain ⟨e, he, rfl⟩ := List.mem_map.mp hmem
      have hlookup : w.fs.cache.lookup e.name = some (e.start, e.size) := by
        rw [h.mounted.fs_eq]
        exact lookup_cacheOf h.mounted.wellFormed.nodup he
      have heval : eval r.cmdStr = readFile e.name >>= fun res => pure (catReply e.name res) := by
        rw [eval, hparse]
        rfl
      obtain rfl := Option.some.inj
        (hw.symm.trans (World.step_start hr hs hp (heval ▸ settle_readFile hlookup _)))
      have hstage : Stage n (r.begun _ w.fs.cache (dev.contents w.disk)) _ :=
        .reading e.name e rfl ((h.mounted.entryOk he).end_le hn) rfl
      refine ⟨_, h.answer hr hstage rfl hlog rfl fun c hm ha => ?_⟩
      rw [heval, Prog.run_bind_done (hm.run_readFile hn he), ha e he]
      rfl
    · have hlookup : w.fs.cache.lookup filename = none := by
        rw [h.mounted.fs_eq]
        exact lookup_cacheOf_none hmem
      have hset : (eval r.cmdStr).settle w.fs =
          (.ret (catReply filename (.error (.fileNotFound filename))), w.fs) := by
        rw [eval, hparse, Command.perform, readFile, bind_assoc, Prog.settle_read_bind, hlookup]
        rfl
      exact ⟨_, h.start_ret hr hs hp hlog hset hw⟩
  | write filename words =>
    obtain ⟨place, hplace, hset⟩ := settle_writeFile filename (concatWords words)
      fun res => pure (writeReply (w.fs.cache.keys.any (· = filename)) res)
    refine ⟨log, h.start_call hr hs hp hlog (by rw [eval, hparse]; exact hset w.fs) ?_ hw⟩
    exact .loading filename _ _ place rfl hst (Or.inl ⟨words, hparse, rfl, rfl⟩) hplace rfl
  | touch filename =>
    have hcreate := settle_createFile w.fs filename []
      fun res => pure (touchReply filename res)
    by_cases hmem : filename ∈ w.fs.cache
    · rw [if_pos hmem] at hcreate
      exact ⟨_, h.start_ret hr hs hp hlog (by rw [eval, hparse]; exact hcreate) hw⟩
    · obtain ⟨place, hplace, hset⟩ := settle_writeFile filename []
        fun res => pure (touchReply filename res)
      rw [if_neg hmem, hset] at hcreate
      refine ⟨log, h.start_call hr hs hp hlog (by rw [eval, hparse]; exact hcreate) ?_ hw⟩
      exact .loading filename [] _ place rfl hst (Or.inr ⟨hparse, rfl, rfl⟩) hplace rfl
  | rm filename =>
    obtain ⟨unlink, hunlink, hset⟩ := settle_deleteFile filename
      fun res => pure (rmReply filename res)
    refine ⟨log, h.start_call hr hs hp hlog (by rw [eval, hparse]; exact hset w.fs) ?_ hw⟩
    exact .finding filename unlink rfl hst hparse hunlink rfl

section Agree

variable {fs : Fs} {c c' : Disk} {filename data : Bytes}

theorem Agree.replaceEntry (hn : n < 2 ^ 31) (hm : Mounted n entries fs c')
    (ha : Agree entries c c') (hdata : content c' (newEntry entries filename data) = data)
    (hl : (replaceEntry entries (newEntry entries filename data)).length ≤ maxFiles) (nf nf' : ℤ) :
    Agree (replaceEntry entries (newEntry entries filename data))
      ((c.write ((nextFree entries).toNat * 512) (dataBlock data)).write 0
        (layout (replaceEntry entries (newEntry entries filename data)) nf))
      (c'.write 0 (layout (replaceEntry entries (newEntry entries filename data)) nf')) := by
  intro e he
  have h5 : 5 ≤ e.start := by
    rcases mem_replaceEntry.mp he with ⟨hold, _⟩ | rfl
    · exact hm.start_ge hn hold
    · exact five_le_nextFree entries
  rw [content_write_directory (layout_length hl nf) h5,
    content_write_directory (layout_length hl nf') h5]
  rcases mem_replaceEntry.mp he with ⟨hold, _⟩ | rfl
  · rw [content_write_data h5 (le_nextFree hold)]
    exact ha e hold
  · exact Eq.trans content_stored hdata.symm

theorem Agree.filter (hn : n < 2 ^ 31) (hm : Mounted n entries fs c') (ha : Agree entries c c')
    (nf : ℤ) : Agree (entries.filter (·.name ≠ filename))
      (c.write 0 (layout (entries.filter (·.name ≠ filename)) nf))
      (c'.write 0 (layout (entries.filter (·.name ≠ filename)) nf)) := by
  intro e he
  have hold := (List.mem_filter.mp he).1
  have hl := layout_length (hm.wellFormed.filter (·.name ≠ filename)).length_le nf
  rw [content_write_directory hl (hm.start_ge hn hold),
    content_write_directory hl (hm.start_ge hn hold)]
  exact ha e hold

end Agree

section Call

variable (h5 : 5 ≤ n) (hn : n < 2 ^ 31) (h : Serial cmds fs₀ s₀ w entries log)
  (hr : w.requests[i]? = some r) (hs : r.started = true) (hw : w.step i = some w')
  (hu : w.Undisturbed i)

include h hr hs hw hu

theorem Serial.turn_reading {filename : Bytes} {e : Entry}
    (he : 5 ≤ e.start ∧ 0 ≤ e.size ∧ e.start + sectorsForSize e.size ≤ n)
    (hp : r.prog = .call (.read e.start ((sectorsForSize e.size).toNat * 512)) fun res =>
      received e.size res >>= fun res => pure (catReply filename res))
    (hlog : ∀ reply, some (content r.diskThen e) = some reply ↔ (i, reply) ∈ log) :
    Serial cmds fs₀ s₀ w' entries log := by
  obtain ⟨h5, h0, hend⟩ := he
  have hs0 := sectorsForSize_nonneg e.size
  have hle := le_sectorsForSize e.size
  have hdisk : Disk.handler n (.read e.start ((sectorsForSize e.size).toNat * 512))
      (dev.contents w.disk) = (.done (.ok ((dev.contents w.disk).read (e.start.toNat * 512)
        ((sectorsForSize e.size).toNat * 512))), dev.contents w.disk) := by
    refine if_pos ⟨by omega, ?_⟩
    push_cast
    omega
  have hsame := hu r hr hs _ _ hp
  rw [Request.Undisturbed, if_neg (by omega)] at hsame
  obtain ⟨disk, hc, rfl⟩ := World.of_step_call hr hs hp hdisk
    (Prog.settle_bind_ret (settle_received h0 Disk.read_length) _) hw
  rw [hsame, Disk.read_take (by omega), Request.observe_read _ _ _ (by omega)]
  have hstage : Stage n { r with prog := .ret (content r.diskThen e) }
      (some (content r.diskThen e)) := .replied _ hs rfl
  refine h.silent hr hstage rfl hlog (hc ▸ h.mounted) fun _ _ => ?_
  rw [hc]

include h5 hn

theorem Serial.turn_loading {filename data : Bytes} {finish : Except FsError Unit → Bytes}
    {place : Except FsError (List Entry × ℤ × Bool) → FsProg (Except FsError Unit)}
    (hst : r.stored = []) (hstores : r.Stores filename data finish)
    (hplace : ∀ fs entries nextFree dirty, (place (.ok (entries, nextFree, dirty))).settle fs =
      if Refused fs entries nextFree filename data then (.ret (.error .noSpace), fs)
      else (storeFile entries nextFree filename data).settle fs)
    (hp : r.prog = .call (.read 0 2560) fun res =>
      (loaded res >>= place) >>= fun res => pure (finish res))
    (hlog : ∀ reply, (i, reply) ∉ log) : ∃ log', Serial cmds fs₀ s₀ w' entries log' := by
  have htouch := hu r hr hs _ _ hp
  rw [Request.Undisturbed, if_pos rfl] at htouch
  obtain ⟨dirty, hload⟩ := h.mounted.settle_loaded h5 hn
  have hset := Prog.settle_bind_ret hload place
  rw [hplace] at hset
  by_cases hfull : Refused w.fs entries (nextFree entries) filename data
  · rw [if_pos hfull] at hset
    obtain ⟨disk, hc, rfl⟩ := World.of_step_call hr hs hp (handler_read_superblock h5)
      (Prog.settle_bind_ret hset _) hw
    have hstage : Stage n { r with
        prog := .ret (finish (.error .noSpace)), directory := dev.contents w.disk }
        (some (finish (.error .noSpace))) := .replied _ hs rfl
    refine ⟨_, h.answer hr hstage rfl hlog hc fun c hm _ => ?_⟩
    exact hstores.run (fun _ _ hok => by cases hok) (htouch filename)
      (hm.run_writeFile_refused h5 hn hfull)
  · rw [if_neg hfull, settle_storeFile] at hset
    obtain ⟨disk, hc, rfl⟩ := World.of_step_call hr hs hp (handler_read_superblock h5)
      (Prog.settle_bind_call hset _) hw
    have hstage : Stage n { r with
        prog := .call (.write (nextFree entries) (dataBlock data)) fun res =>
          stored entries (nextFree entries) filename data res >>= fun res => pure (finish res)
        directory := dev.contents w.disk } none := by
      have hsaw : Mounted n entries ⟨deviceInfo n, cacheOf entries⟩ (dev.contents w.disk) :=
        h.mounted.fs_eq ▸ h.mounted
      refine .storing filename data finish entries hs hst hstores hsaw ?_ ?_ rfl
      · intro hparse hmem
        have habsent := htouch filename hparse
        rw [h.mounted.fs_eq] at habsent
        exact habsent ((mem_cacheOf h.mounted.wellFormed.nodup).mpr hmem)
      · exact h.mounted.fs_eq ▸ hfull
    exact ⟨log, h.silent hr hstage rfl (fun reply => by simp [hlog reply]) (hc ▸ h.mounted)
      fun _ _ => by rw [hc]⟩

omit hu in
theorem Serial.turn_finding {filename : Bytes}
    {unlink : Except FsError (List Entry × ℤ × Bool) → FsProg (Except FsError Unit)}
    (hst : r.stored = []) (hparse : parse r.cmdStr = .rm filename)
    (hunlink : ∀ entries nextFree dirty, unlink (.ok (entries, nextFree, dirty)) =
      if filename ∈ entries.map Entry.name then
        writeSuperblock (entries.filter (·.name ≠ filename)) nextFree
      else pure (.error (.fileNotFound filename)))
    (hp : r.prog = .call (.read 0 2560) fun res =>
      (loaded res >>= unlink) >>= fun res => pure (rmReply filename res))
    (hlog : ∀ reply, (i, reply) ∉ log) : ∃ log', Serial cmds fs₀ s₀ w' entries log' := by
  obtain ⟨dirty, hload⟩ := h.mounted.settle_loaded h5 hn
  have hset := Prog.settle_bind_ret hload unlink
  rw [hunlink] at hset
  by_cases hmem : filename ∈ entries.map Entry.name
  · rw [if_pos hmem, settle_writeSuperblock (h.mounted.wellFormed.filter _).length_le] at hset
    obtain ⟨disk, hc, rfl⟩ := World.of_step_call hr hs hp (handler_read_superblock h5)
      (Prog.settle_bind_call hset _) hw
    have hsaw : Mounted n entries ⟨deviceInfo n, cacheOf entries⟩ (dev.contents w.disk) :=
      h.mounted.fs_eq ▸ h.mounted
    have hstage : Stage n { r with
        prog := .call (.write 0 (layout (entries.filter (·.name ≠ filename)) (nextFree entries)))
          fun res => recorded (entries.filter (·.name ≠ filename)) res >>=
            fun res => pure (rmReply filename res)
        directory := dev.contents w.disk } none :=
      .removing filename entries hs hst hparse hsaw hmem rfl
    exact ⟨log, h.silent hr hstage rfl (fun reply => by simp [hlog reply]) (hc ▸ h.mounted)
      fun _ _ => by rw [hc]⟩
  · rw [if_neg hmem] at hset
    obtain ⟨disk, hc, rfl⟩ := World.of_step_call hr hs hp (handler_read_superblock h5)
      (Prog.settle_bind_ret hset _) hw
    have hstage : Stage n { r with
        prog := .ret (rmReply filename (.error (.fileNotFound filename)))
        directory := dev.contents w.disk }
        (some (rmReply filename (.error (.fileNotFound filename)))) := .replied _ hs rfl
    refine ⟨_, h.answer hr hstage rfl hlog hc fun c hm _ => ?_⟩
    rw [eval, hparse]
    exact Prog.run_bind_done (hm.run_deleteFile_absent h5 hn hmem) _

omit h5 in
theorem Serial.turn_storing {filename data : Bytes} {finish : Except FsError Unit → Bytes}
    {seen : List Entry} (hst : r.stored = []) (hstores : r.Stores filename data finish)
    (hdata : data.length < 2 ^ 31) (hsaw : r.Saw n seen)
    (hnew : parse r.cmdStr = .touch filename → filename ∉ seen.map Entry.name)
    (hfits : ¬ Refused ⟨deviceInfo n, cacheOf seen⟩ seen (nextFree seen) filename data)
    (hp : r.prog = .call (.write (nextFree seen) (dataBlock data)) fun res =>
      stored seen (nextFree seen) filename data res >>= fun res => pure (finish res))
    (hlog : ∀ reply, (i, reply) ∉ log) : Serial cmds fs₀ s₀ w' entries log := by
  have hrange := (hsaw.inRange_data hn hdata hfits).1
  have hnf := five_le_nextFree seen
  have hne : nextFree seen ≠ 0 := by omega
  have hkeeps := hu r hr hs _ _ hp
  rw [Request.Undisturbed, if_neg hne, h.mounted.parsed] at hkeeps
  have hdisk : Disk.handler n (.write (nextFree seen) (dataBlock data)) (dev.contents w.disk) =
      (.done (.ok ()),
        (dev.contents w.disk).write ((nextFree seen).toNat * 512) (dataBlock data)) :=
    if_pos hrange
  obtain ⟨disk, hc, rfl⟩ := World.of_step_call hr hs hp hdisk
    (Prog.settle_bind_call (hsaw.settle_stored hn hdata hfits _) _) hw
  rw [Request.observe_write _ _ _ hne, hst]
  have hstage : Stage n { r with
      prog := .call (.write 0 (layout (replaceEntry seen (newEntry seen filename data))
        (wrap32 (nextFree seen + wrap32 (sectorsForSize data.length)))))
        fun res => recorded (replaceEntry seen (newEntry seen filename data)) res >>=
          fun res => pure (finish res)
      stored := [(nextFree seen, dataBlock data)] } none :=
    .committing filename data finish seen _ hs rfl hstores hsaw hnew hfits rfl
  refine h.silent hr hstage rfl (fun reply => by simp [hlog reply]) ?_ fun e he => ?_
  · refine h.mounted.congr ?_
    rw [hc]
    exact Disk.read_write_disjoint (Or.inl (by omega))
  · rw [hc]
    exact (hkeeps e he).symm

theorem Serial.turn_committing {filename data : Bytes} {finish : Except FsError Unit → Bytes}
    {seen : List Entry} {nf : ℤ} (hst : r.stored = [(nextFree seen, dataBlock data)])
    (hstores : r.Stores filename data finish) (hname : GoodName filename)
    (hdata : data.length < 2 ^ 31) (hsaw : r.Saw n seen)
    (hnew : parse r.cmdStr = .touch filename → filename ∉ seen.map Entry.name)
    (hfits : ¬ Refused ⟨deviceInfo n, cacheOf seen⟩ seen (nextFree seen) filename data)
    (hp : r.prog = .call (.write 0 (layout (replaceEntry seen (newEntry seen filename data)) nf))
      fun res => recorded (replaceEntry seen (newEntry seen filename data)) res >>=
        fun res => pure (finish res))
    (hlog : ∀ reply, (i, reply) ∉ log) :
    ∃ entries' log', Serial cmds fs₀ s₀ w' entries' log' := by
  have hcond := hu r hr hs _ _ hp
  rw [Request.Undisturbed, if_pos rfl, hst] at hcond
  obtain ⟨hdir, hintact, hexisted⟩ := hcond
  obtain rfl : entries = seen := (hsaw.congr hdir).unique h.mounted
  rw [← h.mounted.fs_eq] at hfits
  have hw' := h.mounted.replaceEntry_wellFormed hn hname hdata hfits
  rw [h.mounted.fs_eq] at hw'
  have hl := hw'.length_le
  obtain ⟨disk, hc, rfl⟩ := World.of_step_call hr hs hp
    (handler_write_superblock h5 (layout_length hl nf)) (Prog.settle_bind_ret settle_recorded _) hw
  rw [Request.observe_write_directory]
  have hstage : Stage n { r with prog := .ret (finish (.ok ())) } (some (finish (.ok ()))) :=
    .replied _ hs rfl
  have hcontent : content (dev.contents w.disk) (newEntry entries filename data) = data :=
    content_of_dataBlock (hintact (nextFree entries, dataBlock data) (List.mem_singleton_self _))
  have hfs :
      { w.fs with cache := cacheOf (replaceEntry entries (newEntry entries filename data)) } =
      (⟨deviceInfo n, cacheOf (replaceEntry entries (newEntry entries filename data))⟩ : Fs) := by
    rw [h.mounted.fs_eq]
  rw [hfs]
  refine ⟨_, _, h.effect hr hstage rfl hlog (hc ▸ mounted_layout hw' nf) fun c hm ha => ?_⟩
  obtain ⟨nf', -, hrun⟩ := hm.run_writeFile h5 hn hdata hfits
  refine ⟨_, hstores.run (fun words hparse _ => hexisted filename words hparse) ?_ hrun,
    mounted_layout hw' nf', ?_⟩
  · intro hparse hmem
    rw [h.mounted.fs_eq] at hmem
    exact hnew hparse ((mem_cacheOf h.mounted.wellFormed.nodup).mp hmem)
  · rw [hc]
    exact ha.replaceEntry hn h.mounted hcontent hl nf' nf

theorem Serial.turn_removing {filename : Bytes} {seen : List Entry}
    (hparse : parse r.cmdStr = .rm filename) (hsaw : r.Saw n seen)
    (hmem : filename ∈ seen.map Entry.name)
    (hp : r.prog =
      .call (.write 0 (layout (seen.filter (·.name ≠ filename)) (nextFree seen)))
        fun res => recorded (seen.filter (·.name ≠ filename)) res >>=
          fun res => pure (rmReply filename res))
    (hlog : ∀ reply, (i, reply) ∉ log) :
    ∃ entries' log', Serial cmds fs₀ s₀ w' entries' log' := by
  have hcond := hu r hr hs _ _ hp
  rw [Request.Undisturbed, if_pos rfl] at hcond
  obtain rfl : entries = seen := (hsaw.congr hcond.1).unique h.mounted
  have hw' : WellFormed ⟨deviceInfo n, cacheOf entries⟩ (entries.filter (·.name ≠ filename)) :=
    h.mounted.wellFormed_cache.filter _
  obtain ⟨disk, hc, rfl⟩ := World.of_step_call hr hs hp
    (handler_write_superblock h5 (layout_length hw'.length_le (nextFree entries)))
    (Prog.settle_bind_ret settle_recorded _) hw
  rw [Request.observe_write_directory]
  have hstage : Stage n { r with prog := .ret (rmReply filename (.ok ())) }
      (some (rmReply filename (.ok ()))) := .replied _ hs rfl
  have hfs : { w.fs with cache := cacheOf (entries.filter (·.name ≠ filename)) } =
      (⟨deviceInfo n, cacheOf (entries.filter (·.name ≠ filename))⟩ : Fs) := by
    rw [h.mounted.fs_eq]
  rw [hfs]
  refine ⟨_, _, h.effect hr hstage rfl hlog (hc ▸ mounted_layout hw' _) fun c hm ha => ?_⟩
  refine ⟨c.write 0 (layout (entries.filter (·.name ≠ filename)) (nextFree entries)), ?_,
    mounted_layout hw' _, ?_⟩
  · rw [eval, hparse]
    exact Prog.run_bind_done (hm.run_deleteFile h5 hn hmem) _
  · rw [hc]
    exact ha.filter hn h.mounted _

end Call

theorem Request.Stores.admissible {filename data : Bytes} {finish : Except FsError Unit → Bytes}
    (hr : r.Stores filename data finish) (ha : (parse r.cmdStr).Admissible) :
    GoodName filename ∧ data.length < 2 ^ 31 := by
  rcases hr with ⟨words, hparse, rfl, _⟩ | ⟨hparse, rfl, _⟩
  · rw [hparse] at ha
    exact ha
  · rw [hparse] at ha
    exact ⟨ha, by decide⟩

/-- **One turn of an undisturbed request.** It takes no effect, or its request is next in the
sequential run. -/
theorem Serial.turn (h5 : 5 ≤ n) (hn : n < 2 ^ 31)
    (hgood : ∀ cmdStr ∈ cmds, (parse cmdStr).Admissible)
    (h : Serial cmds fs₀ s₀ w entries log) (hu : w.Undisturbed i) (hw : w.step i = some w') :
    ∃ entries' log', Serial cmds fs₀ s₀ w' entries' log' := by
  cases hr : w.requests[i]? with
  | none =>
    rw [World.step, hr] at hw
    cases hw
  | some r =>
    have hadm : (parse r.cmdStr).Admissible := by
      obtain ⟨hget, hlt⟩ := h.command hr
      rw [List.getD_eq_getElem?_getD, List.getElem?_eq_getElem hlt, Option.getD_some] at hget
      exact hgood _ (hget ▸ List.getElem_mem hlt)
    obtain ⟨promise, hstage, hlog⟩ := h.stage i r hr
    have hnew : promise = none → ∀ reply, (i, reply) ∉ log := by
      rintro rfl reply hmem
      cases (hlog reply).mpr hmem
    cases hstage with
    | waiting hs hp hst => exact ⟨entries, h.start hn hr hs hp hst (hnew rfl) hw⟩
    | replied reply hs hp =>
      rw [World.step, hr, Option.bind_eq_bind, Option.bind_some, if_pos hs, hp] at hw
      cases hw
    | reading filename e hs he hp => exact ⟨entries, log, h.turn_reading hr hs hw hu he hp hlog⟩
    | loading filename data finish place hs hst hstores hplace hp =>
      exact ⟨entries, h.turn_loading h5 hn hr hs hw hu hst hstores hplace hp (hnew rfl)⟩
    | finding filename unlink hs hst hparse hunlink hp =>
      exact ⟨entries, h.turn_finding h5 hn hr hs hw hst hparse hunlink hp (hnew rfl)⟩
    | storing filename data finish seen hs hst hstores hsaw hfresh hfits hp =>
      exact ⟨entries, log, h.turn_storing hn hr hs hw hu hst hstores (hstores.admissible hadm).2
        hsaw hfresh hfits hp (hnew rfl)⟩
    | committing filename data finish seen nf hs hst hstores hsaw hfresh hfits hp =>
      obtain ⟨hname, hdata⟩ := hstores.admissible hadm
      exact h.turn_committing h5 hn hr hs hw hu hst hstores hname hdata hsaw hfresh hfits hp
        (hnew rfl)
    | removing filename seen hs hst hparse hsaw hmem hp =>
      exact h.turn_removing h5 hn hr hs hw hu hparse hsaw hmem hp (hnew rfl)

end Turn

section Run

variable {i : ℕ} {r : Request} {reply : Bytes} {promise : Option Bytes}

theorem serial_start {entries : List Entry} (hm : Mounted n entries fs₀ (dev.contents s₀)) :
    Serial cmds fs₀ s₀ (World.start dev fs₀ s₀ cmds) entries [] where
  mounted := hm
  commands := by
    rw [World.start, List.map_map]
    exact List.map_id _
  nodup := List.nodup_nil
  stage i r hr := by
    rw [World.start, List.getElem?_map] at hr
    obtain ⟨cmdStr, _, rfl⟩ := Option.map_eq_some_iff.mp hr
    exact ⟨none, .waiting rfl rfl rfl, by simp⟩
  logged := by simp
  serial := ⟨s₀, rfl, hm, fun _ _ => rfl⟩

theorem Stage.promise_eq (h : Stage n r promise) (hs : r.started = true)
    (hp : r.prog = .ret reply) : promise = some reply := by
  cases h with
  | waiting hs' =>
    rw [hs] at hs'
    cases hs'
  | replied reply' _ hp' =>
    rw [hp] at hp'
    cases hp'
    rfl
  | reading _ _ _ _ hp' | loading _ _ _ _ _ _ _ _ hp' | finding _ _ _ _ _ _ hp'
  | storing _ _ _ _ _ _ _ _ _ _ hp' | committing _ _ _ _ _ _ _ _ _ _ _ hp'
  | removing _ _ _ _ _ _ _ hp' =>
    rw [hp] at hp'
    cases hp'

theorem sameFiles (hn : n < 2 ^ 31) {fs : Fs} {s s' : dev.State}
    (hm : Mounted n entries fs (dev.contents s)) (hm' : Mounted n entries fs (dev.contents s'))
    (ha : Agree entries (dev.contents s') (dev.contents s)) : SameFiles dev fs fs s s' := by
  refine ⟨fun name => Iff.rfl, fun name => ?_⟩
  by_cases hmem : name ∈ entries.map Entry.name
  · obtain ⟨e, he, rfl⟩ := List.mem_map.mp hmem
    obtain ⟨t, ⟨hrun, _⟩, _⟩ := dev.completes (hm.run_readFile hn he)
    obtain ⟨t', ⟨hrun', _⟩, _⟩ := dev.completes (hm'.run_readFile hn he)
    rw [ha e he] at hrun'
    exact ⟨_, t, t', hrun, hrun'⟩
  · obtain ⟨t, ⟨hrun, _⟩, _⟩ := dev.completes (hm.run_readFile_absent hmem)
    obtain ⟨t', ⟨hrun', _⟩, _⟩ := dev.completes (hm'.run_readFile_absent hmem)
    exact ⟨_, t, t', hrun, hrun'⟩

theorem Serial.linearizable (hn : n < 2 ^ 31) (h : Serial cmds fs₀ s₀ w entries log)
    (hd : w.Done) : Linearizable dev cmds fs₀ s₀ w := by
  obtain ⟨s, hrun, hm, ha⟩ := h.serial
  have hlength : w.requests.length = cmds.length := by
    rw [← h.commands, List.length_map]
  have hreplied : ∀ (i : ℕ) (hi : i < w.requests.length),
      ∃ reply, (i, reply) ∈ log ∧ w.Replied i reply := by
    intro i hi
    have hr := List.getElem?_eq_getElem hi
    obtain ⟨hs, reply, hp⟩ := hd _ (List.getElem_mem hi)
    obtain ⟨promise, hstage, hlog⟩ := h.stage i _ hr
    exact ⟨reply, (hlog reply).mp (hstage.promise_eq hs hp), _, hr, hs, hp⟩
  refine ⟨log, w.fs, s, ?_, hrun, ?_, sameFiles hn h.mounted hm ha⟩
  · refine (List.perm_ext_iff_of_nodup h.nodup List.nodup_range).mpr fun i => ?_
    rw [List.mem_range, List.mem_map]
    constructor
    · rintro ⟨p, hp, rfl⟩
      exact h.logged p hp
    · intro hi
      obtain ⟨reply, hmem, _⟩ := hreplied i (hlength ▸ hi)
      exact ⟨_, hmem, rfl⟩
  · rintro ⟨i, reply⟩ hmem
    obtain ⟨reply', hmem', r, hr, hs, hp⟩ := hreplied i (hlength ▸ h.logged _ hmem)
    obtain ⟨promise, _, hlog⟩ := h.stage i r hr
    have hsame := ((hlog reply).mpr hmem).symm.trans ((hlog reply').mpr hmem')
    obtain rfl := Option.some.inj hsame
    exact ⟨r, hr, hs, hp⟩

end Run

/-- **Undisturbed requests are linearizable.** In every run in which each turn finds what its
request relies on undisturbed, the replies and the files are those of the requests one after
another in some order. -/
theorem requests_linearizable (h5 : 5 ≤ n) (hn : n < 2 ^ 31) (dev : Device n) (cmds : List Bytes)
    (hgood : ∀ cmdStr ∈ cmds, (parse cmdStr).Admissible) (fs₀ : Fs) (s₀ : dev.State)
    (entries : List Entry) (hm : Mounted n entries fs₀ (dev.contents s₀)) (w : World dev)
    (hrun : Reaches World.step World.Undisturbed (World.start dev fs₀ s₀ cmds) w) (hd : w.Done) :
    Linearizable dev cmds fs₀ s₀ w := by
  have hinv : ∃ entries log, Serial cmds fs₀ s₀ w entries log := by
    refine hrun.invariant (I := fun w => ∃ entries log, Serial cmds fs₀ s₀ w entries log) ?_
      ⟨entries, [], serial_start hm⟩
    rintro w i w' ⟨entries, log, h⟩ hu hw
    exact h.turn h5 hn hgood hu hw
  obtain ⟨entries, log, h⟩ := hinv
  exact h.linearizable hn hd

section Interleaved

variable {l : List Request} {i : ℕ} {r : Request} {fs fs' : Fs} {c : Disk}
  {filename : Bytes} {words : List Bytes}

/-- The three turns of a write that has started, whatever happened between. -/
theorem World.write_turns (h5 : 5 ≤ n) (hn : n < 2 ^ 31) (hm : Mounted n entries fs c)
    (hr : l[i]? = some r) (hs : r.started = true) (hst : r.stored = [])
    (hparse : parse r.cmdStr = .write filename words)
    (hp : (eval r.cmdStr).settle fs' = (r.prog, fs')) (hcache : r.cacheThen = fs'.cache)
    (hexisted : filename ∈ fs.cache ↔ filename ∈ fs'.cache) (hname : GoodName filename)
    (hdata : (concatWords words).length < 2 ^ 31)
    (hfits : ¬ Refused fs entries (nextFree entries) filename (concatWords words)) :
    ∃ r' fs₁ c₁, r'.started = true ∧
      r'.prog = .ret (writeReply (fs'.cache.keys.any (· = filename)) (.ok ())) ∧
      Mounted n (replaceEntry entries (newEntry entries filename (concatWords words))) fs₁ c₁ ∧
      Reaches World.step World.Undisturbed (⟨fs, c, l⟩ : World (Disk.device n))
        ⟨fs₁, c₁, l.set i r'⟩ := by
  obtain ⟨placing, storing, committing, nf, hbegin, hplace, hstore, hcommit⟩ :=
    hm.settle_write h5 hn fs' hparse hdata hfits
  have hprog : r.prog = .call (.read 0 2560) placing := congrArg Prod.fst (hp.symm.trans hbegin)
  have hrange := (hm.inRange_data hn hdata hfits).1
  have hl := hm.length_replaceEntry_le hn hfits
  have hnf := five_le_nextFree entries
  have hlt := (List.getElem?_eq_some_iff.mp hr).1
  set c' := c.write ((nextFree entries).toNat * 512) (dataBlock (concatWords words)) with hc'
  have hdirectory : c'.read 0 2560 = c.read 0 2560 :=
    Disk.read_write_disjoint (Or.inl (by omega))
  have hintact : c'.read ((nextFree entries).toNat * 512) (dataBlock (concatWords words)).length =
      dataBlock (concatWords words) := Disk.read_write_same _ _ _
  have hwrites : Disk.handler n (.write (nextFree entries) (dataBlock (concatWords words))) c =
      (.done (.ok ()), c') := if_pos hrange
  let r₁ : Request := { r with
    prog := .call (.write (nextFree entries) (dataBlock (concatWords words))) storing
    directory := c }
  let r₂ : Request := { r₁ with
    prog := .call (.write 0 (layout
      (replaceEntry entries (newEntry entries filename (concatWords words))) nf)) committing
    stored := r.stored ++ [(nextFree entries, dataBlock (concatWords words))] }
  obtain ⟨d, hd, hload⟩ := World.step_call (w := (⟨fs, c, l⟩ : World (Disk.device n))) hr hs hprog
    (handler_read_superblock h5) hplace
  obtain rfl : c = d := hd.symm
  rw [Request.observe, if_pos rfl] at hload
  obtain ⟨d, hd, hwrite⟩ := World.step_call (w := (⟨fs, c, l.set i r₁⟩ : World (Disk.device n)))
    (List.getElem?_set_self hlt) hs rfl hwrites (hstore fs)
  obtain rfl : c' = d := hd.symm
  rw [Request.observe_write _ _ _ (by omega), List.set_set] at hwrite
  obtain ⟨d, hd, hrecord⟩ := World.step_call (w := (⟨fs, c', l.set i r₂⟩ : World (Disk.device n)))
    (List.getElem?_set_self hlt) hs rfl (handler_write_superblock h5 (layout_length hl nf))
    (hcommit fs)
  subst hd
  rw [Request.observe_write_directory, List.set_set] at hrecord
  refine ⟨{ r₂ with prog := .ret _ }, _, _, hs, rfl, ?_,
    .head i ?_ hload (.head i ?_ hwrite (.head i ?_ hrecord (.refl _)))⟩
  · have hw := hm.replaceEntry_wellFormed hn hname hdata hfits
    rw [hm.fs_eq] at hw ⊢
    exact mounted_layout hw nf
  · rintro q hq - op k hcall
    cases hr.symm.trans hq
    cases hprog.symm.trans hcall
    intro name htouch
    cases hparse.symm.trans htouch
  · rintro q hq - op k hcall
    cases (List.getElem?_set_self hlt).symm.trans hq
    cases hcall
    rw [Request.Undisturbed, if_neg (by omega)]
    intro e (he : e ∈ parsedEntries fs c)
    rw [hm.parsed] at he
    exact content_write_data (hm.start_ge hn he) (le_nextFree he)
  · rintro q hq - op k hcall
    cases (List.getElem?_set_self hlt).symm.trans hq
    cases hcall
    refine ⟨hdirectory, ?_, fun name ws hwritten => ?_⟩
    · rw [hst]
      rintro p hp
      cases List.mem_singleton.mp hp
      exact hintact
    · cases hparse.symm.trans hwritten
      rw [hexisted, ← hcache]

end Interleaved

/-- Two clients write a file each; the second request starts while the first one waits for the
directory, and reads it once the first one has ended. -/
theorem requests_linearizable_two_writes : ∃ w : World (Disk.device 64),
    w.Replied 0 (bytes "File created successfully.") ∧
      w.Replied 1 (bytes "File created successfully.") ∧
      bytes "a" ∈ w.fs.cache ∧ bytes "b" ∈ w.fs.cache ∧
      Linearizable (Disk.device 64) [bytes "write a x", bytes "write b y"]
        ⟨deviceInfo 64, cacheOf []⟩ (Disk.write (fun _ => 0) 0 (layout [] 5)) w := by
  have hm : Mounted 64 [] ⟨deviceInfo 64, cacheOf []⟩ (Disk.write (fun _ => 0) 0 (layout [] 5)) :=
    mounted_layout (WellFormed.nil : WellFormed ⟨deviceInfo 64, ∅⟩ []) 5
  generalize Disk.write (fun _ => 0) 0 (layout [] 5) = c at hm ⊢
  have ha : parse (bytes "write a x") = .write (bytes "a") [bytes "x"] := by decide
  have hb : parse (bytes "write b y") = .write (bytes "b") [bytes "y"] := by decide
  have hgood : GoodName (bytes "a") := by decide
  have hgood' : GoodName (bytes "b") := by decide
  obtain ⟨p, -, -, -, hbegin, -⟩ :=
    hm.settle_write (by decide) (by decide) ⟨deviceInfo 64, cacheOf []⟩ ha (by decide) (by decide)
  obtain ⟨q, -, -, -, hbegin', -⟩ :=
    hm.settle_write (by decide) (by decide) ⟨deviceInfo 64, cacheOf []⟩ hb (by decide) (by decide)
  let x : Request := (Request.waiting (bytes "write a x") c).begun (.call (.read 0 2560) p)
    (cacheOf []) c
  let y : Request := (Request.waiting (bytes "write b y") c).begun (.call (.read 0 2560) q)
    (cacheOf []) c
  obtain ⟨x', fs₁, c₁, hx, hpx, hm₁, hrun₁⟩ := World.write_turns (i := 0) (l := [x, y]) (by decide)
    (by decide) hm rfl rfl rfl ha hbegin rfl Iff.rfl hgood (by decide) (by decide)
  obtain ⟨y', fs₂, c₂, hy, hpy, hm₂, hrun₂⟩ := World.write_turns (i := 1) (l := [x', y]) (by decide)
    (by decide) hm₁ rfl rfl rfl hb hbegin' rfl (by rw [hm₁.fs_eq]; decide) hgood' (by decide)
    (by rw [hm₁.fs_eq]; decide)
  have hfiles : bytes "a" ∈ fs₂.cache ∧ bytes "b" ∈ fs₂.cache := by
    rw [hm₂.fs_eq]
    decide
  refine ⟨_, ⟨x', rfl, hx, hpx⟩, ⟨y', rfl, hy, hpy⟩, hfiles.1, hfiles.2,
    requests_linearizable (by decide) (by decide) (Disk.device 64) _ ?_ _ c [] hm _
    (.head 0 ?_ (World.step_start rfl rfl rfl hbegin)
      (.head 1 ?_ (World.step_start rfl rfl rfl hbegin') (hrun₁.trans hrun₂))) ?_⟩
  · intro cmdStr hmem
    rcases List.mem_pair.mp hmem with rfl | rfl
    · rw [ha]
      exact ⟨hgood, by decide⟩
    · rw [hb]
      exact ⟨hgood', by decide⟩
  · rintro r ⟨⟩ hs
    cases hs
  · rintro r ⟨⟩ hs
    cases hs
  · intro r hmem
    rcases List.mem_pair.mp hmem with rfl | rfl
    · exact ⟨hx, _, hpx⟩
    · exact ⟨hy, _, hpy⟩

end OCamlStudy.NanoOs
