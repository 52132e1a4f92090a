import OCamlStudy.NanoOs.MapView
import OCamlStudy.NanoOs.Torn

/-! # Failing writes

A call of `write_file` or `create_file` whose data write fails half-way, or whose
directory write persists only some of its sectors, whether the call returns or
the machine stops. A fresh mount then shows the old files, or the old files with
the new one.
-/

namespace OCamlStudy.NanoOs

open OCaml Program

/-- Which write of a call fails, and what it leaves in its target sectors. -/
inductive Fault where
  | data (junk : Disk)
  | directory (keep : ℕ → Bool)

/-- The target of a failed write holds arbitrary bytes. -/
def Disk.overwritten (c : Disk) (pos len : ℕ) (junk : Disk) : Disk := fun i =>
  if pos ≤ i ∧ i < pos + len then junk i else c i

/-- A failed write returns an error or stops the machine. -/
def writeFailure : Option Block.Error → Outcome Exn (Except Block.Error Unit)
  | some e => .done (.error e)
  | none => .stopped

/-- The disk of `n` sectors on which one write fails; the writes are counted from zero. -/
def faulty (n : ℕ) (fault : Fault) (err : Option Block.Error) : BlockHandler (Disk × ℕ)
  | .getInfo, s => (.done ⟨n, 512, true⟩, s)
  | .read sectorStart len, s => ((Disk.handler n (.read sectorStart len) s.1).1, s)
  | .write sectorStart buffer, (c, k) =>
    if Disk.InRange n sectorStart buffer.length then
      match fault, k with
      | .data junk, 0 =>
        (writeFailure err, c.overwritten (sectorStart.toNat * 512) buffer.length junk, 1)
      | .directory keep, 1 =>
        (writeFailure err, c.torn (c.write (sectorStart.toNat * 512) buffer) keep, 2)
      | _, _ => (.done (.ok ()), c.write (sectorStart.toNat * 512) buffer, k + 1)
    else (.stopped, c, k)

/-- A fresh mount shows the old files, or the new one among them if the directory was reached. -/
def Survives (n : ℕ) (files : FileMap) (filename data : Bytes) (reached : Prop) (c : Disk) : Prop :=
  ∀ fs₁, ∃ fs c' files', (connect true).run (Disk.handler n) fs₁ c = (.done (), fs, c') ∧
    MapView (Disk.device n) files' fs c' ∧
    (files' = files ∨ (reached ∧ files' = Function.update files filename (some data)))

/-- The files that a mount finds on a disk. -/
structure DiskShows (n : ℕ) (c : Disk) (files : FileMap) : Prop where
  magic : c.read 0 8 = magicStr
  files : fileMap (parsedEntries ⟨deviceInfo n, ∅⟩ c) c = files

/-- What a call of `write_file` whose write fails leaves, after so many writes. -/
inductive Failed (entries : List Entry) (fs : Fs) (c : Disk) (filename data : Bytes) :
    Fault → ℕ → Disk → Prop where
  | refused (fault : Fault) : Failed entries fs c filename data fault 0 c
  | data (junk : Disk) : Failed entries fs c filename data (.data junk) 1
      (c.overwritten ((nextFree entries).toNat * 512) (dataBlock data).length junk)
  | directory (keep : ℕ → Bool) (nf : ℤ) (c₁ : Disk)
      (hc₁ : c₁ = c.write ((nextFree entries).toNat * 512) (dataBlock data))
      (hw : WellFormed fs (replaceEntry entries (newEntry entries filename data))) :
      Failed entries fs c filename data (.directory keep) 2 (c₁.torn (c₁.write 0
        (layout (replaceEntry entries (newEntry entries filename data)) nf)) keep)

section Crash

variable {n : ℕ} {entries : List Entry} {fs : Fs} {c c' : Disk} {filename data : Bytes}
  {files : FileMap} {reached : Prop}

theorem shows_of_stored (hw : WellFormed ⟨deviceInfo n, ∅⟩ entries) (hst : Stored entries c) :
    DiskShows n c (fileMap entries c) := by
  obtain ⟨nf, hread⟩ := hst
  exact ⟨magic_layout hread, by rw [parsedEntries_layout hw hread]⟩

theorem Mounted.shows (hm : Mounted n entries fs c) : DiskShows n c (fileMap entries c) := by
  have he : parsedEntries ⟨deviceInfo n, ∅⟩ c = entries := by
    rw [← hm.parsed, hm.fs_eq]
    rfl
  exact ⟨hm.magic, by rw [he]⟩

theorem Mounted.kept_data (hm : Mounted n entries fs c) (hst : Stored entries c)
    (hn : n < 2 ^ 31) (len : ℕ) (junk : Disk) :
    Stored entries (c.overwritten ((nextFree entries).toNat * 512) len junk) ∧
      fileMap entries (c.overwritten ((nextFree entries).toNat * 512) len junk) =
        fileMap entries c := by
  obtain ⟨nf, hst⟩ := hst
  have hnf := five_le_nextFree entries
  have hlow : ∀ i < (nextFree entries).toNat * 512,
      c.overwritten ((nextFree entries).toNat * 512) len junk i = c i :=
    fun i hi => if_neg fun h => absurd h.1 (not_le.mpr hi)
  constructor
  · refine ⟨nf, ?_⟩
    rw [← hst]
    exact Disk.read_congr fun i _ hi => hlow i (by omega)
  · refine fileMap_congr fun e he => ?_
    exact content_congr (fun i hi _ => hlow i hi) (hm.start_ge hn he) (by
      have := le_nextFree he
      omega)

/-- The data is written and the directory is torn. -/
theorem Mounted.shows_directory (hm : Mounted n entries fs c) (hst : Stored entries c)
    (hn : n < 2 ^ 31)
    (hw : WellFormed fs (replaceEntry entries (newEntry entries filename data))) {c₁ : Disk}
    (hc₁ : c₁ = c.write ((nextFree entries).toNat * 512) (dataBlock data)) {nf' : ℤ}
    {keep : ℕ → Bool} (hc' : c' = c₁.torn (c₁.write 0
      (layout (replaceEntry entries (newEntry entries filename data)) nf')) keep) :
    DiskShows n c' (fileMap entries c) ∨
      DiskShows n c' (Function.update (fileMap entries c) filename (some data)) := by
  obtain ⟨nf, hold⟩ := hc₁ ▸ hst.write_data (dataBlock data)
  obtain ⟨nf'', hnew⟩ := stored_layout (c := c₁) hw.length_le nf'
  have habove : ∀ i, 2560 ≤ i → c' i = c₁ i := by
    intro i hi
    rw [hc', Disk.torn]
    split_ifs
    · exact Disk.write_apply_outside (Or.inr (by rw [layout_length hw.length_le]; omega))
    · rfl
  have hkept : ∀ e ∈ entries, content c' e = content c e := by
    intro e he
    rw [content_of_above habove (hm.start_ge hn he), hc₁,
      content_write_data (hm.start_ge hn he) (le_nextFree he)]
  have hstored : content c' (newEntry entries filename data) = data := by
    rw [content_of_above habove (five_le_nextFree _), hc₁]
    exact content_stored
  have hmagic : c'.read 0 8 = magicStr := hc' ▸ magic_torn hold hnew
  have hw' : WellFormed ⟨deviceInfo n, ∅⟩
      (replaceEntry entries (newEntry entries filename data)) := hm.recache hw
  have hparsed := @parsedEntries_torn _ _ keep _ _ _ _ _ hm.wellFormed_cache hw' hold hnew
  rw [← hc'] at hparsed
  rcases hparsed with he | he
  · left
    exact ⟨hmagic, by rw [he, fileMap_congr hkept]⟩
  · right
    refine ⟨hmagic, ?_⟩
    rw [he, fileMap_replaceEntry hm.wellFormed hw hkept, hstored]
    rfl

section Recovery

variable (h5 : 5 ≤ n) (hn : n < 2 ^ 31)

include h5 hn

theorem DiskShows.connect (h : DiskShows n c files) (fs₁ : Fs) :
    ∃ fs c', (connect true).run (Disk.handler n) fs₁ c = (.done (), fs, c') ∧
      MapView (Disk.device n) files fs c' := by
  obtain ⟨c', hrun, hm, hc⟩ := run_connect_formatted h5 true fs₁ h.magic rfl
  refine ⟨_, c', hrun, ?_⟩
  have hfiles : fileMap (parsedEntries ⟨deviceInfo n, ∅⟩ c) c' = files := by
    rw [← h.files]
    refine fileMap_congr fun e hm' => ?_
    rcases hc with rfl | ⟨nf, rfl⟩
    · rfl
    · exact content_write_directory (layout_length hm.wellFormed.length_le nf) (hm.start_ge hn hm')
  rw [← hfiles]
  exact hm.mapView h5 hn

theorem survives_of_shows (h : DiskShows n c files ∨
    (reached ∧ DiskShows n c (Function.update files filename (some data)))) :
    Survives n files filename data reached c := by
  intro fs₁
  rcases h with hold | ⟨hr, hnew⟩
  · obtain ⟨fs, c', hrun, hview⟩ := hold.connect h5 hn fs₁
    exact ⟨fs, c', files, hrun, hview, .inl rfl⟩
  · obtain ⟨fs, c', hrun, hview⟩ := hnew.connect h5 hn fs₁
    exact ⟨fs, c', _, hrun, hview, .inr ⟨hr, rfl⟩⟩

/-- How `write_file` ends when one of its writes fails. -/
theorem Mounted.run_writeFile_faulty (hm : Mounted n entries fs c) (hname : GoodName filename)
    (hdata : data.length < 2 ^ 31) (fault : Fault) (err : Option Block.Error) :
    ∃ o fs' c' k, (writeFile filename data).run (faulty n fault err) fs (c, 0) = (o, fs', c', k) ∧
      Failed entries fs c filename data fault k c' := by
  obtain ⟨dirty, hload⟩ := hm.run_loadEntries_of (h := faulty n fault err) (s := (c, 0)) h5 hn
    (by rw [faulty, handler_read_superblock h5])
  by_cases hr : Refused fs entries (nextFree entries) filename data
  · rw [NanoOs.run_writeFile hload, if_pos hr]
    exact ⟨_, _, _, _, rfl, .refused fault⟩
  have hw := hm.replaceEntry_wellFormed hn hname hdata hr
  obtain ⟨hrange, hentry⟩ := hm.inRange_data hn hdata hr
  rw [NanoOs.run_writeFile hload, if_neg hr, storeFile, hentry]
  cases fault with
  | data junk =>
    have hwrite : faulty n (.data junk) err (.write (nextFree entries) (dataBlock data)) (c, 0) =
        (writeFailure err, c.overwritten ((nextFree entries).toNat * 512) (dataBlock data).length
          junk, 1) := if_pos hrange
    cases err with
    | none =>
      rw [Prog.run_bind_stopped (Block.run_write_stopped hwrite)]
      exact ⟨_, _, _, _, rfl, .data junk⟩
    | some e =>
      rw [Prog.run_bind_done (Block.run_write hwrite)]
      exact ⟨_, _, _, _, rfl, .data junk⟩
  | directory keep =>
    have hwrite : faulty n (.directory keep) err (.write (nextFree entries) (dataBlock data))
        (c, 0) = (.done (.ok ()), c.write ((nextFree entries).toNat * 512) (dataBlock data), 1) :=
      if_pos hrange
    rw [Prog.run_bind_done (Block.run_write hwrite)]
    dsimp only
    generalize wrap32 (nextFree entries + wrap32 (sectorsForSize data.length)) = nf
    generalize hc₁ : c.write ((nextFree entries).toNat * 512) (dataBlock data) = c₁
    have hfailed : Failed entries fs c filename data (.directory keep) 2 _ :=
      .directory keep nf c₁ hc₁.symm hw
    have hsuper : faulty n (.directory keep) err
        (.write 0 (layout (replaceEntry entries (newEntry entries filename data)) nf)) (c₁, 1) =
        (writeFailure err, c₁.torn (c₁.write 0
          (layout (replaceEntry entries (newEntry entries filename data)) nf)) keep, 2) :=
      if_pos ⟨le_rfl, by rw [layout_length hw.length_le]; omega⟩
    cases err with
    | none =>
      rw [run_writeSuperblock_stopped hw.length_le hsuper]
      exact ⟨_, _, _, _, rfl, hfailed⟩
    | some e =>
      rw [run_writeSuperblock_error hw.length_le hsuper]
      exact ⟨_, _, _, _, rfl, hfailed⟩

omit h5 in
/-- What such a call leaves shows the old files, or the new one if the directory was reached. -/
theorem Failed.shows {fault : Fault} {k : ℕ} (h : Failed entries fs c filename data fault k c')
    (hm : Mounted n entries fs c) (hst : Stored entries c) :
    DiskShows n c' (fileMap entries c) ∨
      (k = 2 ∧ DiskShows n c' (Function.update (fileMap entries c) filename (some data))) := by
  cases h with
  | refused => exact .inl hm.shows
  | data junk =>
    obtain ⟨hstored, hfiles⟩ := hm.kept_data hst hn (dataBlock data).length junk
    have hshows := shows_of_stored hm.wellFormed_cache hstored
    rw [hfiles] at hshows
    exact .inl hshows
  | directory keep nf c₁ hc₁ hw =>
    exact (hm.shows_directory hst hn hw hc₁ rfl).imp_right fun hnew => ⟨rfl, hnew⟩

theorem Mounted.writeFile_survives (hm : Mounted n entries fs c) (hst : Stored entries c)
    (hname : GoodName filename) (hdata : data.length < 2 ^ 31) (fault : Fault)
    (err : Option Block.Error) :
    ∃ o fs' c' k, (writeFile filename data).run (faulty n fault err) fs (c, 0) = (o, fs', c', k) ∧
      Survives n (fileMap entries c) filename data (k = 2) c' := by
  obtain ⟨o, fs', c', k, hrun, hfailed⟩ := hm.run_writeFile_faulty h5 hn hname hdata fault err
  exact ⟨o, fs', c', k, hrun, survives_of_shows h5 hn (hfailed.shows hn hm hst)⟩

end Recovery

end Crash

/-- **Writes of files are failure-atomic.** After any run from a formatted disk, whichever write
of a call fails and whatever it leaves in its sectors, a fresh mount shows the old files, or the
old files with the complete new one, and the latter only if the directory write was reached. -/
theorem write_failure_atomic {n : ℕ} (h5 : 5 ≤ n) (hn : n < 2 ^ 31) (dev : Device n)
    (repair : Bool) (fs₀ : Fs) (s₀ : dev.State) (ops : List FsOp)
    (ha : ∀ op ∈ ops, op.Admissible) :
    ∃ replies fs s, dev.Completes (fromFormat repair ops) fs₀ s₀ replies fs s ∧
      ∀ filename data, GoodName filename → data.length < 2 ^ 31 →
        ∀ call, (call = writeFile filename data ∨ call = createFile filename data) →
          ∀ fault err, ∃ o fs' c k,
            call.run (faulty n fault err) fs (dev.contents s, 0) = (o, fs', c, k) ∧
              Survives n (FileMap.replay (fun _ => none) (ops.zip replies)) filename data
                (k = 2) c := by
  obtain ⟨replies, entries, fs, s, hc, _, hm, hf, hst⟩ :=
    fromFormat_mounted h5 fs₀ repair hn dev s₀ ops ha
  refine ⟨replies, fs, s, hc, fun filename data hname hdata call hcall fault err => ?_⟩
  rw [← hf]
  rcases hcall with rfl | rfl
  · exact hm.writeFile_survives h5 hn hst hname hdata fault err
  · rw [run_createFile]
    split_ifs
    · exact ⟨_, _, _, _, rfl, survives_of_shows h5 hn (.inl hm.shows)⟩
    · exact hm.writeFile_survives h5 hn hst hname hdata fault err

/-- The directory write for a second file keeps only its third sector and stops. -/
theorem write_failure_atomic_torn : ∃ replies fs s,
    RamDisk.device.Completes (fromFormat true [.createFile (bytes "a") (bytes "x")])
        ⟨deviceInfo 0, ∅⟩ RamDisk.fresh replies fs s ∧
      ∃ o fs' c k, (writeFile (bytes "b") (bytes "y")).run
          (faulty 2048 (.directory fun i => i == 2) none) fs (RamDisk.device.contents s, 0) =
            (o, fs', c, k) ∧
        Survives 2048
          (FileMap.replay (fun _ => none) (List.zip [.createFile (bytes "a") (bytes "x")] replies))
          (bytes "b") (bytes "y") (k = 2) c := by
  obtain ⟨replies, fs, s, hc, h⟩ := write_failure_atomic (n := 2048) (by decide) (by decide)
    RamDisk.device true ⟨deviceInfo 0, ∅⟩ RamDisk.fresh [.createFile (bytes "a") (bytes "x")] (by
      intro op hop
      obtain rfl := List.mem_singleton.mp hop
      exact ⟨by decide, by decide⟩)
  exact ⟨replies, fs, s, hc, h _ _ (by decide) (by decide) _ (Or.inl rfl) _ _⟩

end OCamlStudy.NanoOs
