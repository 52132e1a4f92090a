import OCamlStudy.NanoOs.MapView

/-! # The cache as a mirror of the disk

The cache holds names as they are given, the directory truncated and padded. As
long as every written name fits its slot the two agree after every run; the first
successful write of another name separates them.
-/

namespace OCamlStudy.NanoOs

open OCaml Program

/-- What `parse_superblock` returns for the directory now on the disk. -/
def OnDisk (fs : Fs) (c : Disk) (entries : List Entry) : Prop :=
  ∃ nextFree dirty, parseSuperblock fs (c.read 0 2560) = .ok (.ok (entries, nextFree, dirty))

def Caches (cache : Cache) (entries : List Entry) : Prop := ∀ name, cache.lookup name =
  (entries.find? fun e => e.name = name).map fun e => (e.start, e.size)

/-- The cache is the map of the entries on the disk. -/
def Mirrors (fs : Fs) (c : Disk) : Prop := ∃ entries, OnDisk fs c entries ∧ Caches fs.cache entries

section Mirror

variable {n : ℕ} {entries : List Entry} {fs : Fs} {c : Disk}

theorem onDisk_iff : OnDisk fs c entries ↔
    c.read 0 8 = magicStr ∧ parsedEntries fs c = entries := by
  constructor
  · rintro ⟨nf, dirty, hp⟩
    by_cases hm : c.read 0 8 = magicStr
    · obtain ⟨dirty', hp', -⟩ := parseSuperblock_read hm
      exact ⟨hm, (Prod.mk.inj (Except.ok.inj (Except.ok.inj (hp'.symm.trans hp)))).1⟩
    · rw [parseSuperblock_corrupt hm] at hp
      cases hp
  · rintro ⟨hm, rfl⟩
    obtain ⟨dirty, hp, -⟩ := parseSuperblock_read hm
    exact ⟨_, dirty, hp⟩

theorem caches_cacheOf (hn : (entries.map Entry.name).Nodup) :
    Caches (cacheOf entries) entries := by
  intro name
  by_cases hname : name ∈ entries.map Entry.name
  · obtain ⟨e, he, rfl⟩ := List.mem_map.mp hname
    rw [lookup_cacheOf hn he, find?_name hn he]
    rfl
  · rw [lookup_cacheOf_none hname, List.find?_eq_none.mpr (by simpa using hname)]
    rfl

theorem Mounted.mirrors (hm : Mounted n entries fs c) : Mirrors fs c := by
  refine ⟨entries, onDisk_iff.mpr ⟨hm.magic, hm.parsed⟩, ?_⟩
  rw [hm.fs_eq]
  exact caches_cacheOf hm.wellFormed.nodup

theorem not_mirrors {name : Bytes} (hname : ¬ GoodName name) (hmem : name ∈ fs.cache) :
    ¬ Mirrors fs c := by
  rintro ⟨entries, hd, hl⟩
  obtain ⟨_, rfl⟩ := onDisk_iff.mp hd
  rw [← AList.lookup_isSome, hl, Option.isSome_map, List.find?_isSome] at hmem
  obtain ⟨e, he, hen⟩ := hmem
  obtain rfl := of_decide_eq_true hen
  exact hname (parsedEntries_wellFormed.entryOk e he).name

theorem Mounted.mirror_lost (h5 : 5 ≤ n) (hn : n < 2 ^ 31) (hm : Mounted n entries fs c)
    (filename data : Bytes) (hname : ¬ GoodName filename) (hdata : data.length < 2 ^ 31)
    (hr : ¬ Refused fs entries (nextFree entries) filename data) :
    ∃ fs' c', (writeFile filename data).run (Disk.handler n) fs c = (.done (.ok ()), fs', c') ∧
      ¬ Mirrors fs' c' := by
  obtain ⟨nf, -, hrun⟩ := hm.run_writeFile h5 hn hdata hr
  refine ⟨_, _, hrun, not_mirrors hname ?_⟩
  exact (mem_cacheOf (nodup_replaceEntry hm.wellFormed.nodup)).mpr
    (List.mem_map_of_mem (mem_replaceEntry.mpr (Or.inr rfl)))

end Mirror

/-- **The cache mirrors the disk** after every run whose written names fit their slots, and the
files read back as written, also after a fresh mount. -/
theorem cache_mirrors_disk {n : ℕ} (h5 : 5 ≤ n) (hn : n < 2 ^ 31) (dev : Device n)
    (repair : Bool) (fs₀ : Fs) (s₀ : dev.State) (ops : List FsOp)
    (ha : ∀ op ∈ ops, op.Admissible) :
    ∃ replies fs s, dev.Completes (fromFormat repair ops) fs₀ s₀ replies fs s ∧
      Mirrors fs (dev.contents s) ∧
      (∀ name data, FileMap.replay (fun _ => none) (ops.zip replies) name = some data →
        ∃ s', dev.Completes (readFile name) fs s (.ok data) fs s') := by
  obtain ⟨replies, entries, fs, s, hc, _, hm, hf, _⟩ :=
    fromFormat_mounted h5 fs₀ repair hn dev s₀ ops ha
  refine ⟨replies, fs, s, hc, hm.mirrors, fun name data hd => ?_⟩
  obtain ⟨s', hread⟩ := (hm.mapView h5 hn).readFile name
  rw [hf, hd] at hread
  exact ⟨s', hread⟩

theorem cache_mirrors_disk_ramDisk : ∃ replies fs s,
    RamDisk.device.Completes
        (fromFormat true [.createFile (bytes "a") (bytes "x"), .connect true])
        ⟨deviceInfo 0, ∅⟩ RamDisk.fresh replies fs s ∧
      Mirrors fs (RamDisk.device.contents s) ∧
      (∀ name data, FileMap.replay (fun _ => none)
          (List.zip [.createFile (bytes "a") (bytes "x"), .connect true] replies) name = some data →
        ∃ s', RamDisk.device.Completes (readFile name) fs s (.ok data) fs s') := by
  refine cache_mirrors_disk (by decide) (by decide) RamDisk.device true _ _ _ ?_
  intro op hop
  rcases List.mem_cons.mp hop with rfl | hop
  · exact ⟨by decide, by decide⟩
  · obtain rfl := List.mem_singleton.mp hop
    trivial

def writeFresh (filename data : Bytes) : FsProg (Except FsError Unit) := do
  connect true
  let _ ← format
  writeFile filename data

/-- A name of 57 bytes is cached whole and stored truncated. -/
theorem cache_not_mirror : ∃ fs s,
    RamDisk.device.Completes (writeFresh (List.replicate 57 97) (bytes "x")) ⟨deviceInfo 0, ∅⟩
      RamDisk.fresh (.ok ()) fs s ∧ ¬ Mirrors fs (RamDisk.device.contents s) := by
  obtain ⟨⟨_, cache⟩, c₁, hconnect, rfl⟩ := run_connect_done (n := 2048) (by decide)
    ⟨deviceInfo 0, ∅⟩ (RamDisk.device.contents RamDisk.fresh) true
  have hm := mounted_layout (c := c₁)
    (WellFormed.nil : WellFormed ⟨deviceInfo 2048, cache⟩ []) directorySectors
  obtain ⟨fs, c, hrun, hlost⟩ := hm.mirror_lost (by decide) (by decide)
    (List.replicate 57 97) (bytes "x") (fun h => absurd h.length_le (by simp)) (by decide)
    (by rw [hm.refused_iff (by decide)]; decide)
  have hall : (writeFresh (List.replicate 57 97) (bytes "x")).run (Disk.handler 2048)
      ⟨deviceInfo 0, ∅⟩ (RamDisk.device.contents RamDisk.fresh) = (.done (.ok ()), fs, c) := by
    rw [writeFresh, Prog.run_bind_done hconnect, Prog.run_bind_done (run_format (by decide))]
    exact hrun
  obtain ⟨s, hs, rfl⟩ := RamDisk.device.completes hall
  exact ⟨fs, s, hs, hlost⟩

end OCamlStudy.NanoOs
