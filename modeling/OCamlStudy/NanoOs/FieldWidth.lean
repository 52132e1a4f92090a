import OCamlStudy.NanoOs.MapView
import OCamlStudy.NanoOs.BufferLists

/-! # The width of the directory fields

A start and a size are `int32` words, and so is the limit that the next free sector
must not exceed. On a device of any size a successful write of a file is followed
from the load of the directory to the words in its slot: the start is always the
sector that was written, the size is the length of the content as far as this is
below `2 ^ 31`, and the sector is one of the data region exactly if the size of the
device, as an `int32`, is.
-/

namespace OCamlStudy.NanoOs

open OCaml Program

/-- No write out of range succeeds, at any sector that an `int32` can name. -/
def Device.Strict {n : ℕ} (dev : Device n) : Prop :=
  ∀ (sector : ℤ) (buffer : Bytes) (s s' : dev.State), -2 ^ 31 ≤ sector → sector < 2 ^ 31 →
    dev.handler (.write sector buffer) s = (.done (.ok ()), s') →
      Disk.InRange n sector buffer.length

theorem Disk.device_strict (n : ℕ) : (Disk.device n).Strict := by
  rintro sector buffer c c' - - h
  by_contra hr
  have hstopped : (Disk.device n).handler (.write sector buffer) c = (.stopped, c) := if_neg hr
  rw [hstopped] at h
  cases h

theorem RamDisk.device_strict : RamDisk.device.Strict := by
  rintro sector buffer t t' hlo hhi h
  cases hw : t.1.write sector buffer with
  | error exn =>
    have hsized : RamDisk.writeSized t sector buffer = .error exn := by
      unfold RamDisk.writeSized
      split
      · rename_i r₁ t₁ h₁
        cases h₁.symm.trans hw
      · rename_i exn₁ h₁
        cases h₁.symm.trans hw
        rfl
    have hraised : RamDisk.device.handler (.write sector buffer) t = (.raised exn, t) :=
      RamDisk.handler_write_error hsized
    rw [hraised] at h
    cases h
  | ok p =>
    obtain ⟨r, t₁⟩ := p
    have hdone : RamDisk.device.handler (.write sector buffer) t =
        (.done r, ⟨t₁, t.2.write_sized hw⟩) := RamDisk.handler_write_ok (RamDisk.writeSized_ok hw)
    rw [hdone] at h
    cases h
    rw [RamDisk.write, t.2.checkBounds_eq] at hw
    split_ifs at hw with hend
    · cases hw
    · obtain ⟨dst, hsub, -⟩ := Raises.bind_ok hw
      obtain ⟨h0, hle, -⟩ := Cstruct.sub_ok hsub
      have hofs : wrap63 (wrap64 (sector * 512)) = sector * 512 := by
        unfold wrap63 wrap64
        omega
      rw [hofs] at h0 hle
      rw [t.2.length] at hle
      exact ⟨by omega, hle⟩

theorem computedNextFree_bounds (entries : List Entry) :
    5 ≤ computedNextFree entries ∧ computedNextFree entries < 2 ^ 31 := by
  have hfold (acc : ℤ) (h5 : 5 ≤ acc) (hlt : acc < 2 ^ 31) :
      5 ≤ entries.foldl (fun acc entry =>
          max acc (wrap32 (entry.start + wrap32 (sectorsForSize entry.size)))) acc ∧
        entries.foldl (fun acc entry =>
          max acc (wrap32 (entry.start + wrap32 (sectorsForSize entry.size)))) acc < 2 ^ 31 := by
    induction entries generalizing acc with
    | nil => exact ⟨h5, hlt⟩
    | cons e entries ih =>
      have hwrap := Cstruct.wrap32_bounds (e.start + wrap32 (sectorsForSize e.size))
      exact ih _ (le_max_of_le_left h5) (max_lt hlt hwrap.2)
  exact hfold 5 le_rfl (by decide)

section NextFree

variable {fs : Fs} {entries : List Entry}

theorem wrap63_deviceInfo_of_lt {n : ℕ} (hn : n < 2 ^ 62) :
    wrap63 (deviceInfo n).sizeSectors = n := by
  change wrap63 (n : ℤ) = n
  exact wrap63_eq (by omega) (by omega)

theorem repairedNextFree_bounds :
    -2 ^ 31 ≤ repairedNextFree fs entries ∧ repairedNextFree fs entries < 2 ^ 31 ∧
      (5 ≤ repairedNextFree fs entries ↔ 5 ≤ wrap32 (wrap63 fs.info.sizeSectors)) := by
  obtain ⟨h5, hlt⟩ := computedNextFree_bounds entries
  have hlimit := Cstruct.wrap32_bounds (wrap63 fs.info.sizeSectors)
  have hmax : max (directorySectors : ℤ) (computedNextFree entries) = computedNextFree entries :=
    max_eq_right h5
  rw [repairedNextFree, hmax]
  split_ifs with h
  · exact ⟨hlimit.1, hlimit.2, Iff.rfl⟩
  · exact ⟨by omega, hlt, iff_of_true h5 (by omega)⟩

end NextFree

theorem run_loadEntries_read {S : Type} {h : BlockHandler S} (fs : Fs) {s s' : S} {c : Disk}
    (hmagic : c.read 0 8 = magicStr) (hr : h (.read 0 2560) s = (.done (.ok (c.read 0 2560)), s')) :
    ∃ dirty, loadEntries.run h fs s = (.done (.ok (parsedEntries fs c,
      repairedNextFree fs (parsedEntries fs c), dirty)), fs, s') := by
  obtain ⟨dirty, hl⟩ := @settle_loaded fs c hmagic
  refine ⟨dirty, ?_⟩
  rw [loadEntries_eq, Prog.run_bind_done (Block.run_read hr), ← Prog.run_settle, hl]
  rfl

section Write

variable {n : ℕ} {dev : Device n} {fs fs' : Fs} {s s' : dev.State} {filename content : Bytes}

/-- The slot of a name: its own, or the next one. -/
def slotOf (entries : List Entry) (filename : Bytes) : ℕ :=
  entries.findIdx (·.name = filename)

/-- What a successful write leaves: the content at a sector, and then the directory. -/
structure WroteFile (n : ℕ) (fs : Fs) (c : Disk) (filename content : Bytes) (fs' : Fs) (c' : Disk)
    (sector : ℤ) : Prop where
  next : sector = repairedNextFree fs (parsedEntries fs c)
  inRange : Disk.InRange n sector (dataBlock content).length
  length_le : (replaceEntry (parsedEntries fs c) ⟨filename, sector, wrap32 content.length⟩).length ≤
    maxFiles
  cache : fs' = { fs with
    cache := cacheOf (replaceEntry (parsedEntries fs c) ⟨filename, sector, wrap32 content.length⟩) }
  disk : ∃ nextFree', c' = (c.write (sector.toNat * 512) (dataBlock content)).write 0
    (layout (replaceEntry (parsedEntries fs c) ⟨filename, sector, wrap32 content.length⟩) nextFree')

/-- **A write that returns `Ok` wrote the content and the directory.** -/
theorem wroteFile_of_run (h5 : 5 ≤ n) (hstrict : dev.Strict)
    (hmagic : (dev.contents s).read 0 8 = magicStr)
    (hrun : (writeFile filename content).run dev.handler fs s = (.done (.ok ()), fs', s')) :
    WroteFile n fs (dev.contents s) filename content fs' (dev.contents s')
      (repairedNextFree fs (parsedEntries fs (dev.contents s))) := by
  obtain ⟨s₁, hread, hs₁⟩ := dev.refines (.read 0 2560) s _ _ (handler_read_superblock h5)
  obtain ⟨dirty, hload⟩ := run_loadEntries_read fs hmagic hread
  rw [run_writeFile hload] at hrun
  split_ifs at hrun with hr
  · cases hrun
  generalize hnext : repairedNextFree fs (parsedEntries fs (dev.contents s)) = sector at *
  have hlen : (replaceEntry (parsedEntries fs (dev.contents s))
      ⟨filename, sector, wrap32 content.length⟩).length ≤ maxFiles :=
    length_replaceEntry_le parsedEntries_wellFormed.length_le (not_or.mp hr).1
  rw [storeFile_eq, Prog.run_bind, Block.write, Prog.perform, Prog.run] at hrun
  cases hdata : dev.handler (.write sector (dataBlock content)) s₁ with
  | mk o s₂ =>
    rw [hdata] at hrun
    cases o with
    | raised exn => cases hrun
    | stopped => cases hrun
    | done r =>
      cases r with
      | error e => cases hrun
      | ok u =>
        obtain ⟨hlo, hhi, -⟩ := @repairedNextFree_bounds fs (parsedEntries fs (dev.contents s))
        rw [hnext] at hlo hhi
        have hrange := hstrict _ _ _ _ hlo hhi hdata
        have hfirst := dev.refines (.write sector (dataBlock content)) s₁ (.ok ()) _ (if_pos hrange)
        obtain ⟨s₂', hdata', hs₂⟩ := hfirst
        obtain rfl : s₂' = s₂ := (Prod.mk.inj (hdata'.symm.trans hdata)).2
        have hdirectory := dev.refines _ s₂' _ _
          (handler_write_superblock h5 (layout_length hlen
            (wrap32 (sector + wrap32 (sectorsForSize content.length)))))
        obtain ⟨s₃, hdirectory', hs₃⟩ := hdirectory
        have hstored : (writeSuperblock _ _).run dev.handler fs s₂' = _ :=
          run_writeSuperblock hlen hdirectory'
        cases hstored.symm.trans hrun
        rw [hs₁] at hs₂
        rw [hs₂] at hs₃
        exact ⟨hnext.symm, hrange, hlen, rfl, _, hs₃⟩

theorem getElem?_slotOf (entries : List Entry) (new : Entry) :
    (replaceEntry entries new)[slotOf entries new.name]? = some new := by
  unfold replaceEntry slotOf
  split_ifs with h
  · obtain ⟨e, he, hname⟩ := List.any_eq_true.mp h
    have hlt : entries.findIdx (·.name = new.name) < entries.length :=
      List.findIdx_lt_length_of_exists ⟨e, he, hname⟩
    have hfound := List.findIdx_getElem (w := hlt)
    rw [List.getElem?_map, List.getElem?_eq_getElem hlt, Option.map_some,
      if_pos (by simpa using hfound)]
  · have hnone : entries.findIdx (·.name = new.name) = entries.length := by
      rw [List.findIdx_eq_length]
      intro e he
      by_contra hname
      exact h (List.any_eq_true.mpr ⟨e, he, by simpa using hname⟩)
    rw [hnone, List.getElem?_concat_length]

variable {c c' : Disk} {sector : ℤ}

theorem WroteFile.fields (h : WroteFile n fs c filename content fs' c' sector) :
    (slotAt c' (slotOf (parsedEntries fs c) filename)).start = sector ∧
      (slotAt c' (slotOf (parsedEntries fs c) filename)).size = wrap32 content.length := by
  obtain ⟨nextFree', hdisk⟩ := h.disk
  have hread := Disk.read_write_same (c.write (sector.toNat * 512) (dataBlock content)) 0
    (layout (replaceEntry (parsedEntries fs c) ⟨filename, sector, wrap32 content.length⟩) nextFree')
  rw [layout_length h.length_le, ← hdisk] at hread
  have hslot := getElem?_slotOf (parsedEntries fs c) ⟨filename, sector, wrap32 content.length⟩
  obtain ⟨hlt, hentry⟩ := List.getElem?_eq_some_iff.mp hslot
  have hholds := slotHolds_layout hread hlt
  rw [hentry] at hholds
  obtain ⟨hlo, hhi, -⟩ := @repairedNextFree_bounds fs (parsedEntries fs c)
  rw [← h.next] at hlo hhi
  have hsize := Cstruct.wrap32_bounds content.length
  constructor
  · rw [slotAt, hholds.start, Cstruct.wrap32_leNumber hlo hhi]
  · rw [slotAt, hholds.size, Cstruct.wrap32_leNumber hsize.1 hsize.2]

theorem WroteFile.run_readFile (h : WroteFile n fs c filename content fs' (dev.contents s') sector)
    (h5 : 5 ≤ sector) (hlength : content.length < 2 ^ 31) :
    ∃ s'', (readFile filename).run dev.handler fs' s' = (.done (.ok content), fs', s'') ∧
      dev.contents s'' = dev.contents s' := by
  obtain ⟨nextFree', hdisk⟩ := h.disk
  have hsize : wrap32 content.length = content.length :=
    wrap32_eq (by omega) (by exact_mod_cast hlength)
  have hlookup : fs'.cache.lookup filename = some (sector, (content.length : ℤ)) := by
    have hmem : (⟨filename, sector, content.length⟩ : Entry) ∈
        replaceEntry (parsedEntries fs c) ⟨filename, sector, content.length⟩ :=
      mem_replaceEntry.mpr (.inr rfl)
    have hnodup : ((parsedEntries fs c).map Entry.name).Nodup := parsedEntries_wellFormed.nodup
    have hfound := lookup_cacheOf (nodup_replaceEntry hnodup) hmem
    rw [h.cache, hsize]
    dsimp only at hfound ⊢
    exact hfound
  have hrange := h.inRange
  rw [dataBlock_length] at hrange
  obtain ⟨s'', hread, hs''⟩ :=
    dev.refines (.read sector ((sectorsForSize content.length).toNat * 512))
    s' _ _ (if_pos hrange)
  have hdata : (dev.contents s').read (sector.toNat * 512)
      ((sectorsForSize content.length).toNat * 512) = dataBlock content := by
    have hlayout := layout_length h.length_le nextFree'
    rw [hdisk, Disk.read_write_disjoint (.inr (by omega)), ← dataBlock_length,
      Disk.read_write_same]
  rw [hdata] at hread
  refine ⟨s'', ?_, hs''⟩
  rw [run_readFile_some hlookup (by omega) hread (dataBlock_length content), Int.toNat_natCast,
    dataBlock, List.take_left']
  rfl

/-- The words of the slot are the sector that was written and the length of the content, and
the content is in the data region. -/
structure TrueFields (n : ℕ) (c c' : Disk) (slot : ℕ) (content : Bytes) (sector : ℤ) : Prop where
  written : ∃ directory : Bytes, directory.length = 2560 ∧
    c' = (c.write (sector.toNat * 512) (dataBlock content)).write 0 directory
  start : (slotAt c' slot).start = sector
  size : (slotAt c' slot).size = content.length
  inside : ∀ k, sector ≤ k → k < sector + sectorsForSize content.length → 5 ≤ k ∧ k < n

theorem sectorsForSize_pos (h : content ≠ []) : 0 < sectorsForSize content.length := by
  have := List.length_pos_of_ne_nil h
  have := le_sectorsForSize content.length
  omega

/-- **The fields are true exactly if the length is below `2 ^ 31` and the limit is not wrapped
into the directory**, for every successful write of a file. -/
theorem trueFields_iff (h5 : 5 ≤ n) (hn : n < 2 ^ 62) (hstrict : dev.Strict)
    (hinfo : fs.info = deviceInfo n) (hmagic : (dev.contents s).read 0 8 = magicStr)
    (hrun : (writeFile filename content).run dev.handler fs s = (.done (.ok ()), fs', s')) :
    (∃ sector, TrueFields n (dev.contents s) (dev.contents s')
      (slotOf (parsedEntries fs (dev.contents s)) filename) content sector) ↔
        content.length < 2 ^ 31 ∧ (5 ≤ wrap32 n ∨ content = []) := by
  have hwrote := wroteFile_of_run h5 hstrict hmagic hrun
  obtain ⟨hstart, hsize⟩ := hwrote.fields
  obtain ⟨-, -, hlimit⟩ := @repairedNextFree_bounds fs (parsedEntries fs (dev.contents s))
  rw [hinfo, wrap63_deviceInfo_of_lt hn] at hlimit
  constructor
  · rintro ⟨sector, htrue⟩
    obtain rfl := hstart.symm.trans htrue.start
    have hlength := hsize.symm.trans htrue.size
    have hbounds := Cstruct.wrap32_bounds content.length
    refine ⟨by omega, ?_⟩
    by_cases hempty : content = []
    · exact .inr hempty
    · have hpos := sectorsForSize_pos hempty
      exact .inl (hlimit.mp (htrue.inside _ le_rfl (by omega)).1)
  · rintro ⟨hlength, hregion⟩
    obtain ⟨nextFree', hdisk⟩ := hwrote.disk
    obtain ⟨h0, hend⟩ := hwrote.inRange
    have hsectors := sectorsForSize_nonneg content.length
    rw [dataBlock_length] at hend
    refine ⟨_, ⟨_, layout_length hwrote.length_le nextFree', hdisk⟩, hstart, ?_, ?_⟩
    · rw [hsize, wrap32_eq (by omega) (by exact_mod_cast hlength)]
    · intro k hk hk'
      have hnonempty : content ≠ [] := by
        rintro rfl
        simp only [List.length_nil, Nat.cast_zero, sectorsForSize, le_refl, if_true] at hk'
        omega
      have h5' := hlimit.mpr (hregion.resolve_right hnonempty)
      push_cast at hend
      exact ⟨by omega, by omega⟩

end Write

/-- A file on the RAM disk. -/
theorem trueFields_iff_ramDisk : ∃ fs s fs' s',
    RamDisk.device.Completes (formatDisk true) ⟨deviceInfo 0, ∅⟩ RamDisk.fresh (.ok ()) fs s ∧
      RamDisk.device.Completes (writeFile (bytes "a") (bytes "x")) fs s (.ok ()) fs' s' ∧
        ((∃ sector, TrueFields 2048 (RamDisk.device.contents s) (RamDisk.device.contents s')
          (slotOf (parsedEntries fs (RamDisk.device.contents s)) (bytes "a")) (bytes "x") sector) ↔
            (bytes "x").length < 2 ^ 31 ∧ (5 ≤ wrap32 (2048 : ℕ) ∨ bytes "x" = [])) := by
  obtain ⟨fs, c, hformat, hm, -⟩ := run_formatDisk (n := 2048) (by decide) ⟨deviceInfo 0, ∅⟩
    (RamDisk.device.contents RamDisk.fresh) true
  obtain ⟨s, hs, rfl⟩ := RamDisk.device.completes hformat
  have haccepted : ¬ Refused fs [] (nextFree []) (bytes "a") (bytes "x") := by
    rw [hm.refused_iff (by decide)]
    decide
  obtain ⟨nf, -, hwrite⟩ := hm.run_writeFile (by decide) (by decide) (by decide) haccepted
  obtain ⟨s', hs', -⟩ := RamDisk.device.completes hwrite
  refine ⟨fs, s, _, s', hs, hs', ?_⟩
  refine trueFields_iff (by decide) (by decide) RamDisk.device_strict ?_ hm.magic hs'.1
  rw [hm.fs_eq]

theorem handler_write_inRange {n : ℕ} {sector : ℤ} {buffer : Bytes} (c : Disk)
    (hr : Disk.InRange n sector buffer.length) : Disk.handler n (.write sector buffer) c =
      (.done (.ok ()), c.write (sector.toNat * 512) buffer) :=
  if_pos hr

def emptyDisk : Disk := Disk.write (fun _ => 0) 0 (layout [] 5)

theorem emptyDisk_mounted (n : ℕ) : Mounted n [] ⟨deviceInfo n, ∅⟩ emptyDisk :=
  mounted_layout (WellFormed.nil : WellFormed ⟨deviceInfo n, ∅⟩ []) 5

theorem not_trueFields_of_limit {n : ℕ} {c : Disk} (h5 : 5 ≤ n) (hn : n < 2 ^ 62)
    (hzero : wrap32 n = 0) (hm : Mounted n [] ⟨deviceInfo n, ∅⟩ c) :
    ∃ fs' c', (writeFile (bytes "a") (bytes "x")).run (Disk.device n).handler ⟨deviceInfo n, ∅⟩ c =
      (.done (.ok ()), fs', c') ∧
        ¬ ∃ sector, TrueFields n c c'
          (slotOf (parsedEntries ⟨deviceInfo n, ∅⟩ c) (bytes "a")) (bytes "x") sector := by
  have hsectors := wrap63_deviceInfo_of_lt hn
  have hnext : repairedNextFree ⟨deviceInfo n, ∅⟩ [] = 0 := by
    rw [repairedNextFree, hsectors, hzero]
    rfl
  obtain ⟨dirty, hload⟩ := run_loadEntries_read ⟨deviceInfo n, ∅⟩ hm.magic
    (handler_read_superblock h5)
  rw [hm.parsed, hnext] at hload
  have haccepted : ¬ Refused ⟨deviceInfo n, ∅⟩ [] 0 (bytes "a") (bytes "x") := by
    rw [Refused, hsectors, not_or]
    refine ⟨by decide, ?_⟩
    change ¬ (n : ℤ) < 1
    omega
  have hrange : Disk.InRange n 0 (dataBlock (bytes "x")).length := by
    rw [dataBlock_length]
    change 0 ≤ (0 : ℤ) ∧ (512 : ℤ) ≤ n * 512
    omega
  have hlen : (replaceEntry [] ⟨bytes "a", 0, wrap32 (bytes "x").length⟩).length ≤ maxFiles := by
    decide
  have hrun : ∃ fs' c', (writeFile (bytes "a") (bytes "x")).run (Disk.handler n)
      ⟨deviceInfo n, ∅⟩ c = (.done (.ok ()), fs', c') := by
    rw [run_writeFile hload, if_neg haccepted, storeFile,
      Prog.run_bind_done (Block.run_write (handler_write_inRange c hrange))]
    exact ⟨_, _, run_writeSuperblock_handler h5 hlen _⟩
  obtain ⟨fs', c', hrun⟩ := hrun
  refine ⟨fs', c', hrun, ?_⟩
  rintro ⟨sector, htrue⟩
  have hwrote := wroteFile_of_run h5 (Disk.device_strict n) hm.magic hrun
  have hstart := hwrote.fields.1.symm.trans htrue.start
  change repairedNextFree _ (parsedEntries _ c) = sector at hstart
  rw [hm.parsed, hnext] at hstart
  subst hstart
  have hsectors' : sectorsForSize (bytes "x").length = 1 := rfl
  exact absurd (htrue.inside 0 le_rfl (by rw [hsectors']; decide)).1 (by decide)

/-- On `2 ^ 32` sectors the limit wraps to zero. -/
theorem not_trueFields_wrapped : ∃ fs' c',
    (writeFile (bytes "a") (bytes "x")).run (Disk.device (2 ^ 32)).handler ⟨deviceInfo (2 ^ 32), ∅⟩
      emptyDisk = (.done (.ok ()), fs', c') ∧
        ¬ ∃ sector, TrueFields (2 ^ 32) emptyDisk c'
          (slotOf (parsedEntries ⟨deviceInfo (2 ^ 32), ∅⟩ emptyDisk) (bytes "a")) (bytes "x")
            sector :=
  not_trueFields_of_limit (by decide) (by decide) (by decide) (emptyDisk_mounted _)

end OCamlStudy.NanoOs
