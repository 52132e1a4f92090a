import OCamlStudy.NanoOs.FsSpec

/-! # Mounted file systems

The invariant of a mounted file system: the cache holds the entries that a mount
of the disk would find. Extents may overlap and sectors may be shared; new data
still goes above every file, so the operations keep all other contents.
-/

namespace OCamlStudy.NanoOs

open OCaml Program

section Cache

variable {entries : List Entry} {cache : Cache}

theorem lookup_foldl_insert {name : Bytes} (h : name ∉ entries.map Entry.name) :
    (entries.foldl (fun cache e => cache.insert e.name (e.start, e.size)) cache).lookup name =
      cache.lookup name := by
  induction entries generalizing cache with
  | nil => rfl
  | cons e entries ih =>
    simp only [List.map_cons, List.mem_cons, not_or] at h
    rw [List.foldl_cons, ih h.2, AList.lookup_insert_ne h.1]

theorem lookup_foldl_insert_mem (hn : (entries.map Entry.name).Nodup) {e : Entry}
    (he : e ∈ entries) :
    (entries.foldl (fun cache e => cache.insert e.name (e.start, e.size)) cache).lookup e.name =
      some (e.start, e.size) := by
  induction entries generalizing cache with
  | nil => cases he
  | cons x entries ih =>
    obtain ⟨hx, hn⟩ := List.nodup_cons.mp hn
    rcases List.mem_cons.mp he with rfl | he
    · rw [List.foldl_cons, lookup_foldl_insert hx, AList.lookup_insert]
    · exact ih hn he

theorem lookup_cacheOf (hn : (entries.map Entry.name).Nodup) {e : Entry} (he : e ∈ entries) :
    (cacheOf entries).lookup e.name = some (e.start, e.size) :=
  lookup_foldl_insert_mem hn he

theorem lookup_cacheOf_none {name : Bytes} (h : name ∉ entries.map Entry.name) :
    (cacheOf entries).lookup name = none := by
  rw [cacheOf, lookup_foldl_insert h]
  rfl

theorem mem_cacheOf (hn : (entries.map Entry.name).Nodup) {name : Bytes} :
    name ∈ cacheOf entries ↔ name ∈ entries.map Entry.name := by
  rw [← AList.lookup_isSome]
  constructor
  · intro h
    by_contra hc
    rw [lookup_cacheOf_none hc] at h
    cases h
  · intro h
    obtain ⟨e, he, rfl⟩ := List.mem_map.mp h
    rw [lookup_cacheOf hn he]
    rfl

end Cache

/-- The first sector above the directory and every file. -/
def nextFree (entries : List Entry) : ℤ :=
  entries.foldl (fun acc e => max acc (e.start + sectorsForSize e.size)) 5

def deviceInfo (n : ℕ) : Block.Info := ⟨n, 512, true⟩

section NextFree

variable {entries : List Entry} {acc m : ℤ}

theorem foldl_max_le_iff :
    entries.foldl (fun acc e => max acc (e.start + sectorsForSize e.size)) acc ≤ m ↔
      acc ≤ m ∧ ∀ e ∈ entries, e.start + sectorsForSize e.size ≤ m := by
  induction entries generalizing acc with
  | nil => simp
  | cons e entries ih =>
    rw [List.foldl_cons, ih, max_le_iff, List.forall_mem_cons, and_assoc]

/-- The next free sector is the least bound of the directory and the ends of the files. -/
theorem nextFree_le_iff : nextFree entries ≤ m ↔
    5 ≤ m ∧ ∀ e ∈ entries, e.start + sectorsForSize e.size ≤ m :=
  foldl_max_le_iff

theorem five_le_nextFree (entries : List Entry) : 5 ≤ nextFree entries :=
  (nextFree_le_iff.mp le_rfl).1

theorem le_nextFree {e : Entry} (he : e ∈ entries) :
    e.start + sectorsForSize e.size ≤ nextFree entries :=
  (nextFree_le_iff.mp le_rfl).2 e he

end NextFree

section Sized

variable {n : ℕ} {cache : Cache} {entries : List Entry}

theorem wrap63_deviceInfo (hn : n < 2 ^ 31) : wrap63 (deviceInfo n).sizeSectors = n := by
  change wrap63 (n : ℤ) = n
  exact wrap63_eq (by omega) (by omega)

theorem EntryOk.end_le (hn : n < 2 ^ 31) {e : Entry} (h : EntryOk ⟨deviceInfo n, cache⟩ e) :
    5 ≤ e.start ∧ 0 ≤ e.size ∧ e.start + sectorsForSize e.size ≤ n := by
  obtain ⟨_, ⟨h5, _⟩, h0, hf⟩ := validateEntry_iff.mp h.valid
  exact ⟨h5, h0, wrap63_deviceInfo hn ▸ hf⟩

theorem computedNextFree_eq (hn : n < 2 ^ 31)
    (he : ∀ e ∈ entries, EntryOk ⟨deviceInfo n, cache⟩ e) :
    computedNextFree entries = nextFree entries := by
  have hf : ∀ e ∈ entries, wrap32 (e.start + wrap32 (sectorsForSize e.size)) =
      e.start + sectorsForSize e.size := by
    intro e hm
    obtain ⟨h5, _, hle⟩ := (he e hm).end_le hn
    have h0 := sectorsForSize_nonneg e.size
    have hw : wrap32 (sectorsForSize e.size) = sectorsForSize e.size :=
      wrap32_eq (by omega) (by omega)
    rw [hw]
    exact wrap32_eq (by omega) (by omega)
  exact List.foldl_ext _ _ _ fun acc e hm => congrArg (max acc) (hf e hm)

theorem repairedNextFree_eq (h5 : 5 ≤ n) (hn : n < 2 ^ 31)
    (he : ∀ e ∈ entries, EntryOk ⟨deviceInfo n, cache⟩ e) :
    repairedNextFree ⟨deviceInfo n, cache⟩ entries = nextFree entries := by
  have hlimit : wrap32 (wrap63 (deviceInfo n).sizeSectors) = n := by
    rw [wrap63_deviceInfo hn, wrap32_eq (by omega) (by omega)]
  have hle : nextFree entries ≤ n :=
    nextFree_le_iff.mpr ⟨by omega, fun e hm => ((he e hm).end_le hn).2.2⟩
  have hmax : max (directorySectors : ℤ) (nextFree entries) = nextFree entries :=
    max_eq_right (five_le_nextFree entries)
  rw [repairedNextFree, computedNextFree_eq hn he]
  dsimp only
  rw [hmax, hlimit, if_neg (not_lt.mpr hle)]

variable {fs : Fs}

theorem map_name_replaceEntry (entries : List Entry) (new : Entry) :
    (replaceEntry entries new).map Entry.name =
    if new.name ∈ entries.map Entry.name then entries.map Entry.name
    else entries.map Entry.name ++ [new.name] := by
  have hany : (entries.any fun e => decide (e.name = new.name)) = true ↔
      new.name ∈ entries.map Entry.name := by
    simp
  unfold replaceEntry
  by_cases h : new.name ∈ entries.map Entry.name
  · rw [if_pos (hany.mpr h), if_pos h, List.map_map]
    refine List.map_congr_left fun e _ => ?_
    dsimp only [Function.comp]
    split_ifs with he
    · exact he.symm
    · rfl
  · rw [if_neg (mt hany.mp h), if_neg h]
    simp

theorem mem_replaceEntry {new e : Entry} : e ∈ replaceEntry entries new ↔
    (e ∈ entries ∧ e.name ≠ new.name) ∨ e = new := by
  have hany : (entries.any fun e => decide (e.name = new.name)) = true ↔
      ∃ e ∈ entries, e.name = new.name := by
    simp
  unfold replaceEntry
  split_ifs with h
  · obtain ⟨x, hx, hxn⟩ := hany.mp h
    rw [List.mem_map]
    constructor
    · rintro ⟨y, hy, rfl⟩
      split_ifs with hyn
      · exact Or.inr rfl
      · exact Or.inl ⟨hy, hyn⟩
    · rintro (⟨he, hne⟩ | rfl)
      · exact ⟨e, he, if_neg hne⟩
      · exact ⟨x, hx, if_pos hxn⟩
  · have hne : ∀ e ∈ entries, e.name ≠ new.name := fun e he hn => h (hany.mpr ⟨e, he, hn⟩)
    rw [List.mem_append, List.mem_singleton]
    exact or_congr_left ⟨fun he => ⟨he, hne e he⟩, And.left⟩

theorem length_replaceEntry {new : Entry} : (replaceEntry entries new).length =
    if new.name ∈ entries.map Entry.name then entries.length else entries.length + 1 := by
  have h := congrArg List.length (map_name_replaceEntry entries new)
  rw [List.length_map] at h
  rw [h]
  split_ifs <;> simp

theorem length_replaceEntry_le {new : Entry} (hl : entries.length ≤ maxFiles)
    (hr : ¬ (new.name ∉ entries.map Entry.name ∧ maxFiles ≤ entries.length)) :
    (replaceEntry entries new).length ≤ maxFiles := by
  rw [length_replaceEntry]
  split_ifs with h
  · exact hl
  · exact not_le.mp fun hle => hr ⟨h, hle⟩

theorem nodup_replaceEntry {new : Entry} (hn : (entries.map Entry.name).Nodup) :
    ((replaceEntry entries new).map Entry.name).Nodup := by
  rw [map_name_replaceEntry]
  split_ifs with h
  · exact hn
  · rw [List.nodup_append]
    refine ⟨hn, by simp, ?_⟩
    rintro a ha b hb rfl
    exact h (List.mem_singleton.mp hb ▸ ha)

theorem WellFormed.replaceEntry {new : Entry} (hw : WellFormed fs entries) (ho : EntryOk fs new)
    (hr : ¬ (new.name ∉ entries.map Entry.name ∧ maxFiles ≤ entries.length)) :
    WellFormed fs (replaceEntry entries new) where
  length_le := length_replaceEntry_le hw.length_le hr
  nodup := nodup_replaceEntry hw.nodup
  entryOk e he := by
    rcases mem_replaceEntry.mp he with ⟨he, _⟩ | rfl
    · exact hw.entryOk e he
    · exact ho

theorem WellFormed.filter (hw : WellFormed fs entries) (p : Entry → Bool) :
    WellFormed fs (entries.filter p) where
  length_le := (List.length_filter_le _ _).trans hw.length_le
  nodup := hw.nodup.sublist (List.filter_sublist.map _)
  entryOk e he := hw.entryOk e (List.mem_filter.mp he).1

theorem WellFormed.recache {info : Block.Info} {cache cache' : Cache}
    (hw : WellFormed ⟨info, cache⟩ entries) : WellFormed ⟨info, cache'⟩ entries :=
  ⟨hw.length_le, hw.nodup, fun e he =>
    let h := hw.entryOk e he
    ⟨h.valid, h.name, h.start_lt, h.size_lt⟩⟩

theorem WellFormed.nil : WellFormed fs [] where
  length_le := Nat.zero_le _
  nodup := List.nodup_nil
  entryOk e he := by cases he

end Sized

def content (c : Disk) (e : Entry) : Bytes := c.read (e.start.toNat * 512) e.size.toNat

section Content

variable {c c' : Disk} {e : Entry}

theorem content_of_above (h : ∀ i, 2560 ≤ i → c' i = c i) (h5 : 5 ≤ e.start) :
    content c' e = content c e := by
  unfold content
  exact Disk.read_congr fun i hl _ => h i (by omega)

theorem content_write_directory {b : Bytes} (hb : b.length = 2560) (h5 : 5 ≤ e.start) :
    content (c.write 0 b) e = content c e :=
  content_of_above (fun _ hi => Disk.write_apply_outside (Or.inr (by omega))) h5

/-- Writes at or above the end of a file, and the parts of writes there, keep its contents. -/
theorem content_congr {pos : ℕ} (h : ∀ i < pos * 512, 2560 ≤ i → c' i = c i)
    (h5 : 5 ≤ e.start) (he : e.start + sectorsForSize e.size ≤ pos) :
    content c' e = content c e := by
  have hs := le_sectorsForSize e.size
  have h0 := sectorsForSize_nonneg e.size
  have hend : e.start.toNat * 512 + e.size.toNat ≤ pos * 512 := by omega
  unfold content
  exact Disk.read_congr fun i hl hu => h i (hu.trans_le hend) (by omega)

theorem content_write_data {pos : ℤ} {b : Bytes} (h5 : 5 ≤ e.start)
    (he : e.start + sectorsForSize e.size ≤ pos) :
    content (c.write (pos.toNat * 512) b) e = content c e :=
  content_congr (fun _ hi _ => Disk.write_apply_outside (Or.inl hi)) h5 (by omega)

theorem content_of_dataBlock {name data : Bytes} {pos : ℤ}
    (h : c.read (pos.toNat * 512) (dataBlock data).length = dataBlock data) :
    content c ⟨name, pos, data.length⟩ = data := by
  have hle : data.length ≤ (dataBlock data).length := by
    rw [dataBlock_length]
    exact length_le_sectors data
  rw [content, Int.toNat_natCast, ← Disk.read_take hle, h, dataBlock, List.take_left']
  rfl

theorem content_stored {name data : Bytes} {pos : ℤ} :
    content (c.write (pos.toNat * 512) (dataBlock data)) ⟨name, pos, data.length⟩ = data :=
  content_of_dataBlock (Disk.read_write_same _ _ _)

end Content

/-- The cache holds the entries that a mount of the disk finds. -/
structure Mounted (n : ℕ) (entries : List Entry) (fs : Fs) (c : Disk) : Prop where
  fs_eq : fs = ⟨deviceInfo n, cacheOf entries⟩
  magic : c.read 0 8 = magicStr
  parsed : parsedEntries fs c = entries

/-- The entry that a successful write of a file leaves in the directory. -/
def newEntry (entries : List Entry) (filename data : Bytes) : Entry :=
  ⟨filename, nextFree entries, data.length⟩

section Reference

variable {n : ℕ} {entries : List Entry} {fs : Fs} {c : Disk} {filename data : Bytes}

theorem handler_read_superblock (h5 : 5 ≤ n) :
    Disk.handler n (.read 0 2560) c = (.done (.ok (c.read 0 2560)), c) :=
  if_pos ⟨le_rfl, by omega⟩

theorem handler_write_superblock (h5 : 5 ≤ n) {b : Bytes} (hb : b.length = 2560) :
    Disk.handler n (.write 0 b) c = (.done (.ok ()), c.write 0 b) :=
  if_pos ⟨le_rfl, by omega⟩

theorem Mounted.wellFormed (hm : Mounted n entries fs c) : WellFormed fs entries :=
  hm.parsed ▸ parsedEntries_wellFormed

theorem Mounted.recache (hm : Mounted n entries fs c) {entries' : List Entry} {cache : Cache}
    (hw : WellFormed fs entries') : WellFormed ⟨deviceInfo n, cache⟩ entries' := by
  rw [hm.fs_eq] at hw
  exact hw.recache

theorem Mounted.wellFormed_cache (hm : Mounted n entries fs c) {cache : Cache} :
    WellFormed ⟨deviceInfo n, cache⟩ entries := hm.recache hm.wellFormed

theorem Mounted.entryOk (hm : Mounted n entries fs c) {e : Entry} (he : e ∈ entries) :
    EntryOk ⟨deviceInfo n, cacheOf entries⟩ e :=
  hm.wellFormed_cache.entryOk e he

theorem Mounted.congr {c' : Disk} (hm : Mounted n entries fs c)
    (h : c'.read 0 2560 = c.read 0 2560) : Mounted n entries fs c' := by
  obtain ⟨hmagic, hparsed⟩ := parsedEntries_congr h hm.magic
  exact ⟨hm.fs_eq, hmagic, hparsed.trans hm.parsed⟩

theorem Mounted.unique {entries' : List Entry} {fs' : Fs} (hm : Mounted n entries fs c)
    (hm' : Mounted n entries' fs' c) : entries' = entries := by
  have h := hm.parsed
  have h' := hm'.parsed
  rw [hm.fs_eq] at h
  rw [hm'.fs_eq] at h'
  exact h'.symm.trans h

theorem mounted_layout {cache : Cache} (hw : WellFormed ⟨deviceInfo n, cache⟩ entries) (nf : ℤ) :
    Mounted n entries ⟨deviceInfo n, cacheOf entries⟩ (c.write 0 (layout entries nf)) := by
  have hread : (c.write 0 (layout entries nf)).read 0 2560 = layout entries nf := by
    have := Disk.read_write_same c 0 (layout entries nf)
    rwa [layout_length hw.length_le] at this
  exact ⟨rfl, magic_layout hread, parsedEntries_layout hw.recache hread⟩

theorem nextFree_replaceEntry (entries : List Entry) (filename data : Bytes) :
    nextFree (replaceEntry entries (newEntry entries filename data)) =
      nextFree entries + sectorsForSize data.length := by
  have hs := sectorsForSize_nonneg data.length
  refine le_antisymm (nextFree_le_iff.mpr ⟨?_, fun e he => ?_⟩) ?_
  · have := five_le_nextFree entries
    omega
  · rcases mem_replaceEntry.mp he with ⟨he, -⟩ | rfl
    · have := le_nextFree he
      omega
    · exact le_rfl
  · exact le_nextFree (mem_replaceEntry.mpr (.inr rfl))

section Operations

variable (h5 : 5 ≤ n) (hn : n < 2 ^ 31) (hm : Mounted n entries fs c)

include h5

theorem run_writeSuperblock_handler (hl : entries.length ≤ maxFiles) (nf : ℤ) :
    (writeSuperblock entries nf).run (Disk.handler n) fs c =
      (.done (.ok ()), { fs with cache := cacheOf entries }, c.write 0 (layout entries nf)) :=
  run_writeSuperblock hl (handler_write_superblock h5 (layout_length hl nf))

include hn hm

theorem Mounted.settle_loaded : ∃ dirty, (loaded (.ok (c.read 0 2560))).settle fs =
    (.ret (.ok (entries, nextFree entries, dirty)), fs) := by
  obtain ⟨dirty, h⟩ := @NanoOs.settle_loaded fs c hm.magic
  have hnf : repairedNextFree fs entries = nextFree entries :=
    hm.fs_eq ▸ repairedNextFree_eq h5 hn fun e => hm.entryOk
  rw [hm.parsed, hnf] at h
  exact ⟨dirty, h⟩

theorem Mounted.run_loadEntries_of {S : Type} {h : BlockHandler S} {s s' : S}
    (hr : h (.read 0 2560) s = (.done (.ok (c.read 0 2560)), s')) :
    ∃ dirty, loadEntries.run h fs s =
      (.done (.ok (entries, nextFree entries, dirty)), fs, s') := by
  obtain ⟨dirty, hl⟩ := hm.settle_loaded h5 hn
  refine ⟨dirty, ?_⟩
  rw [loadEntries_eq, Prog.run_bind_done (Block.run_read hr), ← Prog.run_settle, hl]
  rfl

theorem Mounted.run_loadEntries : ∃ dirty, loadEntries.run (Disk.handler n) fs c =
    (.done (.ok (entries, nextFree entries, dirty)), fs, c) :=
  hm.run_loadEntries_of h5 hn (handler_read_superblock h5)

omit h5 in
theorem Mounted.refused_iff : Refused fs entries (nextFree entries) filename data ↔
    (filename ∉ entries.map Entry.name ∧ maxFiles ≤ entries.length) ∨
      n < nextFree entries + sectorsForSize data.length := by
  rw [Refused, hm.fs_eq, wrap63_deviceInfo hn]

omit h5 in
theorem Mounted.inRange_data (hdata : data.length < 2 ^ 31)
    (hr : ¬ Refused fs entries (nextFree entries) filename data) :
    Disk.InRange n (nextFree entries) (dataBlock data).length ∧
      (⟨filename, nextFree entries, wrap32 data.length⟩ : Entry) =
        newEntry entries filename data := by
  obtain ⟨_, hfits⟩ := not_or.mp fun h => hr ((hm.refused_iff hn).mpr h)
  rw [not_lt] at hfits
  have hnf := five_le_nextFree entries
  have hs := sectorsForSize_nonneg data.length
  refine ⟨⟨by omega, ?_⟩, ?_⟩
  · rw [dataBlock_length]
    push_cast
    omega
  · rw [newEntry, wrap32_eq (by omega) (by exact_mod_cast hdata)]

omit h5 in
theorem Mounted.length_replaceEntry_le
    (hr : ¬ Refused fs entries (nextFree entries) filename data) :
    (replaceEntry entries (newEntry entries filename data)).length ≤ maxFiles :=
  NanoOs.length_replaceEntry_le hm.wellFormed.length_le
    (not_or.mp fun h => hr ((hm.refused_iff hn).mpr h)).1

omit h5 in
theorem Mounted.settle_stored (hdata : data.length < 2 ^ 31)
    (hr : ¬ Refused fs entries (nextFree entries) filename data) (fs' : Fs) :
    (stored entries (nextFree entries) filename data (.ok ())).settle fs' =
      (.call (.write 0 (layout (replaceEntry entries (newEntry entries filename data))
        (wrap32 (nextFree entries + wrap32 (sectorsForSize data.length)))))
        (recorded (replaceEntry entries (newEntry entries filename data))), fs') := by
  rw [← settle_writeSuperblock (hm.length_replaceEntry_le hn hr),
    ← (hm.inRange_data hn hdata hr).2]
  rfl

theorem Mounted.run_writeFile_refused
    (hr : Refused fs entries (nextFree entries) filename data) :
    (writeFile filename data).run (Disk.handler n) fs c = (.done (.error .noSpace), fs, c) := by
  obtain ⟨dirty, hload⟩ := hm.run_loadEntries h5 hn
  rw [run_writeFile hload, if_pos hr]

theorem Mounted.run_writeFile (hdata : data.length < 2 ^ 31)
    (hr : ¬ Refused fs entries (nextFree entries) filename data) :
    ∃ nf : ℤ, nf = nextFree (replaceEntry entries (newEntry entries filename data)) ∧
      (writeFile filename data).run (Disk.handler n) fs c =
        (.done (.ok ()),
          ⟨deviceInfo n, cacheOf (replaceEntry entries (newEntry entries filename data))⟩,
          (c.write ((nextFree entries).toNat * 512) (dataBlock data)).write 0
            (layout (replaceEntry entries (newEntry entries filename data)) nf)) := by
  obtain ⟨dirty, hload⟩ := hm.run_loadEntries h5 hn
  obtain ⟨hrange, hentry⟩ := hm.inRange_data hn hdata hr
  have hdisk : Disk.handler n (.write (nextFree entries) (dataBlock data)) c =
      (.done (.ok ()), c.write ((nextFree entries).toNat * 512) (dataBlock data)) := if_pos hrange
  have hnf : wrap32 (nextFree entries + wrap32 (sectorsForSize data.length)) =
      nextFree (replaceEntry entries (newEntry entries filename data)) := by
    have hfits := (not_or.mp fun h => hr ((hm.refused_iff hn).mpr h)).2
    have h5 := five_le_nextFree entries
    have hs := sectorsForSize_nonneg data.length
    have hw : wrap32 (sectorsForSize data.length) = sectorsForSize data.length :=
      wrap32_eq (by omega) (by omega)
    rw [nextFree_replaceEntry, hw, wrap32_eq (by omega) (by omega)]
  refine ⟨wrap32 (nextFree entries + wrap32 (sectorsForSize data.length)), hnf, ?_⟩
  rw [NanoOs.run_writeFile hload, if_neg hr, storeFile, Prog.run_bind_done (Block.run_write hdisk)]
  dsimp only
  rw [hentry, run_writeSuperblock_handler h5 (hm.length_replaceEntry_le hn hr), hm.fs_eq]

omit h5 in
theorem Mounted.replaceEntry_wellFormed (hname : GoodName filename) (hdata : data.length < 2 ^ 31)
    (hr : ¬ Refused fs entries (nextFree entries) filename data) :
    WellFormed fs (replaceEntry entries (newEntry entries filename data)) := by
  obtain ⟨hfull, hfits⟩ := not_or.mp fun h => hr ((hm.refused_iff hn).mpr h)
  rw [not_lt] at hfits
  have hnf := five_le_nextFree entries
  have hs := sectorsForSize_nonneg data.length
  refine hm.wellFormed.replaceEntry ⟨validateEntry_iff.mpr ⟨hname.ne_nil, ?_⟩, hname, ?_, ?_⟩ hfull
  · rw [hm.fs_eq, wrap63_deviceInfo hn]
    dsimp only [newEntry]
    omega
  · dsimp only [newEntry]
    omega
  · dsimp only [newEntry]
    exact_mod_cast hdata

omit h5 in
theorem Mounted.run_readFile {e : Entry} (he : e ∈ entries) :
    (readFile e.name).run (Disk.handler n) fs c = (.done (.ok (content c e)), fs, c) := by
  obtain ⟨h5, h0, hend⟩ := (hm.entryOk he).end_le hn
  have hs := sectorsForSize_nonneg e.size
  have hlookup : fs.cache.lookup e.name = some (e.start, e.size) := by
    rw [hm.fs_eq]
    exact lookup_cacheOf hm.wellFormed.nodup he
  have hdisk : Disk.handler n (.read e.start ((sectorsForSize e.size).toNat * 512)) c =
      (.done (.ok (c.read (e.start.toNat * 512) ((sectorsForSize e.size).toNat * 512))), c) := by
    refine if_pos ⟨by omega, ?_⟩
    push_cast
    omega
  have hle : e.size.toNat ≤ (sectorsForSize e.size).toNat * 512 := by
    have := le_sectorsForSize e.size
    omega
  rw [run_readFile_some hlookup h0 hdisk Disk.read_length, Disk.read_take hle]
  rfl

omit h5 hn in
theorem Mounted.run_readFile_absent (hname : filename ∉ entries.map Entry.name) :
    (readFile filename).run (Disk.handler n) fs c =
      (.done (.error (.fileNotFound filename)), fs, c) := by
  refine run_readFile_none ?_
  rw [hm.fs_eq]
  exact lookup_cacheOf_none hname

theorem Mounted.run_deleteFile_absent (hname : filename ∉ entries.map Entry.name) :
    (deleteFile filename).run (Disk.handler n) fs c =
      (.done (.error (.fileNotFound filename)), fs, c) := by
  obtain ⟨dirty, hload⟩ := hm.run_loadEntries h5 hn
  rw [run_deleteFile hload, if_neg hname]

theorem Mounted.run_deleteFile (hname : filename ∈ entries.map Entry.name) :
    (deleteFile filename).run (Disk.handler n) fs c =
      (.done (.ok ()), ⟨deviceInfo n, cacheOf (entries.filter (·.name ≠ filename))⟩,
        c.write 0 (layout (entries.filter (·.name ≠ filename)) (nextFree entries))) := by
  obtain ⟨dirty, hload⟩ := hm.run_loadEntries h5 hn
  rw [NanoOs.run_deleteFile hload, if_pos hname,
    run_writeSuperblock_handler h5 (hm.wellFormed.filter _).length_le, hm.fs_eq]

end Operations

section Mount

variable (h5 : 5 ≤ n) (repair : Bool)

include h5

theorem run_format : format.run (Disk.handler n) fs c =
    (.done (.ok ()), { fs with cache := cacheOf [] }, c.write 0 (layout [] directorySectors)) :=
  run_writeSuperblock_handler h5 (Nat.zero_le _) _

theorem run_connect_unformatted (hmagic : c.read 0 8 ≠ magicStr) :
    (connect repair).run (Disk.handler n) fs c = (.done (), ⟨deviceInfo n, ∅⟩, c) :=
  run_connect_corrupt rfl (handler_read_superblock h5) hmagic

/-- Mounting any disk with the right magic establishes the invariant. -/
theorem run_connect_formatted (fs : Fs) (hmagic : c.read 0 8 = magicStr)
    (he : parsedEntries ⟨deviceInfo n, ∅⟩ c = entries) :
    ∃ c', (connect repair).run (Disk.handler n) fs c =
        (.done (), ⟨deviceInfo n, cacheOf entries⟩, c') ∧
      Mounted n entries ⟨deviceInfo n, cacheOf entries⟩ c' ∧
      (c' = c ∨ ∃ nf, c' = c.write 0 (layout entries nf)) := by
  have hw : WellFormed ⟨deviceInfo n, ∅⟩ entries := he ▸ parsedEntries_wellFormed
  obtain ⟨dirty, -, hrun⟩ := run_connect (h := Disk.handler n) fs repair rfl
    (handler_read_superblock h5) hmagic he
  rw [hrun]
  by_cases hd : (repair && dirty) = true
  · rw [if_pos hd, Prog.run_bind_done (run_writeSuperblock_handler h5 hw.length_le _)]
    exact ⟨_, rfl, mounted_layout hw _, Or.inr ⟨_, rfl⟩⟩
  · rw [if_neg hd]
    exact ⟨c, rfl, ⟨rfl, hmagic, he⟩, Or.inl rfl⟩

end Mount

end Reference

end OCamlStudy.NanoOs
