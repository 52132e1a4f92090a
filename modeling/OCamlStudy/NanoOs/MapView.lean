import OCamlStudy.NanoOs.FileMap
import OCamlStudy.NanoOs.RamDisk

/-! # The file system refines a finite map

After any run from a formatted disk, on any reliable device, the replies of all
operations are those of the map that the successful operations have built.
-/

namespace OCamlStudy.NanoOs

open OCaml Program

/-- The entries that a cache holds, in no particular order. -/
def cachedEntries (cache : Cache) : List Entry :=
  cache.entries.map fun file => ⟨file.1, file.2.1, file.2.2⟩

/-- The highest end sector of a live file, at least 5. -/
def highestEnd (cache : Cache) : ℤ := nextFree (cachedEntries cache)

/-- There is no slot for a new name, or no room for the data above every live file. -/
def NoSpace (n : ℕ) (cache : Cache) (files : FileMap) (filename data : Bytes) : Prop :=
  (files filename = none ∧ cache.keys.length = 32) ∨
    n < highestEnd cache + sectorsForSize data.length

instance (n : ℕ) (cache : Cache) (files : FileMap) (filename data : Bytes) :
    Decidable (NoSpace n cache files filename data) :=
  inferInstanceAs (Decidable (_ ∨ _))

/-- The reply of each operation on a device that holds the given files. -/
structure MapView {n : ℕ} (dev : Device n) (files : FileMap) (fs : Fs) (s : dev.State) : Prop where
  readFile : ∀ name, ∃ s', dev.Completes (readFile name) fs s
    (match files name with
      | some data => .ok data
      | none => .error (.fileNotFound name)) fs s'
  ls : ∃ names, dev.Completes ls fs s names fs s ∧ names.Nodup ∧
    ∀ name, name ∈ names ↔ (files name).isSome
  writeFile : ∀ name data, GoodName name → data.length < 2 ^ 31 → ∃ fs' s',
    dev.Completes (writeFile name data) fs s
      (if NoSpace n fs.cache files name data then .error .noSpace else .ok ()) fs' s'
  createFile : ∀ name data, GoodName name → data.length < 2 ^ 31 → ∃ fs' s',
    dev.Completes (createFile name data) fs s
      (if (files name).isSome then .error (.fileExists name)
        else if NoSpace n fs.cache files name data then .error .noSpace else .ok ()) fs' s'
  deleteFile : ∀ name, ∃ fs' s', dev.Completes (deleteFile name) fs s
    (if (files name).isSome then .ok () else .error (.fileNotFound name)) fs' s'
  refused : ∀ op : FsOp, op.Admissible → ∀ reply fs' s',
    op.perform.run dev.handler fs s = (.done reply, fs', s') → reply.Refuses →
      fs' = fs ∧ dev.contents s' = dev.contents s

/-- A state shows at most one map. -/
theorem MapView.unique {n : ℕ} {dev : Device n} {files files' : FileMap} {fs : Fs} {s : dev.State}
    (h : MapView dev files fs s) (h' : MapView dev files' fs s) : files' = files := by
  funext name
  obtain ⟨s₁, hread, _⟩ := h.readFile name
  obtain ⟨s₂, hread', _⟩ := h'.readFile name
  rw [hread] at hread'
  simp only [Prod.mk.injEq, Outcome.done.injEq] at hread'
  have hreply := hread'.1
  cases hfile : files name with
  | none =>
    cases hfile' : files' name with
    | none => rfl
    | some data => simp [hfile, hfile'] at hreply
  | some data =>
    cases hfile' : files' name with
    | none => simp [hfile, hfile'] at hreply
    | some data' =>
      simp only [hfile, hfile', Except.ok.injEq] at hreply
      rw [hreply]

section Cache

variable {entries : List Entry}

theorem mem_cachedEntries (hn : (entries.map Entry.name).Nodup) {e : Entry} :
    e ∈ cachedEntries (cacheOf entries) ↔ e ∈ entries := by
  rw [cachedEntries, List.mem_map]
  constructor
  · rintro ⟨⟨name, start, size⟩, hm, rfl⟩
    have hl := AList.mem_lookup_iff.mpr hm
    have hname : name ∈ entries.map Entry.name :=
      (mem_cacheOf hn).mp (List.mem_keys_of_mem hm)
    obtain ⟨e, he, rfl⟩ := List.mem_map.mp hname
    rw [lookup_cacheOf hn he] at hl
    obtain ⟨rfl, rfl⟩ := Prod.mk.inj (Option.some.inj hl)
    exact he
  · intro he
    exact ⟨⟨e.name, e.start, e.size⟩, AList.mem_lookup_iff.mp (lookup_cacheOf hn he), rfl⟩

theorem highestEnd_cacheOf (hn : (entries.map Entry.name).Nodup) :
    highestEnd (cacheOf entries) = nextFree entries := by
  refine eq_of_forall_ge_iff fun m => ?_
  rw [highestEnd, nextFree_le_iff, nextFree_le_iff]
  simp only [mem_cachedEntries hn]

theorem length_keys_cacheOf (hn : (entries.map Entry.name).Nodup) :
    (cacheOf entries).keys.length = entries.length := by
  have hp : (cacheOf entries).keys.Perm (entries.map Entry.name) :=
    (List.perm_ext_iff_of_nodup (AList.keys_nodup _) hn).mpr fun name => mem_cacheOf hn
  simpa using hp.length_eq

end Cache

section View

variable {n : ℕ} {entries : List Entry} {fs : Fs} {c : Disk}

theorem Mounted.refused_iff_noSpace (hn : n < 2 ^ 31) (hm : Mounted n entries fs c)
    {filename data : Bytes} : Refused fs entries (nextFree entries) filename data ↔
      NoSpace n fs.cache (fileMap entries c) filename data := by
  have hnodup := hm.wellFormed.nodup
  have hl : maxFiles ≤ entries.length ↔ entries.length = 32 :=
    ⟨fun h => le_antisymm hm.wellFormed.length_le h, fun h => h.ge⟩
  rw [hm.refused_iff hn, NoSpace, fileMap_eq_none, hm.fs_eq, length_keys_cacheOf hnodup,
    highestEnd_cacheOf hnodup, hl]

theorem Mounted.mem_cache (hm : Mounted n entries fs c) {name : Bytes} :
    name ∈ fs.cache ↔ (fileMap entries c name).isSome := by
  rw [fileMap_isSome, hm.fs_eq]
  exact mem_cacheOf hm.wellFormed.nodup

section Run

variable (h5 : 5 ≤ n) (hn : n < 2 ^ 31) (hm : Mounted n entries fs c)

include h5 hn hm

theorem Mounted.run_writeFile_reply {filename data : Bytes} (hname : GoodName filename)
    (hdata : data.length < 2 ^ 31) : ∃ fs' c', (writeFile filename data).run (Disk.handler n) fs c =
      (.done (if NoSpace n fs.cache (fileMap entries c) filename data then .error .noSpace
        else .ok ()), fs', c') := by
  by_cases hr : Refused fs entries (nextFree entries) filename data
  · rw [if_pos ((hm.refused_iff_noSpace hn).mp hr)]
    exact ⟨fs, c, hm.run_writeFile_refused h5 hn hr⟩
  · rw [if_neg (mt (hm.refused_iff_noSpace hn).mpr hr)]
    obtain ⟨_, fs', c', hrun, _⟩ := hm.writeFile_stores h5 hn hname hdata hr
    exact ⟨fs', c', hrun⟩

omit h5 in
theorem Mounted.run_readFile_reply (name : Bytes) : (readFile name).run (Disk.handler n) fs c =
    (.done (match fileMap entries c name with
      | some data => .ok data
      | none => .error (.fileNotFound name)), fs, c) := by
  by_cases hmem : name ∈ entries.map Entry.name
  · obtain ⟨e, he, rfl⟩ := List.mem_map.mp hmem
    rw [hm.run_readFile hn he, fileMap_of_mem hm.wellFormed.nodup he]
  · rw [hm.run_readFile_absent hmem, fileMap_eq_none.mpr hmem]

end Run

/-- The operations on a device that carries a mounted disk. -/
theorem Mounted.mapView (h5 : 5 ≤ n) (hn : n < 2 ^ 31) {dev : Device n} {s : dev.State}
    (hm : Mounted n entries fs (dev.contents s)) :
    MapView dev (fileMap entries (dev.contents s)) fs s where
  readFile name := by
    obtain ⟨s', h, _⟩ := dev.completes (hm.run_readFile_reply hn name)
    exact ⟨s', h⟩
  ls := by
    refine ⟨fs.cache.keys, ⟨rfl, rfl⟩, AList.keys_nodup _, fun name => ?_⟩
    exact hm.mem_cache
  writeFile name data hname hdata := by
    obtain ⟨fs', c', hrun⟩ := hm.run_writeFile_reply h5 hn hname hdata
    obtain ⟨s', h, _⟩ := dev.completes hrun
    exact ⟨fs', s', h⟩
  createFile name data hname hdata := by
    have hcreate := run_createFile (Disk.handler n) fs (dev.contents s) name data
    by_cases hlive : name ∈ fs.cache
    · rw [if_pos hlive] at hcreate
      rw [if_pos (hm.mem_cache.mp hlive)]
      obtain ⟨s', h, _⟩ := dev.completes hcreate
      exact ⟨fs, s', h⟩
    · rw [if_neg hlive] at hcreate
      rw [if_neg (mt hm.mem_cache.mpr hlive)]
      obtain ⟨fs', c', hrun⟩ := hm.run_writeFile_reply h5 hn hname hdata
      obtain ⟨s', h, _⟩ := dev.completes (hcreate.trans hrun)
      exact ⟨fs', s', h⟩
  deleteFile name := by
    by_cases hlive : name ∈ entries.map Entry.name
    · rw [if_pos (fileMap_isSome.mpr hlive)]
      obtain ⟨s', h, _⟩ := dev.completes (hm.run_deleteFile h5 hn hlive)
      exact ⟨_, s', h⟩
    · rw [if_neg (mt fileMap_isSome.mp hlive)]
      obtain ⟨s', h, _⟩ := dev.completes (hm.run_deleteFile_absent h5 hn hlive)
      exact ⟨_, s', h⟩
  refused op ha reply fs' s' hrun hr := by
    obtain ⟨reply₀, _, fs₀, c₀, hrun₀, _, _, hsame, _⟩ := hm.step h5 hn ha
    obtain ⟨s₀, ⟨h, _⟩, rfl⟩ := dev.completes hrun₀
    rw [h] at hrun
    cases hrun
    exact hsame hr

end View

/-- Mount the disk and format it. -/
def formatDisk (repair : Bool) : FsProg (Except FsError Unit) := do
  connect repair
  format

def fromFormat (repair : Bool) (ops : List FsOp) : FsProg (List FsReply) := do
  connect repair
  let _ ← format
  FsOp.performAll ops

section FromFormat

variable {n : ℕ} (h5 : 5 ≤ n) (fs : Fs) (c : Disk) (repair : Bool)

include h5

theorem run_connect_done : ∃ fs' c', (connect repair).run (Disk.handler n) fs c =
    (.done (), fs', c') ∧ fs'.info = deviceInfo n := by
  by_cases hmagic : c.read 0 8 = magicStr
  · obtain ⟨c', hrun, _⟩ := run_connect_formatted h5 repair fs hmagic rfl
    exact ⟨_, c', hrun, rfl⟩
  · exact ⟨_, c, run_connect_unformatted h5 repair hmagic, rfl⟩

theorem run_formatDisk : ∃ fs' c', (formatDisk repair).run (Disk.handler n) fs c =
    (.done (.ok ()), fs', c') ∧ Mounted n [] fs' c' ∧ Stored [] c' := by
  obtain ⟨⟨_, cache⟩, c₁, hrun, rfl⟩ := run_connect_done h5 fs c repair
  refine ⟨_, _, ?_, mounted_layout (c := c₁)
    (WellFormed.nil : WellFormed ⟨deviceInfo n, cache⟩ []) directorySectors,
    stored_layout (Nat.zero_le _) _⟩
  rw [formatDisk, Prog.run_bind_done hrun, run_format h5]

theorem run_fromFormat (ops : List FsOp) : ∃ fs' c',
    (fromFormat repair ops).run (Disk.handler n) fs c =
      (FsOp.performAll ops).run (Disk.handler n) fs' c' ∧ Mounted n [] fs' c' ∧ Stored [] c' := by
  obtain ⟨fs', c', hrun, hm, hst⟩ := run_formatDisk h5 fs c repair
  have hbind : fromFormat repair ops = formatDisk repair >>= fun _ => FsOp.performAll ops := by
    rw [formatDisk, bind_assoc]
    rfl
  refine ⟨fs', c', ?_, hm, hst⟩
  rw [hbind, Prog.run_bind_done hrun]

theorem fromFormat_mounted (hn : n < 2 ^ 31) (dev : Device n) (s₀ : dev.State) (ops : List FsOp)
    (ha : ∀ op ∈ ops, op.Admissible) :
    ∃ replies entries fs' s, dev.Completes (fromFormat repair ops) fs s₀ replies fs' s ∧
      replies.length = ops.length ∧ Mounted n entries fs' (dev.contents s) ∧
      fileMap entries (dev.contents s) = FileMap.replay (fun _ => none) (ops.zip replies) ∧
      Stored entries (dev.contents s) := by
  obtain ⟨fs₁, c₁, hrun, hm₁, hst₁⟩ := run_fromFormat h5 fs (dev.contents s₀) repair ops
  obtain ⟨replies, entries, fs', c, hops, hl, hm, hf, hst⟩ := hm₁.steps h5 hn ha
  obtain ⟨s, hc, rfl⟩ := dev.completes (hrun.trans hops)
  exact ⟨replies, entries, fs', s, hc, hl, hm, hf, hst hst₁⟩

end FromFormat

/-- **The file system refines a finite map.** After every run of operations the replies of
all operations are those of the map that the successful ones among them have built. -/
theorem fileSystem_refines_map {n : ℕ} (h5 : 5 ≤ n) (hn : n < 2 ^ 31) (dev : Device n)
    (repair : Bool) (fs₀ : Fs) (s₀ : dev.State) (ops : List FsOp)
    (ha : ∀ op ∈ ops, op.Admissible) :
    ∃ replies fs s, dev.Completes (fromFormat repair ops) fs₀ s₀ replies fs s ∧
      replies.length = ops.length ∧
      MapView dev (FileMap.replay (fun _ => none) (ops.zip replies)) fs s := by
  obtain ⟨replies, entries, fs, s, hc, hl, hm, hf, _⟩ :=
    fromFormat_mounted h5 fs₀ repair hn dev s₀ ops ha
  have hview := hm.mapView h5 hn
  rw [hf] at hview
  exact ⟨replies, fs, s, hc, hl, hview⟩

/-- Two operations on the RAM disk. -/
theorem fileSystem_refines_map_ramDisk : ∃ replies fs s,
    RamDisk.device.Completes
      (fromFormat true [.createFile (bytes "a") (bytes "x"), .deleteFile (bytes "a")])
      ⟨deviceInfo 0, ∅⟩ RamDisk.fresh replies fs s ∧ replies.length = 2 ∧
    MapView RamDisk.device
      (FileMap.replay (fun _ => none)
        (List.zip [.createFile (bytes "a") (bytes "x"), .deleteFile (bytes "a")] replies))
      fs s := by
  refine fileSystem_refines_map (by decide) (by decide) RamDisk.device true _ _ _ ?_
  intro op hop
  rcases List.mem_cons.mp hop with rfl | hop
  · exact ⟨by decide, by decide⟩
  · obtain rfl := List.mem_singleton.mp hop
    trivial

end OCamlStudy.NanoOs
