import OCamlStudy.NanoOs.Directory
import OCamlStudy.Program.Interleaving

/-! # What the operations do

One lemma for each operation of the file system, on any device, in terms of the
answers of that device. Later modules use these and never unfold an operation.
-/

namespace OCamlStudy.NanoOs

open OCaml Program

/-- The sectors of a file: its content and zeros up to a sector boundary. -/
def dataBlock (content : Bytes) : Bytes :=
  content ++ List.replicate ((sectorsForSize content.length).toNat * 512 - content.length) 0

/-- The two writes of `write_file`, the data first. -/
def storeFile (entries : List Entry) (nextFree : ℤ) (filename content : Bytes) :
    FsProg (Except FsError Unit) := do
  match ← Block.write nextFree (dataBlock content) with
  | .error e => return .error (.blockError e)
  | .ok () =>
    writeSuperblock (replaceEntry entries ⟨filename, nextFree, wrap32 content.length⟩)
      (wrap32 (nextFree + wrap32 (sectorsForSize content.length)))

/-- `write_file` refuses a new name in a full directory, and data that does not fit. -/
def Refused (fs : Fs) (entries : List Entry) (nextFree : ℤ) (filename content : Bytes) : Prop :=
  (filename ∉ entries.map Entry.name ∧ maxFiles ≤ entries.length) ∨
    wrap63 fs.info.sizeSectors < nextFree + sectorsForSize content.length

instance (fs : Fs) (entries : List Entry) (nextFree : ℤ) (filename content : Bytes) :
    Decidable (Refused fs entries nextFree filename content) :=
  inferInstanceAs (Decidable (_ ∨ _))

theorem sectorsForSize_nonneg (size : ℤ) : 0 ≤ sectorsForSize size := by
  unfold sectorsForSize
  split_ifs <;> omega

theorem le_sectorsForSize (size : ℤ) : size ≤ sectorsForSize size * 512 := by
  unfold sectorsForSize
  split_ifs <;> omega

theorem length_le_sectors (content : Bytes) :
    content.length ≤ (sectorsForSize content.length).toNat * 512 := by
  have := le_sectorsForSize content.length
  have := sectorsForSize_nonneg content.length
  omega

@[simp]
theorem dataBlock_length (content : Bytes) :
    (dataBlock content).length = (sectorsForSize content.length).toNat * 512 := by
  have := length_le_sectors content
  simp only [dataBlock, List.length_append, List.length_replicate]
  omega

/-- `load_entries` after the superblock was read. -/
def loaded : Except Block.Error Bytes → FsProg (Except FsError (List Entry × ℤ × Bool))
  | .error e => return .error (.blockError e)
  | .ok buf => do
    let fs ← Prog.read
    Prog.ofExcept (parseSuperblock fs buf)

/-- `write_superblock` after the directory was written. -/
def recorded (entries : List Entry) : Except Block.Error Unit → FsProg (Except FsError Unit)
  | .ok () => do
    updateCache entries
    return .ok ()
  | .error e => return .error (.blockError e)

/-- `write_file` after the data was written. -/
def stored (entries : List Entry) (nextFree : ℤ) (filename content : Bytes) :
    Except Block.Error Unit → FsProg (Except FsError Unit)
  | .error e => return .error (.blockError e)
  | .ok () =>
    writeSuperblock (replaceEntry entries ⟨filename, nextFree, wrap32 content.length⟩)
      (wrap32 (nextFree + wrap32 (sectorsForSize content.length)))

/-- `read_file` after the sectors of the file were read. -/
def received (size : ℤ) : Except Block.Error Bytes → FsProg (Except FsError Bytes)
  | .error e => return .error (.blockError e)
  | .ok dataBuf => do
    let content ← Prog.ofExcept (Cstruct.sub dataBuf 0 size)
    return .ok content

section Turn

variable {β : Type} {fs : Fs} {c : Disk} {entries : List Entry} {nextFree : ℤ}
  {filename content : Bytes}

theorem loadEntries_eq : loadEntries = Block.read 0 2560 >>= loaded := by
  rw [loadEntries, readSuperblock, show directorySectors * 512 = 2560 from rfl, bind_assoc]
  refine congrArg _ (funext fun r => ?_)
  cases r <;> rfl

theorem settle_loaded (hm : c.read 0 8 = magicStr) : ∃ dirty,
    (loaded (.ok (c.read 0 2560))).settle fs = (.ret (.ok
      (parsedEntries fs c, repairedNextFree fs (parsedEntries fs c), dirty)), fs) := by
  obtain ⟨dirty, hp, -⟩ := parseSuperblock_read hm
  refine ⟨dirty, ?_⟩
  rw [loaded, Prog.settle_read_bind, hp]
  rfl

theorem writeSuperblock_eq (hl : entries.length ≤ maxFiles) :
    writeSuperblock entries nextFree =
      Block.write 0 (layout entries nextFree) >>= recorded entries := by
  rw [writeSuperblock, superblock_eq hl]
  refine congrArg (Block.write 0 (layout entries nextFree) >>= ·) (funext fun r => ?_)
  cases r <;> rfl

theorem settle_recorded : (recorded entries (.ok ())).settle fs =
    (.ret (.ok ()), { fs with cache := cacheOf entries }) := rfl

theorem storeFile_eq : storeFile entries nextFree filename content =
    Block.write nextFree (dataBlock content) >>= stored entries nextFree filename content := by
  refine congrArg (Block.write nextFree (dataBlock content) >>= ·) (funext fun r => ?_)
  cases r <;> rfl

theorem settle_loadEntries : loadEntries.settle fs = (.call (.read 0 2560) loaded, fs) := by
  rw [loadEntries_eq]
  rfl

theorem settle_writeSuperblock (hl : entries.length ≤ maxFiles) (nextFree : ℤ) :
    (writeSuperblock entries nextFree).settle fs =
      (.call (.write 0 (layout entries nextFree)) (recorded entries), fs) := by
  rw [writeSuperblock_eq hl]
  rfl

theorem settle_storeFile : (storeFile entries nextFree filename content).settle fs =
    (.call (.write nextFree (dataBlock content))
      (stored entries nextFree filename content), fs) := by
  rw [storeFile_eq]
  rfl

theorem writeFile_eq (filename content : Bytes) :
    ∃ place, writeFile filename content = loadEntries >>= place ∧
      ∀ fs entries nextFree dirty, (place (.ok (entries, nextFree, dirty))).settle fs =
        if Refused fs entries nextFree filename content then (.ret (.error .noSpace), fs)
        else (storeFile entries nextFree filename content).settle fs := by
  refine ⟨_, rfl, fun fs entries nextFree dirty => ?_⟩
  have hex : (!entries.any fun entry => decide (entry.name = filename)) = true ↔
      filename ∉ entries.map Entry.name := by
    simp
  have hcreate : Cstruct.create (sectorsForSize content.length * 512) =
      .ok (List.replicate ((sectorsForSize content.length).toNat * 512) 0) := by
    rw [← Cstruct.create_natCast]
    push_cast
    rw [Int.toNat_of_nonneg (sectorsForSize_nonneg _)]
  have hblit : Cstruct.blit content 0
      (List.replicate ((sectorsForSize content.length).toNat * 512) 0) 0 content.length =
        .ok (dataBlock content) :=
    Cstruct.blit_zeros (p := []) rfl rfl (length_le_sectors content)
  dsimp only
  by_cases hfull : filename ∉ entries.map Entry.name ∧ maxFiles ≤ entries.length
  · rw [if_pos (show Refused fs entries nextFree filename content from Or.inl hfull),
      if_pos ⟨hex.mpr hfull.1, hfull.2⟩]
    rfl
  · rw [if_neg fun hc => hfull ⟨hex.mp hc.1, hc.2⟩, Prog.settle_read_bind]
    by_cases hbig : wrap63 fs.info.sizeSectors < nextFree + sectorsForSize content.length
    · rw [if_pos (show Refused fs entries nextFree filename content from Or.inr hbig), if_pos hbig]
      rfl
    · rw [if_neg (show ¬ Refused fs entries nextFree filename content from
        not_or.mpr ⟨hfull, hbig⟩), if_neg hbig, hcreate, Prog.settle_ofExcept_bind, hblit,
        Prog.settle_ofExcept_bind]
      rfl

theorem deleteFile_eq (filename : Bytes) :
    ∃ unlink, deleteFile filename = loadEntries >>= unlink ∧
      ∀ entries nextFree dirty, unlink (.ok (entries, nextFree, dirty)) =
        if filename ∈ entries.map Entry.name then
          writeSuperblock (entries.filter (·.name ≠ filename)) nextFree
        else pure (.error (.fileNotFound filename)) := by
  refine ⟨_, rfl, fun entries nextFree dirty => ?_⟩
  have hkept : (entries.filter (·.name ≠ filename)).length = entries.length ↔
      filename ∉ entries.map Entry.name := by
    rw [List.length_filter_eq_length_iff]
    simp
  dsimp only
  by_cases hn : filename ∈ entries.map Entry.name
  · rw [if_pos hn, if_neg fun hk => hkept.mp hk hn]
  · rw [if_neg hn, if_pos (hkept.mpr hn)]

theorem settle_writeFile (filename data : Bytes) (f : Except FsError Unit → FsProg β) :
    ∃ place, (∀ fs entries nextFree dirty, (place (.ok (entries, nextFree, dirty))).settle fs =
        if Refused fs entries nextFree filename data then (.ret (.error .noSpace), fs)
        else (storeFile entries nextFree filename data).settle fs) ∧
      ∀ fs, (writeFile filename data >>= f).settle fs =
        (.call (.read 0 2560) fun res => (loaded res >>= place) >>= f, fs) := by
  obtain ⟨place, heq, hplace⟩ := writeFile_eq filename data
  refine ⟨place, hplace, fun fs => ?_⟩
  rw [heq]
  exact Prog.settle_bind_call (Prog.settle_bind_call settle_loadEntries place) f

theorem settle_deleteFile (filename : Bytes) (f : Except FsError Unit → FsProg β) :
    ∃ unlink, (∀ entries nextFree dirty, unlink (.ok (entries, nextFree, dirty)) =
        if filename ∈ entries.map Entry.name then
          writeSuperblock (entries.filter (·.name ≠ filename)) nextFree
        else pure (.error (.fileNotFound filename))) ∧
      ∀ fs, (deleteFile filename >>= f).settle fs =
        (.call (.read 0 2560) fun res => (loaded res >>= unlink) >>= f, fs) := by
  obtain ⟨unlink, heq, hunlink⟩ := deleteFile_eq filename
  refine ⟨unlink, hunlink, fun fs => ?_⟩
  rw [heq]
  exact Prog.settle_bind_call (Prog.settle_bind_call settle_loadEntries unlink) f

theorem settle_createFile (fs : Fs) (filename data : Bytes) (f : Except FsError Unit → FsProg β) :
    (createFile filename data >>= f).settle fs =
      if filename ∈ fs.cache then (f (.error (.fileExists filename))).settle fs
      else (writeFile filename data >>= f).settle fs := by
  rw [createFile, bind_assoc, Prog.settle_read_bind]
  split_ifs <;> rfl

theorem settle_readFile {start size : ℤ} (hl : fs.cache.lookup filename = some (start, size))
    (f : Except FsError Bytes → FsProg β) : (readFile filename >>= f).settle fs =
      (.call (.read start ((sectorsForSize size).toNat * 512)) fun r => received size r >>= f,
        fs) := by
  have hcreate : Cstruct.create (sectorsForSize size * 512) =
      .ok (List.replicate ((sectorsForSize size).toNat * 512) 0) := by
    rw [← Cstruct.create_natCast]
    push_cast
    rw [Int.toNat_of_nonneg (sectorsForSize_nonneg _)]
  have hread : (readFile filename).settle fs = (Block.read start
      ((sectorsForSize size).toNat * 512) >>= received size).settle fs := by
    rw [readFile, Prog.settle_read_bind, hl]
    dsimp only
    rw [hcreate, Prog.settle_ofExcept_bind, List.length_replicate]
    refine congrArg (fun k => (Block.read start _ >>= k : FsProg _).settle fs) (funext fun r => ?_)
    cases r <;> rfl
  exact Prog.settle_bind_call hread f

theorem settle_received {size : ℤ} {data : Bytes} (h0 : 0 ≤ size)
    (hd : data.length = (sectorsForSize size).toNat * 512) :
    (received size (.ok data)).settle fs = (.ret (.ok (data.take size.toNat)), fs) := by
  have hle := le_sectorsForSize size
  have hsub : Cstruct.sub data 0 size = .ok (data.take size.toNat) := by
    rw [Cstruct.sub, if_neg (by omega)]
    rfl
  rw [received, hsub]
  rfl

end Turn

section Spec

variable {S : Type} {h : BlockHandler S} {fs : Fs} {s s' s'' : S} {c : Disk}
  {entries : List Entry} {nextFree : ℤ} {dirty : Bool} {filename content : Bytes}

theorem run_readSuperblock {r : Except Block.Error Bytes}
    (hr : h (.read 0 2560) s = (.done r, s')) :
    readSuperblock.run h fs s = (.done (r.mapError .blockError), fs, s') := by
  rw [readSuperblock, show directorySectors * 512 = 2560 from rfl,
    Prog.run_bind_done (Block.run_read hr)]
  cases r <;> rfl

theorem run_updateCache : (updateCache entries).run h fs s =
    (.done (), { fs with cache := cacheOf entries }, s) := rfl

theorem run_writeSuperblock (hl : entries.length ≤ maxFiles)
    (hw : h (.write 0 (layout entries nextFree)) s = (.done (.ok ()), s')) :
    (writeSuperblock entries nextFree).run h fs s =
      (.done (.ok ()), { fs with cache := cacheOf entries }, s') := by
  rw [writeSuperblock_eq hl, Prog.run_bind_done (Block.run_write hw)]
  rfl

theorem run_writeSuperblock_error {e : Block.Error} (hl : entries.length ≤ maxFiles)
    (hw : h (.write 0 (layout entries nextFree)) s = (.done (.error e), s')) :
    (writeSuperblock entries nextFree).run h fs s = (.done (.error (.blockError e)), fs, s') := by
  rw [writeSuperblock_eq hl, Prog.run_bind_done (Block.run_write hw)]
  rfl

theorem run_writeSuperblock_stopped (hl : entries.length ≤ maxFiles)
    (hw : h (.write 0 (layout entries nextFree)) s = (.stopped, s')) :
    (writeSuperblock entries nextFree).run h fs s = (.stopped, fs, s') := by
  rw [writeSuperblock_eq hl]
  exact Prog.run_bind_stopped (Block.run_write_stopped hw) _

theorem run_writeFile
    (hload : loadEntries.run h fs s = (.done (.ok (entries, nextFree, dirty)), fs, s')) :
    (writeFile filename content).run h fs s =
      if Refused fs entries nextFree filename content then (.done (.error .noSpace), fs, s')
      else (storeFile entries nextFree filename content).run h fs s' := by
  obtain ⟨place, heq, hplace⟩ := writeFile_eq filename content
  rw [heq, Prog.run_bind_done hload, ← Prog.run_settle, hplace]
  split_ifs
  · rfl
  · exact Prog.run_settle h _ _ _

theorem run_createFile (h : BlockHandler S) (fs : Fs) (s : S) (filename content : Bytes) :
    (createFile filename content).run h fs s =
    if filename ∈ fs.cache then (.done (.error (.fileExists filename)), fs, s)
    else (writeFile filename content).run h fs s := by
  rw [createFile, Prog.run_bind_done Prog.run_read]
  split_ifs <;> rfl

theorem run_readFile_none (hl : fs.cache.lookup filename = none) :
    (readFile filename).run h fs s = (.done (.error (.fileNotFound filename)), fs, s) := by
  rw [readFile, Prog.run_bind_done Prog.run_read, hl]
  rfl

theorem run_readFile_some {start size : ℤ} {data : Bytes}
    (hl : fs.cache.lookup filename = some (start, size)) (h0 : 0 ≤ size)
    (hr : h (.read start ((sectorsForSize size).toNat * 512)) s = (.done (.ok data), s'))
    (hd : data.length = (sectorsForSize size).toNat * 512) :
    (readFile filename).run h fs s = (.done (.ok (data.take size.toNat)), fs, s') := by
  have hset := settle_readFile hl (pure : _ → FsProg (Except FsError Bytes))
  rw [bind_pure] at hset
  rw [← Prog.run_settle, hset]
  dsimp only
  rw [Prog.run, hr]
  dsimp only
  rw [bind_pure, ← Prog.run_settle, settle_received h0 hd]
  rfl

theorem run_deleteFile
    (hload : loadEntries.run h fs s = (.done (.ok (entries, nextFree, dirty)), fs, s')) :
    (deleteFile filename).run h fs s =
      if filename ∈ entries.map Entry.name then
        (writeSuperblock (entries.filter (·.name ≠ filename)) nextFree).run h fs s'
      else (.done (.error (.fileNotFound filename)), fs, s') := by
  obtain ⟨unlink, heq, hunlink⟩ := deleteFile_eq filename
  rw [heq, Prog.run_bind_done hload, hunlink]
  split_ifs <;> rfl

section Connect

variable {info : Block.Info} {repair : Bool}

theorem run_connect_error {e : Block.Error} (hi : h .getInfo s = (.done info, s'))
    (hr : h (.read 0 2560) s' = (.done (.error e), s'')) :
    (connect repair).run h fs s = (.done (), ⟨info, ∅⟩, s'') := by
  rw [connect, Prog.run_bind_done (Block.run_getInfo hi), Prog.run_bind_done Prog.run_write,
    Prog.run_bind_done (run_readSuperblock hr)]
  rfl

theorem run_connect_corrupt (hi : h .getInfo s = (.done info, s'))
    (hr : h (.read 0 2560) s' = (.done (.ok (c.read 0 2560)), s''))
    (hm : c.read 0 8 ≠ magicStr) :
    (connect repair).run h fs s = (.done (), ⟨info, ∅⟩, s'') := by
  rw [connect, Prog.run_bind_done (Block.run_getInfo hi), Prog.run_bind_done Prog.run_write,
    Prog.run_bind_done (run_readSuperblock hr)]
  dsimp only [Except.mapError]
  rw [magic_read, Prog.run_bind_done (Prog.run_ofExcept_ok _), if_pos hm]
  rfl

/-- Mounting a disk with the right magic, up to the repair. -/
theorem run_connect (fs : Fs) (repair : Bool) (hi : h .getInfo s = (.done info, s'))
    (hr : h (.read 0 2560) s' = (.done (.ok (c.read 0 2560)), s''))
    (hm : c.read 0 8 = magicStr) (he : parsedEntries ⟨info, ∅⟩ c = entries) :
    ∃ dirty, (dirty = false ↔ Intact ⟨info, ∅⟩ c) ∧
      (connect repair).run h fs s =
        (if (repair && dirty) = true then do
          let _ ← writeSuperblock entries (repairedNextFree ⟨info, ∅⟩ entries)
          return ()
        else return () : FsProg Unit).run h ⟨info, cacheOf entries⟩ s'' := by
  subst he
  obtain ⟨dirty, hp, hintact⟩ := parseSuperblock_read hm
  refine ⟨dirty, hintact, ?_⟩
  rw [connect, Prog.run_bind_done (Block.run_getInfo hi), Prog.run_bind_done Prog.run_write,
    Prog.run_bind_done (run_readSuperblock hr)]
  dsimp only [Except.mapError]
  rw [magic_read, Prog.run_bind_done (Prog.run_ofExcept_ok _), if_neg (not_not_intro hm),
    Prog.run_bind_done Prog.run_read, hp, Prog.run_bind_done (Prog.run_ofExcept_ok _)]
  dsimp only
  rw [Prog.run_bind_done run_updateCache]

end Connect

theorem run_isFormatted (hr : h (.read 0 2560) s = (.done (.ok (c.read 0 2560)), s')) :
    isFormatted.run h fs s = (.done (decide (c.read 0 8 = magicStr)), fs, s') := by
  rw [isFormatted, Prog.run_bind_done (run_readSuperblock hr)]
  dsimp only [Except.mapError]
  rw [magic_read, Prog.run_bind_done (Prog.run_ofExcept_ok _)]
  rfl

theorem run_isFormatted_error {e : Block.Error} (hr : h (.read 0 2560) s = (.done (.error e), s')) :
    isFormatted.run h fs s = (.done false, fs, s') := by
  rw [isFormatted, Prog.run_bind_done (run_readSuperblock hr)]
  rfl

end Spec

end OCamlStudy.NanoOs
