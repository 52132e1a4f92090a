import OCamlStudy.OCaml.Split
import OCamlStudy.NanoOs.Mirror
import OCamlStudy.NanoOs.TornDelete
import OCamlStudy.NanoOs.Turns
import OCamlStudy.NanoOs.SocketNet
import OCamlStudy.Program.Rely

/-! # The size of a reply

A request that arrived has at most 4086 bytes, so every file that a request has
stored has no more. This is an invariant of the cache and of the directory on the
disk that every request keeps, however its turns fall; with it the length of each
reply is known from the request and the cache.
-/

namespace OCamlStudy.NanoOs

open OCaml Program Shell

theorem parse_write {cmdStr filename : Bytes} {words : List Bytes}
    (h : parse cmdStr = .write filename words) :
    ∃ command, (cmdStr.splitOn 32).filter (· ≠ []) = command :: filename :: words := by
  unfold parse at h
  split at h
  · cases h
  · rename_i command args hargs
    dsimp only at h
    split_ifs at h
    all_goals try (split at h <;> cases h)
    all_goals first | cases h | exact ⟨command, hargs⟩

theorem concatWords_length_le {cmdStr filename : Bytes} {words : List Bytes}
    (h : parse cmdStr = .write filename words) : (concatWords words).length ≤ cmdStr.length := by
  obtain ⟨command, hargs⟩ := parse_write h
  have hsub : words.Sublist (cmdStr.splitOn 32) := by
    have hall : (command :: filename :: words).Sublist (cmdStr.splitOn 32) :=
      hargs ▸ List.filter_sublist
    exact ((List.sublist_cons_self _ _).trans (List.sublist_cons_self _ _)).trans hall
  calc (concatWords words).length
      ≤ ([32].intercalate (cmdStr.splitOn 32)).length := length_intercalate_le hsub
    _ = cmdStr.length := by rw [List.intercalate_splitOn]

/-- A file on the disk that fits a reply. -/
structure EntryFits (n : ℕ) (e : Entry) : Prop where
  start : 5 ≤ e.start
  size : 0 ≤ e.size
  finish : e.start + sectorsForSize e.size ≤ n
  fits : e.size ≤ 4086

structure CacheFits (n : ℕ) (fs : Fs) : Prop where
  info : fs.info = deviceInfo n
  entries : ∀ name start size, fs.cache.lookup name = some (start, size) →
    EntryFits n ⟨name, start, size⟩

structure DiskFits (n : ℕ) (c : Disk) : Prop where
  magic : c.read 0 8 = magicStr
  entries : ∀ e ∈ parsedEntries ⟨deviceInfo n, ∅⟩ c, e.size ≤ 4086

/-- A directory that a request works on. -/
structure DirectoryFits (n : ℕ) (entries : List Entry) : Prop where
  length_le : entries.length ≤ maxFiles
  nodup : (entries.map Entry.name).Nodup
  entries : ∀ e ∈ entries, EntryFits n e

section Invariant

variable {n : ℕ} {fs : Fs} {c : Disk} {entries : List Entry}

theorem CacheFits.parsedEntries_eq (hm : CacheFits n fs) :
    parsedEntries fs c = parsedEntries ⟨deviceInfo n, ∅⟩ c := by
  rw [← hm.info]
  rfl

theorem DirectoryFits.cacheFits (hd : DirectoryFits n entries) (hm : CacheFits n fs) :
    CacheFits n { fs with cache := cacheOf entries } := by
  refine ⟨hm.info, fun name start size hl => ?_⟩
  dsimp only at hl
  rw [caches_cacheOf hd.nodup, Option.map_eq_some_iff] at hl
  obtain ⟨e, he, heq⟩ := hl
  obtain ⟨rfl, rfl⟩ := Prod.mk.inj heq
  obtain rfl : e.name = name := by simpa using List.find?_some he
  exact hd.entries e (List.mem_of_find?_eq_some he)

theorem DiskFits.congr {c' : Disk} (hc : DiskFits n c) (h : c'.read 0 2560 = c.read 0 2560) :
    DiskFits n c' := by
  obtain ⟨hmagic, hparsed⟩ := @parsedEntries_congr ⟨deviceInfo n, ∅⟩ c c' h hc.magic
  refine ⟨hmagic, ?_⟩
  rw [hparsed]
  exact hc.entries

/-- What a request has written as its directory is read back with the same sizes. -/
theorem DirectoryFits.diskFits (hd : DirectoryFits n entries) (nf : ℤ) :
    DiskFits n (c.write 0 (layout entries nf)) := by
  have hread : (c.write 0 (layout entries nf)).read 0 2560 = layout entries nf := by
    have := Disk.read_write_same c 0 (layout entries nf)
    rwa [layout_length hd.length_le] at this
  refine ⟨magic_layout hread, fun e he => ?_⟩
  obtain ⟨i, hi, rfl⟩ := List.mem_map.mp (mem_of_mem_keepEntries he)
  rw [rawCount_layout hd.length_le hread, List.mem_range] at hi
  have hlt : i < entries.length := by omega
  have hfits := hd.entries _ (List.getElem_mem hlt)
  have hsize : (slotAt (c.write 0 (layout entries nf)) i).size = entries[i].size := by
    rw [slotAt, (slotHolds_layout hread hlt).size]
    apply Cstruct.wrap32_leNumber
    · have := hfits.size
      omega
    · have := hfits.fits
      omega
  rw [hsize]
  exact hfits.fits

theorem DiskFits.directoryFits (hn : n < 2 ^ 31) (hc : DiskFits n c) :
    DirectoryFits n (parsedEntries ⟨deviceInfo n, ∅⟩ c) := by
  have hw : WellFormed ⟨deviceInfo n, ∅⟩ (parsedEntries ⟨deviceInfo n, ∅⟩ c) :=
    parsedEntries_wellFormed
  refine ⟨hw.length_le, hw.nodup, fun e he => ?_⟩
  obtain ⟨hstart, hsize, hfinish⟩ := (hw.entryOk e he).end_le hn
  exact ⟨hstart, hsize, hfinish, hc.entries e he⟩

theorem DirectoryFits.filter (hd : DirectoryFits n entries) (p : Entry → Bool) :
    DirectoryFits n (entries.filter p) where
  length_le := (List.length_filter_le _ _).trans hd.length_le
  nodup := hd.nodup.sublist (List.filter_sublist.map _)
  entries e he := hd.entries e (List.mem_filter.mp he).1

theorem DirectoryFits.replaceEntry (hd : DirectoryFits n entries) {new : Entry}
    (hnew : EntryFits n new)
    (hr : ¬ (new.name ∉ entries.map Entry.name ∧ maxFiles ≤ entries.length)) :
    DirectoryFits n (replaceEntry entries new) where
  length_le := length_replaceEntry_le hd.length_le hr
  nodup := nodup_replaceEntry hd.nodup
  entries e he := by
    rcases mem_replaceEntry.mp he with ⟨he, _⟩ | rfl
    · exact hd.entries e he
    · exact hnew

end Invariant

section Operations

variable {n : ℕ} {fs : Fs} {filename content : Bytes}

variable (h5 : 5 ≤ n) (hn : n < 2 ^ 31) (hm : CacheFits n fs)

include h5 hn hm

theorem keeps_loadEntries : loadEntries.Keeps (Disk.handler n) (CacheFits n) (DiskFits n)
    (fun res => ∃ entries dirty, res = .ok (entries, nextFree entries, dirty) ∧
      DirectoryFits n entries ∧ ∀ e ∈ entries, e.name.length ≤ 56) fs := by
  rw [loadEntries_eq]
  apply Prog.keeps_perform_bind hm
  intro c hc
  refine ⟨.ok (c.read 0 2560), c, handler_read_superblock h5, hc, fun fs' hm' => ?_⟩
  obtain ⟨dirty, hset⟩ := @settle_loaded fs' c hc.magic
  have hw : WellFormed fs' (parsedEntries fs' c) := parsedEntries_wellFormed
  have hnf : repairedNextFree fs' (parsedEntries fs' c) = nextFree (parsedEntries fs' c) := by
    obtain ⟨info, cache⟩ := fs'
    obtain rfl := hm'.info
    exact repairedNextFree_eq h5 hn hw.entryOk
  have hd : DirectoryFits n (parsedEntries fs' c) := by
    rw [hm'.parsedEntries_eq]
    exact hc.directoryFits hn
  rw [← Prog.keeps_settle, hset, hnf]
  exact Prog.keeps_pure.mpr
    ⟨hm', _, dirty, rfl, hd, fun e he => (hw.entryOk e he).name.length_le⟩

omit hn in
theorem keeps_writeSuperblock {entries : List Entry} (hd : DirectoryFits n entries) (nf : ℤ) :
    (writeSuperblock entries nf).Keeps (Disk.handler n) (CacheFits n) (DiskFits n)
      (fun res => res = .ok ()) fs := by
  rw [writeSuperblock_eq hd.length_le]
  apply Prog.keeps_perform_bind hm
  intro c _
  refine ⟨.ok (), c.write 0 _, handler_write_superblock h5 (layout_length hd.length_le nf),
    hd.diskFits nf, fun fs' hm' => ?_⟩
  rw [← Prog.keeps_settle, settle_recorded]
  exact Prog.keeps_ret.mpr ⟨hd.cacheFits hm', rfl⟩

theorem keeps_storeFile {entries : List Entry} (hd : DirectoryFits n entries)
    (hlen : content.length ≤ 4086)
    (hr : ¬ Refused fs entries (nextFree entries) filename content) :
    (storeFile entries (nextFree entries) filename content).Keeps (Disk.handler n)
      (CacheFits n) (DiskFits n) (fun res => res = .ok ()) fs := by
  obtain ⟨hfull, hfits⟩ := not_or.mp hr
  rw [hm.info, wrap63_deviceInfo hn, not_lt] at hfits
  have hstart := five_le_nextFree entries
  have hsectors := sectorsForSize_nonneg content.length
  have hsize : wrap32 (content.length : ℤ) = content.length := wrap32_eq (by omega) (by omega)
  have hrange : Disk.InRange n (nextFree entries) (dataBlock content).length := by
    refine ⟨by omega, ?_⟩
    rw [dataBlock_length]
    push_cast
    omega
  rw [storeFile_eq]
  apply Prog.keeps_perform_bind hm
  intro c hc
  have hkeep : DiskFits n (c.write ((nextFree entries).toNat * 512) (dataBlock content)) :=
    hc.congr (Disk.read_write_disjoint (Or.inl (by omega)))
  refine ⟨.ok (), _, if_pos hrange, hkeep, fun fs' hm' => ?_⟩
  apply keeps_writeSuperblock h5 hm'
  refine hd.replaceEntry ?_ hfull
  rw [hsize]
  exact ⟨hstart, by simp, hfits, by dsimp only; omega⟩

theorem keeps_writeFile (hlen : content.length ≤ 4086) :
    (writeFile filename content).Keeps (Disk.handler n) (CacheFits n) (DiskFits n)
      (fun res => res = .ok () ∨ res = .error .noSpace) fs := by
  obtain ⟨place, heq, hplace⟩ := writeFile_eq filename content
  rw [heq]
  apply (keeps_loadEntries h5 hn hm).bind
  rintro _ fs' hm' ⟨entries, dirty, rfl, hd, _⟩
  rw [← Prog.keeps_settle, hplace]
  split_ifs with hr
  · exact Prog.keeps_pure.mpr ⟨hm', Or.inr rfl⟩
  · rw [Prog.keeps_settle]
    exact (keeps_storeFile h5 hn hm' hd hlen hr).mono fun _ => Or.inl

theorem keeps_createFile (hlen : content.length ≤ 4086) :
    (createFile filename content).Keeps (Disk.handler n) (CacheFits n) (DiskFits n)
      (fun res => (filename ∈ fs.cache ∧ res = .error (.fileExists filename)) ∨
        (filename ∉ fs.cache ∧ (res = .ok () ∨ res = .error .noSpace))) fs := by
  rw [createFile, Prog.keeps_read_bind]
  split_ifs with hmem
  · exact Prog.keeps_pure.mpr ⟨hm, Or.inl ⟨hmem, rfl⟩⟩
  · exact (keeps_writeFile h5 hn hm hlen).mono fun _ h => Or.inr ⟨hmem, h⟩

theorem keeps_deleteFile : (deleteFile filename).Keeps (Disk.handler n) (CacheFits n) (DiskFits n)
    (fun res => (res = .ok () ∧ filename.length ≤ 56) ∨ res = .error (.fileNotFound filename))
    fs := by
  obtain ⟨unlink, heq, hunlink⟩ := deleteFile_eq filename
  rw [heq]
  apply (keeps_loadEntries h5 hn hm).bind
  rintro _ fs' hm' ⟨entries, dirty, rfl, hd, hnames⟩
  rw [hunlink]
  split_ifs with hmem
  · obtain ⟨e, he, rfl⟩ := List.mem_map.mp hmem
    exact (keeps_writeSuperblock h5 hm' (hd.filter _) _).mono
      fun _ h => Or.inl ⟨h, hnames e he⟩
  · exact Prog.keeps_pure.mpr ⟨hm', Or.inr rfl⟩

omit h5 hn hm in
theorem keeps_ls_bind {α : Type} {P : α → Prop} {f : List Bytes → FsProg α} :
    (ls >>= f).Keeps (Disk.handler n) (CacheFits n) (DiskFits n) P fs ↔
      (f fs.cache.keys).Keeps (Disk.handler n) (CacheFits n) (DiskFits n) P fs := by
  rw [ls, bind_assoc, Prog.keeps_read_bind, pure_bind]

omit h5 hn in
theorem keeps_readFile : (readFile filename).Keeps (Disk.handler n) (CacheFits n) (DiskFits n)
    (fun res => (filename ∈ fs.cache ∧ ∃ data, res = .ok data ∧ data.length ≤ 4086) ∨
      (filename ∉ fs.cache ∧ res = .error (.fileNotFound filename))) fs := by
  cases hl : fs.cache.lookup filename with
  | none =>
    have hmem : filename ∉ fs.cache := by
      rw [← AList.lookup_isSome, hl]
      exact Bool.false_ne_true
    rw [readFile, Prog.keeps_read_bind, hl]
    exact Prog.keeps_pure.mpr ⟨hm, Or.inr ⟨hmem, rfl⟩⟩
  | some extent =>
    obtain ⟨start, size⟩ := extent
    have hmem : filename ∈ fs.cache := by
      rw [← AList.lookup_isSome, hl]
      rfl
    obtain ⟨hstart, hsize, hfinish, hfits⟩ := hm.entries _ _ _ hl
    dsimp only at hstart hsize hfinish hfits
    have hsectors := sectorsForSize_nonneg size
    have hset := settle_readFile hl (pure : _ → FsProg (Except FsError Bytes))
    rw [bind_pure] at hset
    rw [← Prog.keeps_settle, hset]
    refine Prog.keeps_call.mpr ⟨hm, fun c hc => ?_⟩
    have hrange : Disk.InRange n start ((sectorsForSize size).toNat * 512) := by
      refine ⟨by omega, ?_⟩
      push_cast
      omega
    refine ⟨.ok _, c, if_pos hrange, hc, fun fs' hm' => ?_⟩
    rw [bind_pure, ← Prog.keeps_settle, settle_received hsize Disk.read_length]
    refine Prog.keeps_pure.mpr ⟨hm', Or.inl ⟨hmem, _, rfl, ?_⟩⟩
    rw [List.length_take]
    omega

end Operations

/-- From the given cache the reply to a command leaves room for the header of a packet. -/
def ReplyFits (cache : Cache) (cmdStr : Bytes) : Prop :=
  match parse cmdStr with
  | .empty | .help | .write _ _ => True
  | .ls => (cache.keys.map fun name => name.length + 1).sum ≤ 4087
  | .cat filename => filename ∈ cache ∨ filename.length ≤ 4063
  | .touch filename => filename ∉ cache ∨ filename.length ≤ 4058
  | .rm filename => filename.length ≤ 4063
  | .unknown cmdStr => cmdStr.length ≤ 4046

theorem length_bytes (text : String) : (bytes text).length = text.length := by
  rw [bytes, List.length_map, String.length_toList]

theorem length_bytes_append (text : String) (b : Bytes) :
    (bytes text ++ b).length = text.length + b.length := by
  rw [List.length_append, length_bytes]

theorem lsReply_fits_iff (files : List Bytes) : (lsReply files).length ≤ 4086 ↔
    (files.map fun name => name.length + 1).sum ≤ 4087 := by
  unfold lsReply
  split_ifs with h
  · subst h
    decide
  · rw [show bytes "\n" = [10] from rfl, length_intercalate, Nat.sub_le_iff_le_add]

section Eval

variable {n : ℕ} {fs : Fs} {cmdStr filename : Bytes} {words : List Bytes} (h5 : 5 ≤ n)
  (hn : n < 2 ^ 31) (hm : CacheFits n fs)

include hm

theorem keeps_cat : (Command.perform (.cat filename)).Keeps (Disk.handler n) (CacheFits n)
    (DiskFits n) (fun reply => reply.length ≤ 4086 ↔ filename ∈ fs.cache ∨ filename.length ≤ 4063)
    fs := by
  have hnotFound : "Error: File not found: ".length = 23 := rfl
  apply (keeps_readFile hm).bind
  rintro res fs' hm' (⟨hmem, data, rfl, hdata⟩ | ⟨hmem, rfl⟩)
  · exact Prog.keeps_pure.mpr ⟨hm', iff_of_true hdata (Or.inl hmem)⟩
  · refine Prog.keeps_pure.mpr ⟨hm', ?_⟩
    rw [catReply, length_bytes_append, or_iff_right hmem]
    omega

include h5 hn

theorem keeps_write (hlen : (concatWords words).length ≤ 4086) :
    (Command.perform (.write filename words)).Keeps (Disk.handler n) (CacheFits n) (DiskFits n)
      (fun reply => reply.length ≤ 4086) fs := by
  rw [Command.perform, keeps_ls_bind]
  apply (keeps_writeFile h5 hn hm hlen).bind
  rintro res fs' hm' (rfl | rfl)
  · apply Prog.keeps_pure.mpr ⟨hm', _⟩
    rw [writeReply]
    split_ifs <;> decide
  · apply Prog.keeps_pure.mpr ⟨hm', _⟩
    rw [writeReply]
    decide

theorem keeps_touch : (Command.perform (.touch filename)).Keeps (Disk.handler n) (CacheFits n)
    (DiskFits n) (fun reply => reply.length ≤ 4086 ↔ filename ∉ fs.cache ∨ filename.length ≤ 4058)
    fs := by
  have htext : "Error: File ".length = 12 := rfl
  have hexists : " already exists.".length = 16 := rfl
  apply (keeps_createFile h5 hn hm (Nat.zero_le _)).bind
  rintro res fs' hm' (⟨hmem, rfl⟩ | ⟨hmem, rfl | rfl⟩)
  · refine Prog.keeps_pure.mpr ⟨hm', ?_⟩
    rw [touchReply, List.length_append, length_bytes_append, length_bytes,
      or_iff_right (not_not_intro hmem)]
    omega
  · refine Prog.keeps_pure.mpr ⟨hm', iff_of_true ?_ (Or.inl hmem)⟩
    rw [touchReply]
    decide
  · refine Prog.keeps_pure.mpr ⟨hm', iff_of_true ?_ (Or.inl hmem)⟩
    rw [touchReply]
    · decide
    · nofun

theorem keeps_rm : (Command.perform (.rm filename)).Keeps (Disk.handler n) (CacheFits n)
    (DiskFits n) (fun reply => reply.length ≤ 4086 ↔ filename.length ≤ 4063) fs := by
  have hnotFound : "Error: File not found: ".length = 23 := rfl
  apply (keeps_deleteFile h5 hn hm).bind
  rintro res fs' hm' (⟨rfl, hname⟩ | rfl)
  · refine Prog.keeps_pure.mpr ⟨hm', iff_of_true ?_ (by omega)⟩
    rw [rmReply]
    decide
  · refine Prog.keeps_pure.mpr ⟨hm', ?_⟩
    rw [rmReply, length_bytes_append]
    omega

/-- **A request keeps the invariant and its reply fits as its command says**, whatever other
requests do between its operations. -/
theorem keeps_eval (hlen : cmdStr.length ≤ 4086) :
    (eval cmdStr).Keeps (Disk.handler n) (CacheFits n) (DiskFits n)
      (fun reply => reply.length ≤ 4086 ↔ ReplyFits fs.cache cmdStr) fs := by
  unfold ReplyFits eval
  cases hparse : parse cmdStr with
  | empty => exact Prog.keeps_pure.mpr ⟨hm, by simp⟩
  | ls =>
    rw [Command.perform, keeps_ls_bind]
    exact Prog.keeps_pure.mpr ⟨hm, lsReply_fits_iff _⟩
  | help =>
    refine Prog.keeps_pure.mpr ⟨hm, iff_of_true ?_ trivial⟩
    rw [helpMsg, length_bytes]
    simp only [String.length_append]
    decide
  | unknown cmdStr =>
    have htext : "Unknown command: ".length = 17 := rfl
    have husage : "\nType 'help' for usage.".length = 23 := rfl
    refine Prog.keeps_pure.mpr ⟨hm, ?_⟩
    dsimp only
    rw [unknownReply, List.length_append, length_bytes_append, length_bytes]
    omega
  | cat filename => exact keeps_cat hm
  | write filename words =>
    have hcontent := (concatWords_length_le hparse).trans hlen
    exact (keeps_write h5 hn hm hcontent).mono fun _ hreply => iff_of_true hreply trivial
  | touch filename => exact keeps_touch h5 hn hm
  | rm filename => exact keeps_rm h5 hn hm

end Eval

end OCamlStudy.NanoOs
