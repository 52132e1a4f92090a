import OCamlStudy.NanoOs.CrashHistory
import OCamlStudy.NanoOs.Overlap
import OCamlStudy.Program.Restrict

/-! # Restarting on a file

The file system on the file disk of the Unix build. In range the file disk refines
the disk of the reference and keeps the size of its file, so a process that opens
the file again finds the files that the last one has left.
-/

namespace OCamlStudy.NanoOs

open OCaml Program

namespace FileDisk

/-- The file disk as the file system calls it, with one buffer; nothing catches the exception of a
system call, which ends the process. -/
def block (info : Block.Info) : BlockHandler Fd
  | .getInfo, fd => (.done info, fd)
  | .read sectorStart len, fd =>
    match (read info sectorStart [len]).run handler () fd with
    | (.done r, _, fd) => (.done (r.map List.flatten), fd)
    | (_, _, fd) => (.stopped, fd)
  | .write sectorStart buffer, fd =>
    match (write info sectorStart [buffer]).run handler () fd with
    | (.done r, _, fd) => (.done r, fd)
    | (_, _, fd) => (.stopped, fd)

section Device

variable {n size : ℕ} {fd : Fd}

theorem length_overwrite (content : Bytes) (offset : ℕ) (bytes : Bytes) :
    content.length ≤ (overwrite content offset bytes).length := by
  unfold overwrite
  split_ifs with hb
  · exact le_rfl
  · simp only [Cstruct.splice, List.length_append, List.length_take, List.length_replicate,
      List.length_drop]
    omega

theorem handler_keeps (q : Op) (fd : Fd) (h : size ≤ fd.content.length) :
    size ≤ (handler q fd).2.content.length := by
  cases q with
  | lseek offset =>
    rw [handler]
    split_ifs <;> exact h
  | read len => exact h
  | write bytes => exact h.trans (length_overwrite fd.content fd.offset bytes)

theorem block_keeps (info : Block.Info) (q : Block.Op) (fd : Fd) (h : size ≤ fd.content.length) :
    size ≤ (block info q fd).2.content.length := by
  cases q with
  | getInfo => exact h
  | read sectorStart len =>
    have hkeeps := Prog.run_keeps handler_keeps (read info sectorStart [len]) () h
    rw [block]
    split <;> rename_i heq <;> rwa [heq] at hkeeps
  | write sectorStart buffer =>
    have hkeeps := Prog.run_keeps handler_keeps (write info sectorStart [buffer]) () h
    rw [block]
    split <;> rename_i heq <;> rwa [heq] at hkeeps

theorem run_seek (hn : n < 2 ^ 31) {sector : ℤ} {len : ℕ} (hr : Disk.InRange n sector len) :
    (Fd.lseek (wrap63 (wrap64 (sector * wrap64 (deviceInfo n).sectorSize)))).run handler () fd =
      (.done (sector.toNat * 512 : ℕ), (), { fd with offset := sector.toNat * 512 }) := by
  obtain ⟨h0, hle⟩ := hr
  have hseek : wrap63 (wrap64 (sector * wrap64 (deviceInfo n).sectorSize)) =
      (sector.toNat * 512 : ℕ) := by
    change wrap63 (wrap64 (sector * wrap64 512)) = _
    rw [wrap64_eq (n := 512) (by norm_num) (by norm_num), wrap64_eq (by omega) (by omega),
      wrap63_eq (by omega) (by omega)]
    omega
  rw [hseek]
  exact Prog.run_perform (handler_lseek (Int.natCast_nonneg _))

theorem inRange_size (hsize : n * 512 ≤ size) (hfd : fd.content.length = size) {sector : ℤ}
    {len : ℕ} (hr : Disk.InRange n sector len) :
    sector.toNat * 512 + len ≤ fd.content.length := by
  obtain ⟨h0, hle⟩ := hr
  have hn : sector.toNat * 512 + len ≤ n * 512 := by
    zify
    rwa [Int.toNat_of_nonneg h0]
  rw [hfd]
  exact hn.trans hsize

/-- In range the file disk does what the disk of the reference does, on a file of the same size. -/
theorem block_refines (hn : n < 2 ^ 31) (hsize : n * 512 ≤ size) :
    RefinesOn (fun fd => fd.content.length = size) (block (deviceInfo n)) (Disk.handler n)
      fun fd => Disk.ofBytes fd.content := by
  rintro (_ | ⟨sector, len⟩ | ⟨sector, buffer⟩) fd r c hfd h
  · cases h
    exact ⟨fd, rfl, rfl, hfd⟩
  · rw [Disk.handler] at h
    split_ifs at h with hr
    · have hfits := inRange_size hsize hfd hr
      have hloop := @run_readLoop { fd with offset := sector.toNat * 512 } sector [] [len] (by
        simpa using hfits)
      have hrun : (read (deviceInfo n) sector [len]).run handler () fd = _ :=
        (Prog.run_bind_done (run_seek hn hr) _).trans hloop
      cases h
      refine ⟨{ fd with offset := sector.toNat * 512 + [len].sum }, ?_, rfl, hfd⟩
      rw [block, hrun]
      simp only [pieces, Except.map, List.nil_append, List.flatten_cons, List.flatten_nil,
        List.append_nil]
    · cases h
  · rw [Disk.handler] at h
    split_ifs at h with hr
    · have hfits := inRange_size hsize hfd hr
      obtain ⟨fd', hloop, hl, hc⟩ :=
        @run_writeLoop { fd with offset := sector.toNat * 512 } sector [buffer] (by
          simpa using hfits)
      have hrun : (write (deviceInfo n) sector [buffer]).run handler () fd = _ :=
        (Prog.run_bind_done (run_seek hn hr) _).trans hloop
      cases h
      refine ⟨fd', ?_, ?_, hl.trans hfd⟩
      · rw [block, hrun]
      · simpa using hc
    · cases h

end Device

def device (n : ℕ) (hn : n < 2 ^ 31) : Device n where
  State := { fd : Fd // n * 512 ≤ fd.content.length }
  handler := restrict (block (deviceInfo n)) (block_keeps (deviceInfo n))
  contents fd := Disk.ofBytes fd.1.content
  refines := by
    have hr : RefinesOn (fun fd : Fd => n * 512 ≤ fd.content.length) (block (deviceInfo n))
        (Disk.handler n) fun fd => Disk.ofBytes fd.content := by
      intro q fd r c hfd hq
      obtain ⟨fd', h, hc, hl⟩ := block_refines hn hfd q fd r c rfl hq
      exact ⟨fd', h, hc, hfd.trans_eq hl.symm⟩
    exact hr.restrict _

end FileDisk

def session (ops : List FsOp) : FsProg (List FsReply) := do
  bootWithDevices
  FsOp.performAll ops

/-- A process that opens the file; the replies, and the file that it leaves. -/
def process (file : Bytes) (ops : List FsOp) : Option (List FsReply × Bytes) :=
  let (info, fd) := FileDisk.connect file
  match (session ops).run (FileDisk.block info) ⟨info, ∅⟩ fd with
  | (.done replies, _, fd) => some (replies, fd.content)
  | _ => none

def processes (file : Bytes) : List (List FsOp) → Option (List (List FsReply) × Bytes)
  | [] => some ([], file)
  | ops :: sessions => do
    let (replies, file) ← process file ops
    let (all, file) ← processes file sessions
    return (replies :: all, file)

def trace (sessions : List (List FsOp)) (all : List (List FsReply)) : List (FsOp × FsReply) :=
  (sessions.zip all).flatMap fun p => p.1.zip p.2

theorem FileMap.replay_append (files : FileMap) (t t' : List (FsOp × FsReply)) :
    files.replay (t ++ t') = (files.replay t).replay t' := by
  induction t generalizing files with
  | nil => rfl
  | cons p t ih => exact ih (files.after p.1 p.2)

/-- A disk that a boot makes these files of. -/
def Ready (n : ℕ) (c : Disk) (files : FileMap) : Prop :=
  Bootable n c files ∨ (c.read 0 8 ≠ magicStr ∧ files = fun _ => none)

section Session

variable {n : ℕ} {c : Disk} {files : FileMap} {ops : List FsOp} (h5 : 5 ≤ n) (hn : n < 2 ^ 31)

include h5 hn

theorem Ready.boot (h : Ready n c files) (fs₁ : Fs) : ∃ fs c',
    bootWithDevices.run (Disk.handler n) fs₁ c = (.done (), fs, c') ∧ Running n files fs c' := by
  rcases h with h | ⟨hmagic, rfl⟩
  · exact h.boot h5 hn fs₁
  · exact run_boot_unformatted h5 hmagic fs₁

theorem Ready.session (h : Ready n c files) (ha : ∀ op ∈ ops, op.Admissible) (fs₁ : Fs) :
    ∃ replies fs c', (session ops).run (Disk.handler n) fs₁ c = (.done replies, fs, c') ∧
      replies.length = ops.length ∧ Ready n c' (files.replay (ops.zip replies)) := by
  obtain ⟨fs, c₁, hboot, entries, hm, hst, rfl⟩ := h.boot h5 hn fs₁
  obtain ⟨replies, entries', fs', c', hrun, hl, hm', hfiles, hst'⟩ := hm.steps h5 hn ha
  refine ⟨replies, fs', c', ?_, hl, .inl ?_⟩
  · rw [NanoOs.session, Prog.run_bind_done hboot, hrun]
  · rw [← hfiles]
    exact bootable_of_stored hm'.wellFormed_cache (hst' hst)

end Session

section Process

variable {n : ℕ} {file content : Bytes} {files : FileMap}

/-- Opening the file gives a device of so many sectors with these contents. -/
structure Opens (n : ℕ) (file content : Bytes) : Prop where
  connect : FileDisk.connect file = (deviceInfo n, ⟨content, 0⟩)
  length : 0 < content.length
  sectors : content.length / 512 = n

theorem opens_of_length (hl : 0 < content.length) (hs : content.length / 512 = n) (hn : n < 2 ^ 31)
    (hcontent : content = if file.length = 0 then List.replicate (1024 * 1024) 0 else file) :
    Opens n file content := by
  refine ⟨?_, hl, hs⟩
  have hdiv : (content.length : ℤ) / 512 = n := by omega
  unfold FileDisk.connect
  dsimp only
  rw [← hcontent, hdiv, wrap64_eq (by omega) (by omega)]
  rfl

theorem Opens.again {content' : Bytes} (h : Opens n file content) (hn : n < 2 ^ 31)
    (hl : content'.length = content.length) : Opens n content' content' := by
  have hpos := h.length
  exact opens_of_length (hl ▸ hpos) (hl ▸ h.sectors) hn (by rw [if_neg (by omega)])

theorem Opens.size (h : Opens n file content) : n * 512 ≤ content.length := by
  have := h.sectors
  omega

variable (h5 : 5 ≤ n) (hn : n < 2 ^ 31)

include h5 hn

theorem process_spec (h : Opens n file content) (hr : Ready n (Disk.ofBytes content) files)
    {ops : List FsOp} (ha : ∀ op ∈ ops, op.Admissible) : ∃ replies file',
      process file ops = some (replies, file') ∧ replies.length = ops.length ∧
      Opens n file' file' ∧ Ready n (Disk.ofBytes file') (files.replay (ops.zip replies)) := by
  obtain ⟨replies, fs, c', hrun, hl, hr'⟩ := hr.session h5 hn ha ⟨deviceInfo n, ∅⟩
  obtain ⟨fd', hfile, rfl, hl'⟩ :=
    (FileDisk.block_refines hn h.size).run (s := ⟨content, 0⟩) rfl hrun
  refine ⟨replies, fd'.content, ?_, hl, h.again hn hl', hr'⟩
  rw [process, h.connect]
  dsimp only
  rw [hfile]

theorem processes_spec (h : Opens n file content) (hr : Ready n (Disk.ofBytes content) files)
    {sessions : List (List FsOp)} (ha : ∀ ops ∈ sessions, ∀ op ∈ ops, op.Admissible) :
    ∃ all file' content', processes file sessions = some (all, file') ∧
      List.Forall₂ (fun ops replies => replies.length = ops.length) sessions all ∧
      Opens n file' content' ∧
        Ready n (Disk.ofBytes content') (files.replay (trace sessions all)) := by
  induction sessions generalizing file content files with
  | nil => exact ⟨[], file, content, rfl, .nil, h, hr⟩
  | cons ops sessions ih =>
    obtain ⟨replies, file₁, hone, hl, h₁, hr₁⟩ :=
      process_spec h5 hn h hr (ha ops List.mem_cons_self)
    obtain ⟨all, file', content', hall, hls, h', hr'⟩ :=
      ih h₁ hr₁ fun ops' hops => ha ops' (List.mem_cons_of_mem _ hops)
    refine ⟨replies :: all, file', content', ?_, .cons hl hls, h', ?_⟩
    · rw [processes, hone, Option.bind_eq_bind, Option.bind_some]
      dsimp only
      rw [hall]
      rfl
    · rw [trace, List.zip_cons_cons, List.flatMap_cons, FileMap.replay_append]
      exact hr'

theorem Opens.mapView (h : Opens n file content) (hr : Ready n (Disk.ofBytes content) files)
    (fs₁ : Fs) : ∃ (fs : Fs) (fd : (FileDisk.device n hn).State),
      bootWithDevices.run (FileDisk.block (FileDisk.connect file).1) fs₁
        (FileDisk.connect file).2 = (.done (), fs, fd.1) ∧
      MapView (FileDisk.device n hn) files fs fd := by
  obtain ⟨fs, c', hboot, hrunning⟩ := hr.boot h5 hn fs₁
  obtain ⟨fd, hfile, rfl, hl⟩ :=
    (FileDisk.block_refines hn h.size).run (s := ⟨content, 0⟩) rfl hboot
  obtain ⟨entries, hm, -, rfl⟩ := hrunning
  have hsize := h.size
  refine ⟨fs, ⟨fd, hsize.trans_eq hl.symm⟩, ?_,
    @Mounted.mapView n entries fs h5 hn (FileDisk.device n hn) ⟨fd, hsize.trans_eq hl.symm⟩ hm⟩
  rw [h.connect]
  exact hfile

end Process

/-- **The files outlive the process.** Processes that open the same file one after another, which
was empty or at least not formatted at first, give the replies of one map that lives on. -/
theorem restart_keeps_files {n : ℕ} (hn : n < 2 ^ 31) {file : Bytes}
    (hs : (FileDisk.connect file).2.content.length / 512 = n) (h5 : 5 ≤ n)
    (hnew : (Disk.ofBytes (FileDisk.connect file).2.content).read 0 8 ≠ magicStr)
    (sessions : List (List FsOp)) (ha : ∀ ops ∈ sessions, ∀ op ∈ ops, op.Admissible) :
    ∃ all file', processes file sessions = some (all, file') ∧
      List.Forall₂ (fun ops replies => replies.length = ops.length) sessions all ∧
      ∀ fs₁, ∃ (fs : Fs) (fd : (FileDisk.device n hn).State),
        bootWithDevices.run (FileDisk.block (FileDisk.connect file').1) fs₁
          (FileDisk.connect file').2 = (.done (), fs, fd.1) ∧
        MapView (FileDisk.device n hn)
          (FileMap.replay (fun _ => none) (trace sessions all)) fs fd := by
  have hopens : Opens n file (FileDisk.connect file).2.content :=
    opens_of_length (by omega) hs hn rfl
  obtain ⟨all, file', content', hall, hl, h', hr'⟩ :=
    processes_spec h5 hn hopens (.inr ⟨hnew, rfl⟩) ha
  exact ⟨all, file', hall, hl, h'.mapView h5 hn hr'⟩

/-- A new file, written by one process and deleted from by another. -/
theorem restart_keeps_files_new :
    let sessions : List (List FsOp) :=
      [[.createFile (bytes "a") (bytes "x"), .createFile (bytes "b") []],
        [.deleteFile (bytes "a"), .readFile (bytes "b")]]
    ∃ all file', processes [] sessions = some (all, file') ∧
      List.Forall₂ (fun ops replies => replies.length = ops.length) sessions all ∧
      ∀ fs₁, ∃ (fs : Fs) (fd : (FileDisk.device 2048 (by decide)).State),
        bootWithDevices.run (FileDisk.block (FileDisk.connect file').1) fs₁
          (FileDisk.connect file').2 = (.done (), fs, fd.1) ∧
        MapView (FileDisk.device 2048 (by decide))
          (FileMap.replay (fun _ => none) (trace sessions all)) fs fd := by
  have hcontent : (FileDisk.connect []).2.content = List.replicate (1024 * 1024) 0 := rfl
  refine restart_keeps_files (by decide) ?_ (by decide) ?_ _ ?_
  · rw [hcontent, List.length_replicate]
  · have hzero : ∀ i, Disk.ofBytes (List.replicate (1024 * 1024) 0) i = 0 := by
      intro i
      rw [Disk.ofBytes, List.getD_eq_getElem?_getD, List.getElem?_replicate]
      split_ifs <;> rfl
    rw [hcontent, read_zeros fun i _ _ => hzero i]
    decide
  · simp only [List.forall_mem_cons, FsOp.Admissible]
    refine ⟨⟨⟨by decide, by decide⟩, ⟨by decide, by decide⟩, ?_⟩, ⟨trivial, trivial, ?_⟩, ?_⟩
    · rintro op ⟨⟩
    · rintro op ⟨⟩
    · rintro ops ⟨⟩

end OCamlStudy.NanoOs
