import OCamlStudy.Mirage.BlockAdapter
import OCamlStudy.NanoOs.CrashHistory

/-! # Power cuts of the Mirage build

The driver writes the sectors of a buffer from the first one on. So a directory
write that is cut short keeps its header if it keeps anything, and a machine that
fails at any hypercall of a write boots again with the old files or the new one.
-/

namespace OCamlStudy.Mirage

open OCaml Program NanoOs

open Solo5 (Covers Serves hypercalls)

section Cut

variable {c : Disk} {buf : Bytes} {k pos : ℕ}

theorem write_take_torn (c : Disk) (buf : Bytes) (k : ℕ) :
    c.write 0 (buf.take (512 * k)) = c.torn (c.write 0 buf) fun i => decide (i < k) := by
  funext i
  simp only [Disk.torn, Disk.write, Nat.zero_le, true_and, Nat.zero_add, Nat.sub_zero,
    List.length_take, decide_eq_true_eq]
  by_cases hk : i / 512 < k
  · rw [if_pos hk]
    by_cases hi : i < buf.length
    · rw [if_pos (by omega), if_pos hi, List.getD_eq_getElem?_getD, List.getD_eq_getElem?_getD,
        List.getElem?_take_of_lt (by omega)]
    · rw [if_neg (by omega), if_neg hi]
  · rw [if_neg hk, if_neg (by omega)]

theorem torn_all {old new : Disk} {keep : ℕ → Bool} (h : ∀ i, keep i = true) :
    old.torn new keep = new := by
  funext i
  rw [Disk.torn, if_pos (h _)]

theorem write_take_overwritten (c : Disk) (pos : ℕ) (buf : Bytes) (k : ℕ) :
    c.write pos (buf.take k) = c.overwritten pos buf.length (c.write pos (buf.take k)) := by
  funext i
  rw [Disk.overwritten]
  split_ifs with hi
  · rfl
  · refine Disk.write_apply_outside ?_
    rw [List.length_take]
    omega

end Cut

section Call

variable {n : ℕ} {solo5 : Handler Exn Solo5.Hypercall Solo5.Hypercall.Reply Disk}
  {r : Option Solo5.Result} {entries : List Entry} {fs : Fs} {c : Disk}
  {files : FileMap} {filename data : Bytes} {left : ℕ}

/-- The directory write begins. -/
def Reached (data : Bytes) (left : ℕ) : Prop := 5 + hypercalls (dataBlock data).length < left

instance (data : Bytes) (left : ℕ) : Decidable (Reached data left) :=
  inferInstanceAs (Decidable (_ < _))

def Leaves (n : ℕ) (solo5 : Handler Exn Solo5.Hypercall Solo5.Hypercall.Reply Disk)
    (x : FsProg (Except FsError Unit)) (r : Option Solo5.Result) (fs : Fs) (c : Disk) (left : ℕ)
    (P : Disk → Prop) : Prop :=
  ∃ o fs' c' left', x.run (machine n solo5 r) fs (c, some left) = (o, fs', (c', left')) ∧ P c'

theorem leaves_of_read
    (h : machine n solo5 r (.read 0 2560) (c, some left) = (failed r, (c, some 0)))
    {P : Disk → Prop} (hP : P c) : Leaves n solo5 (writeFile filename data) r fs c left P := by
  have hload : ∃ o, loadEntries.run (machine n solo5 r) fs (c, some left) = (o, fs, (c, some 0)) ∧
      (o = .stopped ∨ ∃ e, o = .done (.error e)) := by
    rw [loadEntries_eq]
    cases r with
    | none =>
      rw [failed] at h
      exact ⟨_, Prog.run_bind_stopped (Prog.run_perform_stopped h) _, .inl rfl⟩
    | some r =>
      rw [failed] at h
      exact ⟨_, Prog.run_bind_done (Block.run_read h) _, .inr ⟨_, rfl⟩⟩
  obtain ⟨o, hload, rfl | ⟨e, rfl⟩⟩ := hload
  · exact ⟨_, _, c, _, Prog.run_bind_stopped hload _, hP⟩
  · exact ⟨_, _, c, _, Prog.run_bind_done hload _, hP⟩

theorem leaves_of_data {c' : Disk} {nextFree : ℤ} {s : Option ℕ}
    (h : machine n solo5 r (.write nextFree (dataBlock data)) (c, some left) = (failed r, (c', s)))
    {P : Disk → Prop} (hP : P c') :
    Leaves n solo5 (storeFile entries nextFree filename data) r fs c left P := by
  rw [Leaves, storeFile]
  cases r with
  | none =>
    rw [failed] at h
    rw [Prog.run_bind_stopped (Block.run_write_stopped h)]
    exact ⟨_, _, _, _, rfl, hP⟩
  | some r =>
    rw [failed] at h
    rw [Prog.run_bind_done (Block.run_write h)]
    exact ⟨_, _, _, _, rfl, hP⟩

theorem leaves_of_directory {c' : Disk} {nextFree : ℤ} {s : Option ℕ}
    (hl : entries.length ≤ maxFiles)
    (h : machine n solo5 r (.write 0 (layout entries nextFree)) (c, some left) =
      (failed r, (c', s)))
    {P : Disk → Prop} (hP : P c') :
    Leaves n solo5 (writeSuperblock entries nextFree) r fs c left P := by
  rw [Leaves]
  cases r with
  | none =>
    rw [failed] at h
    rw [run_writeSuperblock_stopped hl h]
    exact ⟨_, _, _, _, rfl, hP⟩
  | some r =>
    rw [failed] at h
    rw [run_writeSuperblock_error hl h]
    exact ⟨_, _, _, _, rfl, hP⟩

section Boot

variable (hs : Serves n solo5) (h5 : 5 ≤ n) (hn : n < 2 ^ 31)

include hs h5 hn

omit hs in
theorem inRange_directory {len : ℕ} (h : len = 2560) : Disk.InRange n 0 len := ⟨le_rfl, by omega⟩

/-- The directory is written from its header on, as far as the hypercalls last. -/
theorem leaves_writeSuperblock (hm : Mounted n entries fs c) (hst : Stored entries c)
    (hw : WellFormed fs (replaceEntry entries (newEntry entries filename data))) (nf : ℤ) :
    Leaves n solo5 (writeSuperblock (replaceEntry entries (newEntry entries filename data)) nf) r fs
      (c.write ((nextFree entries).toNat * 512) (dataBlock data)) left
      (Interrupted n (fileMap entries c) filename data (0 < left)) := by
  generalize hc₁ : c.write ((nextFree entries).toNat * 512) (dataBlock data) = c₁
  have hlen := layout_length hw.length_le nf
  have hrange : Disk.InRange n 0
      (layout (replaceEntry entries (newEntry entries filename data)) nf).length := by
    rw [hlen]
    exact ⟨le_rfl, by omega⟩
  have hwhole :
      (layout (replaceEntry entries (newEntry entries filename data)) nf).length % 512 = 0 := by
    rw [hlen]
  rcases Nat.lt_or_ge left 5 with hcut | hwritten
  · have hwrite := @machine_write_fails n solo5 r c₁ 0 hs _ hn hrange hwhole left
      (by rw [hlen]; exact hcut)
    refine leaves_of_directory hw.length_le hwrite ?_
    rw [Int.toNat_zero, Nat.zero_mul, write_take_torn]
    rcases Nat.eq_zero_or_pos left with rfl | hpos
    · left
      rw [torn_none fun i => by simp, ← hc₁]
      exact hm.bootable_write hn hst data
    · have hkeep : (fun i => decide (i < left)) 0 = true := decide_eq_true hpos
      exact (hm.interrupted_directory hn hst hw hc₁.symm nf hkeep).mono fun _ => hpos
  · have hcovers : Covers (some left) (hypercalls
        (layout (replaceEntry entries (newEntry entries filename data)) nf).length) := by
      rintro m ⟨⟩
      rw [hlen]
      exact hwritten
    have hwrite := @machine_write n solo5 r c₁ _ 0 hs _ hn hrange hwhole hcovers
    refine ⟨_, _, _, _, run_writeSuperblock hw.length_le hwrite, ?_⟩
    obtain ⟨keep, hkeep⟩ : ∃ keep : ℕ → Bool, ∀ i, keep i = true := ⟨fun _ => true, fun _ => rfl⟩
    have hall := hm.interrupted_directory hn hst hw hc₁.symm nf (hkeep 0)
    rw [torn_all hkeep] at hall
    exact hall.mono fun _ => by omega

theorem leaves_writeFile (hm : Mounted n entries fs c) (hst : Stored entries c)
    (hname : GoodName filename) (hdata : data.length < 2 ^ 31) :
    Leaves n solo5 (writeFile filename data) r fs c left
      (Interrupted n (fileMap entries c) filename data (Reached data left)) := by
  have hsame : Bootable n c (fileMap entries c) := bootable_of_stored hm.wellFormed_cache hst
  rcases Nat.lt_or_ge left 5 with hcut | hread
  · have hfails := @machine_read_fails n solo5 r c 0 hs 2560 hn (inRange_directory h5 hn rfl) rfl
      left hcut
    exact leaves_of_read hfails (.inl hsame)
  have hcovers : Covers (some left) (hypercalls 2560) := by
    rintro m ⟨⟩
    exact hread
  have hsuper := @machine_read n solo5 r c _ 0 hs 2560 hn (inRange_directory h5 hn rfl) rfl hcovers
  obtain ⟨dirty, hload⟩ := hm.run_loadEntries_of h5 hn hsuper
  by_cases hr : Refused fs entries (nextFree entries) filename data
  · have hrun := @NanoOs.run_writeFile _ _ _ _ _ _ _ _ filename data hload
    rw [if_pos hr] at hrun
    exact ⟨_, _, _, _, hrun, .inl hsame⟩
  have hw := hm.replaceEntry_wellFormed hn hname hdata hr
  obtain ⟨hrange, hentry⟩ := hm.inRange_data hn hdata hr
  have hwhole : (dataBlock data).length % 512 = 0 := by
    rw [dataBlock_length]
    exact Nat.mul_mod_left _ _
  have hstore (P : Disk → Prop)
      (h : Leaves n solo5 (storeFile entries (nextFree entries) filename data) r fs
      c (left - 5) P) : Leaves n solo5 (writeFile filename data) r fs c left P := by
    obtain ⟨o, fs', c', left', hrun, hP⟩ := h
    refine ⟨o, fs', c', left', ?_, hP⟩
    rw [NanoOs.run_writeFile hload, if_neg hr]
    exact hrun
  apply hstore
  rcases Nat.lt_or_ge (left - 5) (hypercalls (dataBlock data).length) with hcut | hwritten
  · refine leaves_of_data (machine_write_fails hs hn hrange hwhole hcut) (.inl ?_)
    rw [write_take_overwritten]
    exact hm.bootable_data hn hst _ _
  · have hcovers : Covers (some (left - 5)) (hypercalls (dataBlock data).length) := by
      rintro m ⟨⟩
      exact hwritten
    have hwrite := @machine_write n solo5 r c _ _ hs _ hn hrange hwhole hcovers
    obtain ⟨o, fs', c', left', hrun, hleft⟩ :=
      @leaves_writeSuperblock n solo5 r entries fs c filename
      data (left - 5 - hypercalls (dataBlock data).length) hs h5 hn hm hst hw
      (wrap32 (nextFree entries + wrap32 (sectorsForSize data.length)))
    refine ⟨o, fs', c', left', ?_, hleft.mono fun hpos => ?_⟩
    · rw [storeFile, hentry, Prog.run_bind_done (Block.run_write hwrite)]
      exact hrun
    · rw [Reached]
      omega

theorem leaves_call (h : Running n files fs c) (create : Bool) (hname : GoodName filename)
    (hdata : data.length < 2 ^ 31) : Leaves n solo5 (writeCall create filename data) r fs c left
      (Interrupted n files filename data (Reached data left)) := by
  obtain ⟨entries, hm, hst, rfl⟩ := h
  have hwrite := @leaves_writeFile n solo5 r entries fs c filename data left hs h5 hn hm hst
    hname hdata
  cases create with
  | false => exact hwrite
  | true =>
    rw [writeCall, if_pos rfl, Leaves, run_createFile]
    split_ifs
    · exact ⟨_, _, _, _, rfl, .inl (bootable_of_stored hm.wellFormed_cache hst)⟩
    · exact hwrite

end Boot

end Call

/-- The unikernel, whose hypercalls may fail from some point of a call on. -/
def unikernel (n : ℕ) (solo5 : Handler Exn Solo5.Hypercall Solo5.Hypercall.Reply Disk) :
    Machine (ℕ × Option Solo5.Result) where
  run x fs c :=
    match x.run (machine n solo5 none) fs (c, none) with
    | (.done a, fs, (c, _)) => some (a, fs, c)
    | _ => none
  interrupt create filename content cut fs c :=
    match (writeCall create filename content).run (machine n solo5 cut.2) fs (c, some cut.1) with
    | (_, fs, (c, _)) => (fs, c, Reached content cut.1)

section History

variable {n : ℕ} {solo5 : Handler Exn Solo5.Hypercall Solo5.Hypercall.Reply Disk}
  (hs : Serves n solo5)

include hs

/-- The unikernel agrees with the reference wherever no hypercall fails. -/
theorem run_machine {α : Type} {x : FsProg α} (hn : n < 2 ^ 31)
    (hx : x.Within NanoOs.Block.Op.WholeSectors) {fs fs' : Fs} {c c' : Disk} {a : α}
    (h : x.run (Disk.handler n) fs c = (.done a, fs', c')) :
    x.run (machine n solo5 none) fs (c, none) = (.done a, fs', (c', none)) :=
  (simulates_machine hs hn).run hx h

theorem unikernel_sound (h5 : 5 ≤ n) (hn : n < 2 ^ 31) :
    (unikernel n solo5).Sound n fun _ => True where
  run hx hrun := by
    rw [unikernel]
    dsimp only
    rw [run_machine hs hn hx hrun]
  interrupt {files fs c filename content cut} create h hname hdata _ := by
    obtain ⟨o, fs', c', left', hrun, hleft⟩ :=
      @leaves_call n solo5 cut.2 fs c files filename content
      cut.1 hs h5 hn h create hname hdata
    refine ⟨fs', c', Reached content cut.1, ?_, hleft.mono decide_eq_true⟩
    rw [unikernel]
    dsimp only
    rw [hrun]

end History

/-- Solo5 with a block device in memory, which takes single blocks only. -/
def Solo5.inMemory (n : ℕ) : Handler Exn Solo5.Hypercall Solo5.Hypercall.Reply Disk
  | .blockRead offset size, c =>
    if 0 ≤ offset ∧ Solo5.Whole n offset.toNat size then (.done (.ok (c.read offset.toNat size)), c)
    else (.done (.error .einval), c)
  | .blockWrite offset buf, c =>
    if 0 ≤ offset ∧ Solo5.Whole n offset.toNat buf.length then
      (.done (.ok ()), c.write offset.toNat buf)
    else (.done (.error .einval), c)

theorem Solo5.inMemory_serves (n : ℕ) : Serves n (Solo5.inMemory n) where
  blockRead _ _ _ h := if_pos ⟨Int.natCast_nonneg _, h⟩
  blockWrite _ _ _ h := if_pos ⟨Int.natCast_nonneg _, h⟩

end OCamlStudy.Mirage
