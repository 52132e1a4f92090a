import OCamlStudy.NanoOs.Boot
import OCamlStudy.NanoOs.Repair
import OCamlStudy.NanoOs.Crash
import OCamlStudy.NanoOs.WholeSectors

/-! # Histories with crashes

A machine that crashes inside a write boots again and goes on, any number of
times. Its files are always those of the operations that were answered, with each
interrupted write in its place or left out. A torn directory write must not leave
a slot behind that the header does not count: the disk keeps the first sector of
what it keeps.
-/

namespace OCamlStudy.NanoOs

open OCaml Program

/-- A torn directory write that keeps a sector keeps the first one. -/
def Fault.HeaderFirst : Fault → Prop
  | .data _ => True
  | .directory keep => keep 0 = true ∨ ∀ i, keep i = false

/-- What happens to a machine whose writes fail in ways `F`. -/
inductive Incident (F : Type) where
  | op (op : FsOp)
  /-- a write of `write_file` or `create_file` fails, and the machine boots again -/
  | crash (create : Bool) (filename content : Bytes) (fault : F)

/-- What is left of it: a reply, or whether the directory write was reached. -/
inductive Record where
  | replied (op : FsOp) (reply : FsReply)
  | crashed (filename content : Bytes) (reached : Bool)

def Incident.Admissible {F : Type} (ok : F → Prop) : Incident F → Prop
  | op o => o.Admissible
  | crash _ filename content fault => GoodName filename ∧ content.length < 2 ^ 31 ∧ ok fault

def writeCall (create : Bool) (filename content : Bytes) : FsProg (Except FsError Unit) :=
  if create then createFile filename content else writeFile filename content

/-- How programs run on a machine, and what a call leaves when a write of it fails. -/
structure Machine (F : Type) where
  run {α : Type} (x : FsProg α) (fs : Fs) (c : Disk) : Option (α × Fs × Disk)
  interrupt (create : Bool) (filename content : Bytes) (fault : F) (fs : Fs) (c : Disk) :
    Fs × Disk × Bool

namespace Machine

variable {F : Type} (m : Machine F)

def happen (fs : Fs) (c : Disk) : Incident F → Option (Record × Fs × Disk)
  | .op o => (m.run o.perform fs c).map fun (reply, fs, c) => (.replied o reply, fs, c)
  | .crash create filename content fault =>
    match m.interrupt create filename content fault fs c with
    | (fs, c, reached) => (m.run bootWithDevices fs c).map fun (_, fs, c) =>
      (.crashed filename content reached, fs, c)

def history (fs : Fs) (c : Disk) : List (Incident F) → Option (List Record × Fs × Disk)
  | [] => some ([], fs, c)
  | incident :: incidents => do
    let (record, fs, c) ← m.happen fs c incident
    let (records, fs, c) ← history fs c incidents
    return (record :: records, fs, c)

end Machine

/-- The machine of the reference disk, of which one write of a call may fail. -/
def diskMachine (n : ℕ) : Machine (Fault × Option Block.Error) where
  run x fs c :=
    match x.run (Disk.handler n) fs c with
    | (.done a, fs, c) => some (a, fs, c)
    | _ => none
  interrupt create filename content fault fs c :=
    match (writeCall create filename content).run (faulty n fault.1 fault.2) fs (c, 0) with
    | (_, fs, c, k) => (fs, c, k = 2)

/-- The files that a history can have left. -/
def Possible (files : FileMap) : List Record → FileMap → Prop
  | [], files' => files' = files
  | .replied op reply :: records, files' => Possible (files.after op reply) records files'
  | .crashed filename content reached :: records, files' => Possible files records files' ∨
    (reached = true ∧ Possible (Function.update files filename (some content)) records files')

section Directory

variable {entries : List Entry} {c : Disk}

theorem SlotHolds.read {i : ℕ} {e : Entry} (h : SlotHolds c i e) :
    c.read (16 + 64 * i) 64 = slotBytes e := by
  have hname := h.name
  have hstart := h.start
  have hsize := h.size
  rw [mul_comm i 64] at hname hstart hsize
  rw [slotBytes, ← hname, ← hstart, ← hsize]
  rw [show (64 : ℕ) = 56 + (4 + 4) from rfl, Disk.read_append, Disk.read_append, List.append_assoc]
  congr 3 <;> omega

theorem read_slots (hs : ∀ i (hi : i < entries.length), SlotHolds c i entries[i]) (k : ℕ)
    (hk : k ≤ entries.length) : c.read 16 (64 * k) = (entries.take k).flatMap slotBytes := by
  induction k with
  | zero => rfl
  | succ k ih =>
    rw [Nat.mul_succ, Disk.read_append, ih (by omega), (hs k (by omega)).read,
      List.take_add_one, List.flatMap_append, List.getElem?_eq_getElem (by omega)]
    simp

theorem read_zeros {pos len : ℕ} (h : ∀ i, pos ≤ i → i < pos + len → c i = 0) :
    c.read pos len = List.replicate len 0 := by
  rw [List.eq_replicate_iff]
  refine ⟨Disk.read_length, ?_⟩
  intro b hb
  obtain ⟨i, hi, rfl⟩ := List.mem_map.mp hb
  have := List.mem_range.mp hi
  exact h _ (by omega) (by omega)

theorem stored_of_slots (hl : entries.length ≤ maxFiles) (hmagic : c.read 0 8 = magicStr)
    (hs : SlotsHold entries c)
    (hzero : ∀ pos, 16 + entries.length * 64 ≤ pos → pos < 2560 → c pos = 0) :
    Stored entries c := by
  have hle : entries.length ≤ 32 := hl
  refine ⟨rawNextFree c, ?_⟩
  have hsplit : 2560 = 8 + (4 + (4 + (64 * entries.length + (2544 - 64 * entries.length)))) := by
    omega
  have hlen : wrap32 (entries.length : ℤ) = entries.length := wrap32_eq (by omega) (by omega)
  rw [hsplit, Disk.read_append, Disk.read_append, Disk.read_append, Disk.read_append, hmagic]
  have h8 : c.read (0 + 8) 4 = Cstruct.leBytes32 (wrap32 entries.length) := by
    rw [hlen, ← hs.count, rawCount, Cstruct.leBytes32_leNumber Disk.read_length]
  have h12 : c.read (0 + 8 + 4) 4 = Cstruct.leBytes32 (rawNextFree c) := by
    rw [rawNextFree, Cstruct.leBytes32_leNumber Disk.read_length]
  have hslots : c.read (0 + 8 + 4 + 4) (64 * entries.length) = entries.flatMap slotBytes := by
    have := read_slots hs.slot entries.length le_rfl
    rwa [List.take_length] at this
  rw [h8, h12, hslots, read_zeros fun i hi hu => hzero i (by omega) (by omega), layout, headerBytes]
  simp only [List.append_assoc]

theorem torn_zero {old new : Disk} {keep : ℕ → Bool} {pos : ℕ} (ho : old pos = 0)
    (hn : new pos = 0) : old.torn new keep pos = 0 := by
  unfold Disk.torn
  split_ifs
  · exact hn
  · exact ho

theorem torn_none {old new : Disk} {keep : ℕ → Bool} (h : ∀ i, keep i = false) :
    old.torn new keep = old :=
  funext fun i => if_neg (by simp [h])

theorem Dangling.not_intact {fs : Fs} (h : Dangling fs entries c)
    (hlt : entries.length < maxFiles) : ¬ Intact fs c := by
  intro hi
  have hmem : slotAt c entries.length ∈ rawEntries c := by
    rw [rawEntries, h.count]
    exact List.mem_map_of_mem (List.mem_range.mpr (by unfold maxFiles at *; omega))
  rw [← hi.entries] at hmem
  have hvalid := (parsedEntries_wellFormed.entryOk _ hmem).valid
  rw [h.invalid] at hvalid
  cases hvalid

theorem length_le_replaceEntry (entries : List Entry) (new' : Entry) :
    entries.length ≤ (replaceEntry entries new').length := by
  unfold replaceEntry
  split_ifs <;> simp

/-- **A torn directory that a mount leaves as it is is one that was written.** -/
theorem stored_torn {old new : Disk} {keep : ℕ → Bool} {nf nf' : ℤ} {fs : Fs} {new' : Entry}
    (hw : WellFormed fs entries) (hw' : WellFormed fs (replaceEntry entries new'))
    (hkeep : keep 0 = true) (ho : old.read 0 2560 = layout entries nf)
    (hn : new.read 0 2560 = layout (replaceEntry entries new') nf')
    (hi : Intact fs (old.torn new keep)) :
    Stored entries (old.torn new keep) ∨ Stored (replaceEntry entries new')
      (old.torn new keep) := by
  have hlen := length_le_replaceEntry entries new'
  have hmagic : (old.torn new keep).read 0 8 = magicStr := magic_torn ho hn
  have hzero : ∀ pos, 16 + (replaceEntry entries new').length * 64 ≤ pos → pos < 2560 →
      old.torn new keep pos = 0 := fun pos hpos hlt =>
    torn_zero (spare_layout hw.length_le ho (by omega) hlt) (spare_layout hw'.length_le hn hpos hlt)
  have hcount := rawCount_torn keep ho hn hw.length_le hw'.length_le
  rw [if_pos hkeep] at hcount
  rcases @slots_torn _ _ keep _ _ _ _ _ hw hw' ho hn with h | h | h
  · left
    -- the header has the new count, which is the old one
    have hsame : (replaceEntry entries new').length = entries.length := by
      have := h.count
      omega
    exact stored_of_slots hw.length_le hmagic h (hsame ▸ hzero)
  · exact .inr (stored_of_slots hw'.length_le hmagic h hzero)
  · exact absurd hi (h.not_intact (h.length_lt hw.length_le hw'.length_le ho hn))

end Directory

/-- What a boot needs of a disk, and the files that it will find there. -/
structure Bootable (n : ℕ) (c : Disk) (files : FileMap) : Prop extends DiskShows n c files where
  stored : Intact ⟨deviceInfo n, ∅⟩ c → Stored (parsedEntries ⟨deviceInfo n, ∅⟩ c) c

/-- A machine between two incidents. -/
def Running (n : ℕ) (files : FileMap) (fs : Fs) (c : Disk) : Prop :=
  ∃ entries, Mounted n entries fs c ∧ Stored entries c ∧ fileMap entries c = files

section Boot

variable {n : ℕ} {entries : List Entry} {fs : Fs} {c c' : Disk} {files : FileMap}
  {filename data : Bytes} (h5 : 5 ≤ n) (hn : n < 2 ^ 31)

theorem bootable_of_stored (hw : WellFormed ⟨deviceInfo n, ∅⟩ entries) (hst : Stored entries c) :
    Bootable n c (fileMap entries c) := by
  refine ⟨shows_of_stored hw hst, fun _ => ?_⟩
  obtain ⟨nf, hread⟩ := hst
  rw [parsedEntries_layout hw hread]
  exact ⟨nf, hread⟩

theorem mounted_of_parsed (hmagic : c.read 0 8 = magicStr)
    (he : parsedEntries ⟨deviceInfo n, ∅⟩ c = entries) :
    Mounted n entries ⟨deviceInfo n, cacheOf entries⟩ c :=
  ⟨rfl, hmagic, he⟩

include h5

theorem run_isFormatted_magic (fs : Fs) (hmagic : c.read 0 8 = magicStr) :
    isFormatted.run (Disk.handler n) fs c = (.done true, fs, c) := by
  rw [run_isFormatted (handler_read_superblock h5), hmagic]
  simp

include hn

theorem Bootable.boot (h : Bootable n c files) (fs₁ : Fs) : ∃ fs c',
    bootWithDevices.run (Disk.handler n) fs₁ c = (.done (), fs, c') ∧ Running n files fs c' := by
  obtain ⟨⟨hmagic, hfiles⟩, hstored⟩ := h
  generalize he : parsedEntries ⟨deviceInfo n, ∅⟩ c = entries at hfiles hstored
  obtain ⟨c', hrun, hcases⟩ := run_connect_repair h5 hn fs₁ hmagic he
  have hw : WellFormed ⟨deviceInfo n, ∅⟩ entries := he ▸ parsedEntries_wellFormed
  have hrunning : Running n files ⟨deviceInfo n, cacheOf entries⟩ c' := by
    rcases hcases with ⟨hi, rfl⟩ | ⟨-, rfl⟩
    · exact ⟨entries, mounted_of_parsed hmagic he, hstored hi, hfiles⟩
    · have hm := mounted_layout (c := c) hw (nextFree entries)
      refine ⟨entries, hm, stored_layout hw.length_le _, ?_⟩
      rw [← hfiles]
      refine fileMap_congr fun e he => ?_
      exact content_write_directory (layout_length hw.length_le _) (hm.start_ge hn he)
  have hmagic' : c'.read 0 8 = magicStr := by
    obtain ⟨_, hm, -⟩ := hrunning
    exact hm.magic
  refine ⟨_, c', ?_, hrunning⟩
  rw [bootWithDevices, Prog.run_bind_done hrun,
    Prog.run_bind_done (run_isFormatted_magic h5 _ hmagic')]
  rfl

omit hn in
theorem run_boot_unformatted (hmagic : c.read 0 8 ≠ magicStr) (fs₁ : Fs) : ∃ fs c',
    bootWithDevices.run (Disk.handler n) fs₁ c = (.done (), fs, c') ∧
      Running n (fun _ => none) fs c' := by
  have hformatted : isFormatted.run (Disk.handler n) ⟨deviceInfo n, ∅⟩ c =
      (.done false, ⟨deviceInfo n, ∅⟩, c) := by
    rw [run_isFormatted (handler_read_superblock h5), decide_eq_false hmagic]
  have hw : WellFormed ⟨deviceInfo n, (∅ : Cache)⟩ [] := WellFormed.nil
  refine ⟨⟨deviceInfo n, cacheOf []⟩, c.write 0 (layout [] directorySectors), ?_,
    [], mounted_layout hw _, stored_layout (Nat.zero_le _) _, rfl⟩
  rw [bootWithDevices, Prog.run_bind_done (run_connect_unformatted h5 true hmagic),
    Prog.run_bind_done hformatted, if_neg (by simp), Prog.run_bind_done (run_format h5)]
  rfl

/-- What a failed write leaves, with the old files or with the new one among them. -/
def Interrupted (n : ℕ) (files : FileMap) (filename data : Bytes) (reached : Prop) (c : Disk) :
    Prop :=
  Bootable n c files ∨ (reached ∧ Bootable n c (Function.update files filename (some data)))

omit h5 in
theorem Mounted.bootable_data (hm : Mounted n entries fs c) (hst : Stored entries c) (len : ℕ)
    (junk : Disk) :
    Bootable n (c.overwritten ((nextFree entries).toNat * 512) len junk) (fileMap entries c) := by
  obtain ⟨hstored, hfiles⟩ := hm.kept_data hst hn len junk
  rw [← hfiles]
  exact bootable_of_stored hm.wellFormed_cache hstored

omit h5 in
theorem Mounted.bootable_write (hm : Mounted n entries fs c) (hst : Stored entries c)
    (data : Bytes) : Bootable n (c.write ((nextFree entries).toNat * 512) (dataBlock data))
      (fileMap entries c) := by
  have hjunk : c.write ((nextFree entries).toNat * 512) (dataBlock data) =
      c.overwritten ((nextFree entries).toNat * 512) (dataBlock data).length
        fun i => (dataBlock data).getD (i - (nextFree entries).toNat * 512) 0 := rfl
  rw [hjunk]
  exact hm.bootable_data hn hst _ _

omit h5 in
theorem Mounted.interrupted_directory (hm : Mounted n entries fs c) (hst : Stored entries c)
    (hw : WellFormed fs (replaceEntry entries (newEntry entries filename data))) {c₁ : Disk}
    (hc₁ : c₁ = c.write ((nextFree entries).toNat * 512) (dataBlock data)) (nf' : ℤ)
    {keep : ℕ → Bool} (hkeep : keep 0 = true) :
    Interrupted n (fileMap entries c) filename data True (c₁.torn
      (c₁.write 0 (layout (replaceEntry entries (newEntry entries filename data)) nf')) keep) := by
  have hshows := @Mounted.shows_directory _ _ _ _ _ _ _ hm hst hn hw _ hc₁ nf' keep rfl
  obtain ⟨nf, hold⟩ := hc₁ ▸ hst.write_data (dataBlock data)
  obtain ⟨nf'', hnew⟩ := stored_layout (c := c₁) hw.length_le nf'
  have hw₀ : WellFormed ⟨deviceInfo n, ∅⟩ entries := hm.wellFormed_cache
  have hw₁ : WellFormed ⟨deviceInfo n, ∅⟩
      (replaceEntry entries (newEntry entries filename data)) := hm.recache hw
  refine hshows.imp (fun h => ⟨h, fun hi => ?_⟩) (fun h => ⟨trivial, h, fun hi => ?_⟩) <;>
  · rcases stored_torn hw₀ hw₁ hkeep hold hnew hi with ⟨nf, h⟩ | ⟨nf, h⟩
    · exact ⟨nf, by rwa [parsedEntries_layout hw₀ h]⟩
    · exact ⟨nf, by rwa [parsedEntries_layout hw₁ h]⟩

omit h5 hn in
theorem Interrupted.mono {reached reached' : Prop} (h : Interrupted n files filename data reached c)
    (hr : reached → reached') : Interrupted n files filename data reached' c :=
  h.imp_right fun h => ⟨hr h.1, h.2⟩

omit h5 in
theorem Failed.interrupted {fault : Fault} {k : ℕ}
    (h : Failed entries fs c filename data fault k c')
    (hm : Mounted n entries fs c) (hst : Stored entries c) (hfault : fault.HeaderFirst) :
    Interrupted n (fileMap entries c) filename data (k = 2) c' := by
  cases h with
  | refused => exact .inl (bootable_of_stored hm.wellFormed_cache hst)
  | data junk => exact .inl (hm.bootable_data hn hst _ junk)
  | directory keep nf c₁ hc₁ hw =>
    rcases hfault with hkeep | hnone
    · exact (hm.interrupted_directory hn hst hw hc₁ nf hkeep).mono fun _ => rfl
    · left
      rw [torn_none hnone, hc₁]
      exact hm.bootable_write hn hst data

theorem Running.call_interrupted (h : Running n files fs c) (create : Bool)
    (hname : GoodName filename) (hdata : data.length < 2 ^ 31) {fault : Fault}
    (hfault : fault.HeaderFirst) (err : Option Block.Error) : ∃ o fs' c' k,
      (writeCall create filename data).run (faulty n fault err) fs (c, 0) = (o, fs', c', k) ∧
        Interrupted n files filename data (k = 2) c' := by
  obtain ⟨entries, hm, hst, rfl⟩ := h
  obtain ⟨o, fs', c', k, hrun, hfailed⟩ := hm.run_writeFile_faulty h5 hn hname hdata fault err
  have hleft := hfailed.interrupted hn hm hst hfault
  cases create with
  | false => exact ⟨o, fs', c', k, hrun, hleft⟩
  | true =>
    rw [writeCall, if_pos rfl, run_createFile]
    split_ifs
    · exact ⟨_, _, _, _, rfl, .inl (bootable_of_stored hm.wellFormed_cache hst)⟩
    · exact ⟨o, fs', c', k, hrun, hleft⟩

end Boot

/-- The machine does what the reference disk does for whole sectors, and a call that is interrupted
leaves a disk that boots. -/
structure Machine.Sound {F : Type} (m : Machine F) (n : ℕ) (ok : F → Prop) : Prop where
  run : ∀ {α : Type} {x : FsProg α} {fs fs' : Fs} {c c' : Disk} {a : α},
    x.Within Block.Op.WholeSectors → x.run (Disk.handler n) fs c = (.done a, fs', c') →
      m.run x fs c = some (a, fs', c')
  interrupt : ∀ {files : FileMap} {fs : Fs} {c : Disk} {filename content : Bytes} {fault : F}
    (create : Bool), Running n files fs c → GoodName filename → content.length < 2 ^ 31 → ok fault →
      ∃ fs' c' reached, m.interrupt create filename content fault fs c = (fs', c', reached) ∧
        Interrupted n files filename content (reached = true) c'

section History

variable {F : Type} {m : Machine F} {n : ℕ} {ok : F → Prop} {fs : Fs} {c : Disk} {files : FileMap}
  (h5 : 5 ≤ n) (hn : n < 2 ^ 31) (hs : m.Sound n ok)

include h5 hn hs

/-- One incident: the machine runs again, with files that the record allows. -/
theorem Machine.Sound.happen (h : Running n files fs c) {incident : Incident F}
    (ha : incident.Admissible ok) : ∃ record fs' c' files',
      m.happen fs c incident = some (record, fs', c') ∧ Running n files' fs' c' ∧
        ∀ records last, Possible files' records last → Possible files (record :: records) last := by
  cases incident with
  | op o =>
    obtain ⟨entries, hm, hst, rfl⟩ := h
    obtain ⟨reply, entries', fs', c', hrun, hm', hfiles, -, hst'⟩ :=
      @Mounted.step _ _ _ _ h5 hn hm o ha
    refine ⟨.replied o reply, fs', c', _, ?_, ⟨entries', hm', hst' hst, hfiles⟩, fun _ _ hp => hp⟩
    rw [Machine.happen, hs.run o.perform_within hrun]
    rfl
  | crash create filename data fault =>
    obtain ⟨hname, hdata, hfault⟩ := ha
    obtain ⟨fs₁, c₁, reached, hleft, hinterrupted⟩ := hs.interrupt create h hname hdata hfault
    have hboots : ∀ {files'}, Bootable n c₁ files' → ∃ fs' c',
        m.happen fs c (.crash create filename data fault) =
          some (.crashed filename data reached, fs', c') ∧ Running n files' fs' c' := by
      intro files' hboot
      obtain ⟨fs', c', hrun, hr⟩ := hboot.boot h5 hn fs₁
      refine ⟨fs', c', ?_, hr⟩
      rw [Machine.happen, hleft]
      dsimp only
      rw [hs.run bootWithDevices_within hrun]
      rfl
    rcases hinterrupted with hboot | ⟨hreached, hboot⟩
    · obtain ⟨fs', c', hhappen, hr⟩ := hboots hboot
      exact ⟨_, fs', c', files, hhappen, hr, fun _ _ hp => .inl hp⟩
    · obtain ⟨fs', c', hhappen, hr⟩ := hboots hboot
      exact ⟨_, fs', c', _, hhappen, hr, fun _ _ hp => .inr ⟨hreached, hp⟩⟩

theorem Machine.Sound.history (h : Running n files fs c) {incidents : List (Incident F)}
    (ha : ∀ incident ∈ incidents, incident.Admissible ok) : ∃ records fs' c' last,
      m.history fs c incidents = some (records, fs', c') ∧ Running n last fs' c' ∧
        Possible files records last := by
  induction incidents generalizing files fs c with
  | nil => exact ⟨[], fs, c, files, rfl, h, rfl⟩
  | cons incident incidents ih =>
    obtain ⟨record, fs₁, c₁, files₁, hone, hr, hpossible⟩ :=
      hs.happen h5 hn h (ha incident List.mem_cons_self)
    obtain ⟨records, fs', c', last, hall, hr', hp⟩ :=
      ih hr fun incident' hi => ha incident' (List.mem_cons_of_mem _ hi)
    refine ⟨record :: records, fs', c', last, ?_, hr', hpossible records last hp⟩
    rw [Machine.history, hone, Option.bind_eq_bind, Option.bind_some]
    dsimp only
    rw [hall]
    rfl

/-- A machine that boots from a new disk comes up, and again after each incident. -/
theorem Machine.Sound.lifetime (fs₀ : Fs) {c₀ : Disk} (hnew : c₀.read 0 8 ≠ magicStr)
    {incidents : List (Incident F)} (ha : ∀ incident ∈ incidents, incident.Admissible ok) :
    ∃ fs₁ c₁ records fs c files, m.run bootWithDevices fs₀ c₀ = some ((), fs₁, c₁) ∧
      m.history fs₁ c₁ incidents = some (records, fs, c) ∧
      Possible (fun _ => none) records files ∧ MapView (Disk.device n) files fs c := by
  obtain ⟨fs₁, c₁, hboot, hr⟩ := run_boot_unformatted h5 hnew fs₀
  obtain ⟨records, fs, c, files, hall, ⟨entries, hm, -, hfiles⟩, hp⟩ := hs.history h5 hn hr ha
  refine ⟨fs₁, c₁, records, fs, c, files, hs.run bootWithDevices_within hboot, hall, hp, ?_⟩
  rw [← hfiles]
  exact @Mounted.mapView _ _ _ h5 hn (Disk.device n) c hm

end History

theorem diskMachine_sound {n : ℕ} (h5 : 5 ≤ n) (hn : n < 2 ^ 31) :
    (diskMachine n).Sound n fun fault => fault.1.HeaderFirst where
  run _ hrun := by
    rw [diskMachine]
    dsimp only
    rw [hrun]
  interrupt create h hname hdata hfault := by
    obtain ⟨o, fs', c', k, hrun, hleft⟩ :=
      h.call_interrupted h5 hn create hname hdata hfault _
    refine ⟨fs', c', k = 2, ?_, hleft.mono decide_eq_true⟩
    rw [diskMachine]
    dsimp only
    rw [hrun]

/-- **Any number of crashes.** A machine that boots from a new disk and crashes in some of its
writes always comes up again, with the files that its replies allow. -/
theorem crash_history {n : ℕ} (h5 : 5 ≤ n) (hn : n < 2 ^ 31) (fs₀ : Fs) {c₀ : Disk}
    (hnew : c₀.read 0 8 ≠ magicStr) (incidents : List (Incident (Fault × Option Block.Error)))
    (ha : ∀ incident ∈ incidents, incident.Admissible fun fault => fault.1.HeaderFirst) :
    ∃ fs₁ c₁ records fs c files, (diskMachine n).run bootWithDevices fs₀ c₀ = some ((), fs₁, c₁) ∧
      (diskMachine n).history fs₁ c₁ incidents = some (records, fs, c) ∧
      Possible (fun _ => none) records files ∧ MapView (Disk.device n) files fs c :=
  (diskMachine_sound h5 hn).lifetime h5 hn fs₀ hnew ha

/-- Two writes of one file that are interrupted, the first with its slot not yet on the disk. -/
theorem crash_history_twice : ∃ fs₁ c₁ records fs c files,
    (diskMachine 64).run bootWithDevices ⟨deviceInfo 0, ∅⟩ blank = some ((), fs₁, c₁) ∧
      (diskMachine 64).history fs₁ c₁ [.op (.createFile (bytes "a") (bytes "x")),
        .crash true (bytes "b") (bytes "y") (.directory fun i => i == 0, none),
        .crash false (bytes "b") (bytes "z") (.data fun _ => 255, some .disconnected),
        .op (.readFile (bytes "b"))] = some (records, fs, c) ∧
      Possible (fun _ => none) records files ∧ MapView (Disk.device 64) files fs c := by
  refine crash_history (by decide) (by decide) _ (by decide) _ ?_
  simp only [List.forall_mem_cons, Incident.Admissible, FsOp.Admissible, Fault.HeaderFirst]
  refine ⟨⟨by decide, by decide⟩, ⟨by decide, by decide, .inl rfl⟩,
    ⟨by decide, by decide, trivial⟩, trivial, ?_⟩
  rintro incident ⟨⟩

end OCamlStudy.NanoOs
