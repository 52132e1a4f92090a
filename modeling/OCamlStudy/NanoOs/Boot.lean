import OCamlStudy.NanoOs.Mirror

/-! # Booting

The boot reads the superblock twice, once to mount and once to decide whether to
format, and takes a read error of either for an ordinary answer. It keeps the
files exactly when both reads succeed or there is no file.
-/

namespace OCamlStudy.NanoOs

open OCaml Program

/-- `boot_with_devices` up to the call of `Kernel.run`, which gets the mounted file system. -/
def bootWithDevices : FsProg Unit := do
  connect true
  let formatted ← isFormatted
  if formatted then return ()
  else
    let _ ← format
    return ()

/-- The disk of `n` sectors whose `k`-th read returns the error that the pattern gives it. -/
def failingReads (n : ℕ) (pattern : ℕ → Option Block.Error) : BlockHandler (Disk × ℕ)
  | .read sectorStart len, (c, k) =>
    match pattern k with
    | some e => (.done (.error e), c, k + 1)
    | none => ((Disk.handler n (.read sectorStart len) c).1, c, k + 1)
  | .getInfo, (c, k) => (.done ⟨n, 512, true⟩, c, k)
  | .write sectorStart buffer, (c, k) =>
    match Disk.handler n (.write sectorStart buffer) c with
    | (o, c) => (o, c, k)

section FailingReads

variable {n : ℕ} {pattern : ℕ → Option Block.Error} {fs : Fs} {c : Disk} {k : ℕ}
  {entries : List Entry}

theorem failingReads_error {e : Block.Error} (h : pattern k = some e) :
    failingReads n pattern (.read 0 2560) (c, k) = (.done (.error e), c, k + 1) := by
  rw [failingReads, h]

theorem failingReads_ok (h5 : 5 ≤ n) (h : pattern k = none) :
    failingReads n pattern (.read 0 2560) (c, k) = (.done (.ok (c.read 0 2560)), c, k + 1) := by
  rw [failingReads, h, handler_read_superblock h5]

theorem failingReads_write (h5 : 5 ≤ n) {b : Bytes} (hb : b.length = 2560) :
    failingReads n pattern (.write 0 b) (c, k) = (.done (.ok ()), c.write 0 b, k) := by
  rw [failingReads, handler_write_superblock h5 hb]

theorem run_format_failingReads (h5 : 5 ≤ n) : format.run (failingReads n pattern) fs (c, k) =
    (.done (.ok ()), { fs with cache := cacheOf [] }, c.write 0 (layout [] directorySectors), k) :=
  run_writeSuperblock (Nat.zero_le _) (failingReads_write h5 (layout_length (Nat.zero_le _) _))

theorem run_connect_failingReads (pattern : ℕ → Option Block.Error) (h5 : 5 ≤ n)
    (h : pattern k = none)
    (hd : OnDisk ⟨deviceInfo n, ∅⟩ c entries) :
    ∃ c', (connect true).run (failingReads n pattern) fs (c, k) =
        (.done (), ⟨deviceInfo n, cacheOf entries⟩, c', k + 1) ∧
      Mounted n entries ⟨deviceInfo n, cacheOf entries⟩ c' := by
  obtain ⟨hmagic, he⟩ := onDisk_iff.mp hd
  have hw : WellFormed ⟨deviceInfo n, ∅⟩ entries := he ▸ parsedEntries_wellFormed
  obtain ⟨dirty, -, hrun⟩ := run_connect (h := failingReads n pattern)
    (s := (c, k)) fs true rfl (failingReads_ok h5 h) hmagic he
  rw [hrun]
  by_cases hdirty : (true && dirty) = true
  · rw [if_pos hdirty, Prog.run_bind_done (run_writeSuperblock hw.length_le
      (failingReads_write h5 (layout_length hw.length_le _)))]
    exact ⟨_, rfl, mounted_layout hw _⟩
  · rw [if_neg hdirty]
    exact ⟨c, rfl, rfl, hmagic, he⟩

theorem run_boot (fs : Fs) {fs₁ : Fs} {c₁ : Disk} {k₁ : ℕ} (h5 : 5 ≤ n)
    (hconnect : (connect true).run (failingReads n pattern) fs (c, k) = (.done (), fs₁, c₁, k₁))
    (hmagic : c₁.read 0 8 = magicStr) :
    bootWithDevices.run (failingReads n pattern) fs (c, k) =
      if pattern k₁ = none then (.done (), fs₁, c₁, k₁ + 1)
      else (.done (), { fs₁ with cache := cacheOf [] }, c₁.write 0 (layout [] directorySectors),
        k₁ + 1) := by
  rw [bootWithDevices, Prog.run_bind_done hconnect]
  cases hp : pattern k₁ with
  | none =>
    rw [Prog.run_bind_done (run_isFormatted (failingReads_ok h5 hp)), hmagic, if_pos (by simp)]
    rfl
  | some e =>
    rw [Prog.run_bind_done (run_isFormatted_error (failingReads_error hp)), if_neg (by simp),
      Prog.run_bind_done (run_format_failingReads h5), if_neg (by simp)]
    rfl

end FailingReads

/-- The directory still holds the entries and the mounted cache equals them. -/
def KeepsFiles (n : ℕ) (entries : List Entry) (fs : Fs) (c : Disk) : Prop :=
  OnDisk ⟨deviceInfo n, ∅⟩ c entries ∧ Caches fs.cache entries

section KeepsFiles

variable {n : ℕ} {entries : List Entry} {fs : Fs} {c : Disk}

theorem Mounted.keepsFiles (hm : Mounted n entries fs c) : KeepsFiles n entries fs c := by
  refine ⟨onDisk_iff.mpr ⟨hm.magic, ?_⟩, ?_⟩
  · rw [← hm.parsed, hm.fs_eq]
    rfl
  · rw [hm.fs_eq]
    exact caches_cacheOf hm.wellFormed.nodup

/-- An empty cache holds the entries only if there are none. -/
theorem caches_empty_iff : Caches (∅ : Cache) entries ↔ entries = [] := by
  constructor
  · intro h
    cases entries with
    | nil => rfl
    | cons e entries =>
      have := h e.name
      rw [List.find?_cons_of_pos (by simp)] at this
      cases this
  · rintro rfl name
    rfl

end KeepsFiles

/-- **A boot keeps the files exactly when both reads of the superblock succeed or there are no
files to lose.** It always reaches the request loop. -/
theorem boot_keeps_files_iff {n : ℕ} (h5 : 5 ≤ n) (pattern : ℕ → Option Block.Error) (fs₀ : Fs)
    {c : Disk} {entries : List Entry} (hd : OnDisk ⟨deviceInfo n, ∅⟩ c entries) :
    ∃ fs c' k, bootWithDevices.run (failingReads n pattern) fs₀ (c, 0) = (.done (), fs, c', k) ∧
      (KeepsFiles n entries fs c' ↔ (pattern 0 = none ∧ pattern 1 = none) ∨ entries = []) := by
  have hlost : ∀ {fs : Fs}, fs.cache = ∅ → ∀ c', (entries = [] → KeepsFiles n [] fs c') →
      (KeepsFiles n entries fs c' ↔ entries = []) := by
    intro fs hcache c' hk
    constructor
    · rintro ⟨_, h⟩
      exact caches_empty_iff.mp (hcache ▸ h)
    · rintro rfl
      exact hk rfl
  have hempty : ∀ c' : Disk, Mounted n [] ⟨deviceInfo n, cacheOf []⟩
      (c'.write 0 (layout [] directorySectors)) :=
    fun c' => mounted_layout (WellFormed.nil : WellFormed ⟨deviceInfo n, ∅⟩ []) _
  cases h0 : pattern 0 with
  | some e =>
    have hrun := run_boot (c := c) fs₀ h5
      (run_connect_error (h := failingReads n pattern) (s := (c, 0)) rfl
        (failingReads_error h0)) (onDisk_iff.mp hd).1
    rw [hrun]
    cases h1 : pattern 1 with
    | none =>
      refine ⟨_, _, _, if_pos rfl, (hlost rfl _ ?_).trans (by simp)⟩
      rintro rfl
      exact ⟨hd, caches_empty_iff.mpr rfl⟩
    | some e' =>
      refine ⟨_, _, _, if_neg (by simp), (hlost rfl _ fun _ => ?_).trans (by simp)⟩
      exact (hempty c).keepsFiles
  | none =>
    obtain ⟨c₁, hconnect, hm⟩ := run_connect_failingReads pattern h5 h0 hd
    rw [run_boot _ h5 hconnect hm.magic]
    cases h1 : pattern 1 with
    | none => exact ⟨_, _, _, if_pos rfl, by simp [hm.keepsFiles]⟩
    | some e' =>
      refine ⟨_, _, _, if_neg (by simp), (hlost rfl _ fun _ => ?_).trans (by simp)⟩
      exact (hempty c₁).keepsFiles

def oneFile : Disk := Disk.write (fun _ => 0) 0 (layout [⟨bytes "a", 5, 0⟩] 5)

theorem oneFile_onDisk : OnDisk ⟨deviceInfo 64, ∅⟩ oneFile [⟨bytes "a", 5, 0⟩] := by
  have hw : WellFormed ⟨deviceInfo 64, ∅⟩ [⟨bytes "a", 5, 0⟩] := by
    refine ⟨by decide, List.nodup_singleton _, fun e he => ?_⟩
    obtain rfl := List.mem_singleton.mp he
    exact ⟨by decide, by decide, by decide, by decide⟩
  exact (mounted_layout hw 5).keepsFiles.1

theorem boot_keeps_files_iff_oneFile : ∃ fs c' k,
    bootWithDevices.run (failingReads 64 fun _ => none) ⟨deviceInfo 0, ∅⟩ (oneFile, 0) =
        (.done (), fs, c', k) ∧
      (KeepsFiles 64 [⟨bytes "a", 5, 0⟩] fs c' ↔
        ((none : Option Block.Error) = none ∧ (none : Option Block.Error) = none) ∨
          ([⟨bytes "a", 5, 0⟩] : List Entry) = []) :=
  boot_keeps_files_iff (by decide) _ _ oneFile_onDisk

/-- The read of `is_formatted` fails, the disk is formatted and the file is lost. -/
theorem boot_loses_file : ∃ fs c' k,
    bootWithDevices.run (failingReads 64 fun k => if k = 1 then some .disconnected else none)
        ⟨deviceInfo 0, ∅⟩ (oneFile, 0) = (.done (), fs, c', k) ∧
      OnDisk ⟨deviceInfo 64, ∅⟩ oneFile [⟨bytes "a", 5, 0⟩] ∧
      ¬ KeepsFiles 64 [⟨bytes "a", 5, 0⟩] fs c' := by
  obtain ⟨c₁, hconnect, hm⟩ := run_connect_failingReads (n := 64) (k := 0)
    (fun k => if k = 1 then some .disconnected else none) (by decide) rfl oneFile_onDisk
  refine ⟨_, _, _, (run_boot _ (by decide) hconnect hm.magic).trans (if_neg (by decide)),
    oneFile_onDisk, ?_⟩
  rintro ⟨_, h⟩
  exact absurd (caches_empty_iff.mp h) (List.cons_ne_nil _ _)

end OCamlStudy.NanoOs
