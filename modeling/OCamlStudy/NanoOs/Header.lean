import OCamlStudy.NanoOs.MapView
import OCamlStudy.Program.Sequence

/-! # The header that the file system writes

A mount repairs a superblock whose next free sector is not the highest end of its
files. Formatting and writing a file leave the right one. Deleting a file keeps
the one that was there before, and so leaves a dirty superblock exactly when the
file was the only one that ended highest.
-/

namespace OCamlStudy.NanoOs

open OCaml Program

def Clean (fs : Fs) (c : Disk) : Prop :=
  ∃ entries nextFree, parseSuperblock fs (c.read 0 2560) = .ok (.ok (entries, nextFree, false))

theorem clean_iff {fs : Fs} {c : Disk} (hm : c.read 0 8 = magicStr) : Clean fs c ↔ Intact fs c := by
  obtain ⟨dirty, hp, hi⟩ := @parseSuperblock_read fs c hm
  rw [← hi]
  constructor
  · rintro ⟨entries, nextFree, h⟩
    rw [hp] at h
    simp only [Except.ok.injEq, Prod.mk.injEq] at h
    exact h.2.2
  · rintro rfl
    exact ⟨_, _, hp⟩

section Layout

variable {n : ℕ} {fs : Fs} {cache : Cache} {c : Disk} {entries : List Entry} {nf : ℤ}

theorem rawNextFree_layout (hb : -2 ^ 31 ≤ nf ∧ nf < 2 ^ 31)
    (h : c.read 0 2560 = layout entries nf) : rawNextFree c = nf := by
  have hc : c.read 12 4 = Cstruct.leBytes32 nf :=
    read_append (p := magicStr ++ Cstruct.leBytes32 (wrap32 entries.length))
      (t := entries.flatMap slotBytes ++ List.replicate (2544 - 64 * entries.length) 0)
      (by rw [h, layout, headerBytes]; simp) rfl rfl
  rw [rawNextFree, hc, Cstruct.wrap32_leNumber hb.1 hb.2]

theorem rawEntries_layout (hw : WellFormed fs entries) (h : c.read 0 2560 = layout entries nf) :
    rawEntries c = entries := by
  have hl : (min (entries.length : ℤ) maxFiles).toNat = entries.length := by
    have := hw.length_le
    omega
  rw [rawEntries, rawCount_layout hw.length_le h, hl,
    map_slotAt hw.entryOk fun _ => slotHolds_layout h]

theorem nextFree_le (h5 : 5 ≤ n) (hn : n < 2 ^ 31)
    (hw : WellFormed ⟨deviceInfo n, cache⟩ entries) : nextFree entries ≤ n :=
  nextFree_le_iff.mpr ⟨by omega, fun _ he => ((hw.entryOk _ he).end_le hn).2.2⟩

theorem intact_layout (h5 : 5 ≤ n) (hn : n < 2 ^ 31)
    (hw : WellFormed ⟨deviceInfo n, cache⟩ entries) (hb : -2 ^ 31 ≤ nf ∧ nf < 2 ^ 31)
    (h : c.read 0 2560 = layout entries nf) :
    Intact ⟨deviceInfo n, cache⟩ c ↔ nf = nextFree entries := by
  have hparsed := parsedEntries_layout hw h
  have hrepaired := repairedNextFree_eq h5 hn hw.entryOk
  constructor
  · intro hi
    have := hi.nextFree
    rwa [rawNextFree_layout hb h, hparsed, hrepaired] at this
  · rintro rfl
    constructor
    · rw [rawCount_layout hw.length_le h]
      exact_mod_cast hw.length_le
    · rw [hparsed, rawEntries_layout hw h]
    · rw [rawNextFree_layout hb h, hparsed, hrepaired]

theorem read_write_layout (hl : entries.length ≤ maxFiles) (nf : ℤ) :
    (c.write 0 (layout entries nf)).read 0 2560 = layout entries nf := by
  have := Disk.read_write_same c 0 (layout entries nf)
  rwa [layout_length hl] at this

end Layout

namespace Entry

def finish (e : Entry) : ℤ := e.start + sectorsForSize e.size

end Entry

/-- The operations that change the directory. -/
inductive Change where
  | format
  | writeFile (filename content : Bytes)
  | createFile (filename content : Bytes)
  | deleteFile (filename : Bytes)

namespace Change

def perform : Change → FsProg (Except FsError Unit)
  | format => NanoOs.format
  | writeFile filename content => NanoOs.writeFile filename content
  | createFile filename content => NanoOs.createFile filename content
  | deleteFile filename => NanoOs.deleteFile filename

def Admissible : Change → Prop
  | writeFile filename content | createFile filename content =>
    GoodName filename ∧ content.length < 2 ^ 31
  | _ => True

/-- The deletion of a file that ends above the directory and above all others. -/
def RemovesHighest (entries : List Entry) : Change → Prop
  | deleteFile filename => ∃ e ∈ entries, e.name = filename ∧ 5 < e.finish ∧
      ∀ e' ∈ entries, e'.name ≠ filename → e'.finish < e.finish
  | _ => False

end Change

theorem nextFree_filter_eq_iff (entries : List Entry) (filename : Bytes) :
    nextFree entries = nextFree (entries.filter (·.name ≠ filename)) ↔
      ¬ Change.RemovesHighest entries (.deleteFile filename) := by
  have hle : nextFree (entries.filter (·.name ≠ filename)) ≤ nextFree entries :=
    nextFree_le_iff.mpr ⟨five_le_nextFree entries,
      fun e he => le_nextFree (List.mem_filter.mp he).1⟩
  constructor
  · rintro heq ⟨e, he, rfl, h5, hothers⟩
    have hlt : nextFree (entries.filter (·.name ≠ e.name)) ≤ e.finish - 1 := by
      refine nextFree_le_iff.mpr ⟨by omega, fun e' he' => ?_⟩
      have hmem := List.mem_filter.mp he'
      have := hothers e' hmem.1 (by simpa using hmem.2)
      exact Int.le_sub_one_of_lt this
    have : e.finish ≤ nextFree entries := le_nextFree he
    omega
  · intro hno
    refine le_antisymm ?_ hle
    refine nextFree_le_iff.mpr ⟨five_le_nextFree _, fun e he => ?_⟩
    by_contra hlt
    rw [not_le] at hlt
    have hname : e.name = filename := by
      by_contra hne
      exact hlt.not_ge (le_nextFree (List.mem_filter.mpr ⟨he, by simpa using hne⟩))
    refine hno ⟨e, he, hname, (five_le_nextFree _).trans_lt hlt, fun e' he' hne => ?_⟩
    exact (le_nextFree (List.mem_filter.mpr ⟨he', by simpa using hne⟩)).trans_lt hlt

/-- A file system after a mount: mounted, or on a disk that was never formatted. -/
def Attached (n : ℕ) (fs : Fs) (c : Disk) : Prop :=
  (∃ entries, Mounted n entries fs c) ∨ (c.read 0 8 ≠ magicStr ∧ fs = ⟨deviceInfo n, ∅⟩)

section Step

variable {n : ℕ} {entries : List Entry} {fs : Fs} {c : Disk}

/-- A superblock that was just written, with the right next free sector or not. -/
theorem clean_written (h5 : 5 ≤ n) (hn : n < 2 ^ 31) {cache : Cache}
    (hw : WellFormed ⟨deviceInfo n, cache⟩ entries) {nf : ℤ} (hnf : 0 ≤ nf ∧ nf ≤ n) (c : Disk) :
    Clean ⟨deviceInfo n, cacheOf entries⟩ (c.write 0 (layout entries nf)) ↔
      nf = nextFree entries := by
  have hread := read_write_layout (c := c) hw.length_le nf
  rw [clean_iff (magic_layout hread)]
  exact intact_layout h5 hn hw.recache (by omega) hread

theorem run_loadEntries_corrupt (fs : Fs) (h5 : 5 ≤ n) (hmagic : c.read 0 8 ≠ magicStr) :
    loadEntries.run (Disk.handler n) fs c = (.done (.error .corruptFilesystem), fs, c) := by
  rw [loadEntries_eq, Prog.run_bind_done (Block.run_read (handler_read_superblock h5)), loaded,
    Prog.run_bind_done Prog.run_read, parseSuperblock_corrupt hmagic]
  rfl

variable (h5 : 5 ≤ n) (hn : n < 2 ^ 31)

include h5 hn

theorem Mounted.writeFile_clean (hm : Mounted n entries fs c) {filename data : Bytes}
    (hname : GoodName filename) (hdata : data.length < 2 ^ 31) : ∃ reply fs' c',
      (writeFile filename data).run (Disk.handler n) fs c = (.done reply, fs', c') ∧
        Attached n fs' c' ∧ (reply = .ok () → Clean fs' c') := by
  by_cases hr : Refused fs entries (nextFree entries) filename data
  · exact ⟨_, _, _, hm.run_writeFile_refused h5 hn hr, .inl ⟨entries, hm⟩, fun h => by cases h⟩
  · obtain ⟨nf, hnf, hrun⟩ := hm.run_writeFile h5 hn hdata hr
    have hw := hm.replaceEntry_wellFormed hn hname hdata hr
    rw [hm.fs_eq] at hw
    refine ⟨_, _, _, hrun, .inl ⟨_, mounted_layout hw nf⟩, fun _ => ?_⟩
    have h5' := five_le_nextFree (replaceEntry entries (newEntry entries filename data))
    have hle := nextFree_le h5 hn hw
    exact (clean_written h5 hn hw (by omega) _).mpr hnf

theorem Mounted.change (hm : Mounted n entries fs c) {op : Change} (ha : op.Admissible) :
    ∃ reply fs' c', op.perform.run (Disk.handler n) fs c = (.done reply, fs', c') ∧
      Attached n fs' c' ∧
      (reply = .ok () → (Clean fs' c' ↔ ¬ op.RemovesHighest entries)) := by
  cases op with
  | format =>
    have hw : WellFormed ⟨deviceInfo n, fs.cache⟩ [] := WellFormed.nil
    have hinfo : fs.info = deviceInfo n := congrArg Fs.info hm.fs_eq
    refine ⟨_, _, _, run_format h5, ?_, fun _ => ?_⟩
    · rw [hinfo]
      exact .inl ⟨[], mounted_layout hw _⟩
    · rw [hinfo]
      refine iff_of_true ((clean_written h5 hn hw ⟨by decide, ?_⟩ c).mpr rfl) not_false
      exact_mod_cast h5
  | writeFile filename data =>
    obtain ⟨reply, fs', c', hrun, hat, hclean⟩ := hm.writeFile_clean h5 hn ha.1 ha.2
    exact ⟨reply, fs', c', hrun, hat, fun h => iff_of_true (hclean h) not_false⟩
  | createFile filename data =>
    have hcreate := run_createFile (Disk.handler n) fs c filename data
    by_cases hmem : filename ∈ fs.cache
    · rw [if_pos hmem] at hcreate
      exact ⟨_, _, _, hcreate, .inl ⟨entries, hm⟩, fun h => by cases h⟩
    · rw [if_neg hmem] at hcreate
      obtain ⟨reply, fs', c', hrun, hat, hclean⟩ := hm.writeFile_clean h5 hn ha.1 ha.2
      exact ⟨reply, fs', c', hcreate.trans hrun, hat, fun h => iff_of_true (hclean h) not_false⟩
  | deleteFile filename =>
    by_cases hmem : filename ∈ entries.map Entry.name
    · have hw : WellFormed ⟨deviceInfo n, (∅ : Cache)⟩ entries := hm.wellFormed_cache
      have hwf := hw.filter (fun e => e.name ≠ filename)
      refine ⟨_, _, _, hm.run_deleteFile h5 hn hmem, .inl ⟨_, mounted_layout hwf _⟩, fun _ => ?_⟩
      have h5' := five_le_nextFree entries
      have hle := nextFree_le h5 hn hw
      rw [clean_written h5 hn hwf (by omega)]
      exact nextFree_filter_eq_iff entries filename
    · exact ⟨_, _, _, hm.run_deleteFile_absent h5 hn hmem, .inl ⟨entries, hm⟩, fun h => by cases h⟩

theorem change_unformatted (hmagic : c.read 0 8 ≠ magicStr) (op : Change) :
    ∃ reply fs' c', op.perform.run (Disk.handler n) ⟨deviceInfo n, ∅⟩ c =
      (.done reply, fs', c') ∧ Attached n fs' c' ∧
      (reply = .ok () → Clean fs' c' ∧ ∀ entries, ¬ op.RemovesHighest entries) := by
  have hload := run_loadEntries_corrupt ⟨deviceInfo n, ∅⟩ h5 hmagic
  have hsame : Attached n ⟨deviceInfo n, ∅⟩ c := .inr ⟨hmagic, rfl⟩
  have hwrite (filename data : Bytes) : (writeFile filename data).run (Disk.handler n)
      ⟨deviceInfo n, ∅⟩ c = (.done (.error .corruptFilesystem), ⟨deviceInfo n, ∅⟩, c) := by
    rw [writeFile, Prog.run_bind_done hload]
    rfl
  cases op with
  | format =>
    have hw : WellFormed ⟨deviceInfo n, (∅ : Cache)⟩ [] := WellFormed.nil
    refine ⟨_, _, _, run_format h5, .inl ⟨[], mounted_layout hw _⟩,
      fun _ => ⟨?_, fun _ => not_false⟩⟩
    refine (clean_written h5 hn hw ⟨by decide, ?_⟩ c).mpr rfl
    exact_mod_cast h5
  | writeFile filename data => exact ⟨_, _, _, hwrite filename data, hsame, fun h => by cases h⟩
  | createFile filename data =>
    have hcreate := run_createFile (Disk.handler n) ⟨deviceInfo n, ∅⟩ c filename data
    rw [if_neg (by simp), hwrite] at hcreate
    exact ⟨_, _, _, hcreate, hsame, fun h => by cases h⟩
  | deleteFile filename =>
    have hdelete : (deleteFile filename).run (Disk.handler n) ⟨deviceInfo n, ∅⟩ c =
        (.done (.error .corruptFilesystem), ⟨deviceInfo n, ∅⟩, c) := by
      rw [deleteFile, Prog.run_bind_done hload]
      rfl
    exact ⟨_, _, _, hdelete, hsame, fun h => by cases h⟩

theorem Attached.change (hat : Attached n fs c) {op : Change} (ha : op.Admissible) :
    ∃ reply fs' c', op.perform.run (Disk.handler n) fs c = (.done reply, fs', c') ∧
      Attached n fs' c' ∧
      (reply = .ok () → (Clean fs' c' ↔ ¬ op.RemovesHighest (parsedEntries fs c))) := by
  rcases hat with ⟨entries, hm⟩ | ⟨hmagic, rfl⟩
  · obtain ⟨reply, fs', c', hrun, hat, hclean⟩ := hm.change h5 hn ha
    exact ⟨reply, fs', c', hrun, hat, hm.parsed ▸ hclean⟩
  · obtain ⟨reply, fs', c', hrun, hat, hclean⟩ := change_unformatted h5 hn hmagic op
    exact ⟨reply, fs', c', hrun, hat, fun h => iff_of_true (hclean h).1 ((hclean h).2 _)⟩

theorem Attached.changes (hat : Attached n fs c) {ops : List Change}
    (ha : ∀ op ∈ ops, op.Admissible) :
    ∃ replies fs' c', (Prog.sequence (ops.map Change.perform)).run (Disk.handler n) fs c =
      (.done replies, fs', c') ∧ Attached n fs' c' := by
  induction ops generalizing fs c with
  | nil => exact ⟨[], fs, c, rfl, hat⟩
  | cons op ops ih =>
    obtain ⟨reply, fs₁, c₁, hrun, hat₁, -⟩ := hat.change h5 hn (ha op List.mem_cons_self)
    obtain ⟨replies, fs₂, c₂, hruns, hat₂⟩ :=
      ih hat₁ fun op' h => ha op' (List.mem_cons_of_mem _ h)
    refine ⟨reply :: replies, fs₂, c₂, ?_, hat₂⟩
    rw [List.map_cons, Prog.sequence, Prog.run_bind_done hrun, Prog.run_bind_done hruns]
    rfl

end Step

/-- The device, with a count of the writes it was asked for. -/
def countWrites {S : Type} (h : BlockHandler S) : BlockHandler (S × ℕ)
  | .getInfo, (s, k) => ((h .getInfo s).1, (h .getInfo s).2, k)
  | .read sector len, (s, k) => ((h (.read sector len) s).1, (h (.read sector len) s).2, k)
  | .write sector buffer, (s, k) =>
    ((h (.write sector buffer) s).1, (h (.write sector buffer) s).2, k + 1)

section Connect

variable {n : ℕ} {fs : Fs} {c : Disk}

theorem five_le_of_connect {repair : Bool} {fs' : Fs} {c' : Disk}
    (h : (connect repair).run (Disk.handler n) fs c = (.done (), fs', c')) : 5 ≤ n := by
  by_contra hlt
  have hread : Disk.handler n (.read 0 2560) c = (.stopped, c) := if_neg (by
    rintro ⟨-, hle⟩
    omega)
  have hstop (m : Fs) : readSuperblock.run (Disk.handler n) m c = (.stopped, m, c) := by
    rw [readSuperblock, show directorySectors * 512 = 2560 from rfl]
    refine Prog.run_bind_stopped ?_ _
    rw [Block.read]
    exact Prog.run_perform_stopped hread
  have hinfo : Disk.handler n .getInfo c = (.done (deviceInfo n), c) := rfl
  rw [connect, Prog.run_bind_done (Block.run_getInfo hinfo),
    Prog.run_bind_done Prog.run_write, Prog.run_bind_stopped (hstop _)] at h
  cases h

theorem run_connect_intact (h5 : 5 ≤ n) (dev : Device n) (repair : Bool) (fs : Fs) {s : dev.State}
    (hmagic : (dev.contents s).read 0 8 = magicStr)
    (hi : Intact ⟨deviceInfo n, ∅⟩ (dev.contents s)) (k : ℕ) :
    ∃ s', (connect repair).run (countWrites dev.handler) fs (s, k) =
      (.done (), ⟨deviceInfo n, cacheOf (parsedEntries ⟨deviceInfo n, ∅⟩ (dev.contents s))⟩,
        (s', k)) := by
  obtain ⟨s₁, hinfo, hc₁⟩ := dev.refines .getInfo s (deviceInfo n) (dev.contents s) rfl
  have hread := handler_read_superblock (n := n) (c := dev.contents s₁) h5
  obtain ⟨s₂, hread, -⟩ := dev.refines _ s₁ _ _ hread
  rw [← hc₁] at hmagic hi ⊢
  have hinfo' : countWrites dev.handler .getInfo (s, k) = (.done (deviceInfo n), (s₁, k)) := by
    rw [countWrites, hinfo]
  have hread' : countWrites dev.handler (.read 0 2560) (s₁, k) =
      (.done (.ok ((dev.contents s₁).read 0 2560)), (s₂, k)) := by
    rw [countWrites, hread]
  obtain ⟨dirty, hdirty, hrun⟩ := run_connect fs repair hinfo' hread' hmagic rfl
  refine ⟨s₂, ?_⟩
  rw [hrun, hdirty.mpr hi, Bool.and_false]
  rfl

theorem attached_connect (h5 : 5 ≤ n) (repair : Bool) (fs : Fs) (c : Disk) :
    ∃ fs' c', (connect repair).run (Disk.handler n) fs c = (.done (), fs', c') ∧
      Attached n fs' c' := by
  by_cases hmagic : c.read 0 8 = magicStr
  · obtain ⟨c', hrun, hm, -⟩ := run_connect_formatted h5 repair fs hmagic rfl
    exact ⟨_, c', hrun, .inl ⟨_, hm⟩⟩
  · exact ⟨_, c, run_connect_unformatted h5 repair hmagic, .inr ⟨hmagic, rfl⟩⟩

end Connect

def fromConnect (repair : Bool) (ops : List Change) : FsProg (List (Except FsError Unit)) := do
  connect repair
  Prog.sequence (ops.map Change.perform)

theorem attached_fromConnect {n : ℕ} (hn : n < 2 ^ 31) {repair : Bool} {fs₀ fs : Fs}
    {c₀ c : Disk} {ops : List Change} {replies : List (Except FsError Unit)}
    (ha : ∀ op ∈ ops, op.Admissible)
    (hrun : (fromConnect repair ops).run (Disk.handler n) fs₀ c₀ = (.done replies, fs, c)) :
    5 ≤ n ∧ Attached n fs c := by
  obtain ⟨u, fs₁, c₁, hconnect, hops⟩ := Prog.run_bind_eq_done hrun
  have h5 := five_le_of_connect hconnect
  obtain ⟨fs₂, c₂, hconnect', hat⟩ := attached_connect h5 repair fs₀ c₀
  cases hconnect.symm.trans hconnect'
  obtain ⟨replies', fs₃, c₃, hops', hat⟩ := hat.changes h5 hn ha
  cases hops.symm.trans hops'
  exact ⟨h5, hat⟩

theorem Attached.info {n : ℕ} {fs : Fs} {c : Disk} (hat : Attached n fs c) :
    fs = ⟨deviceInfo n, fs.cache⟩ := by
  rcases hat with ⟨entries, hm⟩ | ⟨-, rfl⟩
  · rw [hm.fs_eq]
  · rfl

theorem Clean.magic {fs : Fs} {c : Disk} (h : Clean fs c) : c.read 0 8 = magicStr := by
  by_contra hmagic
  obtain ⟨entries, nextFree, h⟩ := h
  rw [parseSuperblock_corrupt hmagic] at h
  cases h

/-- **What the file system writes is clean, except after one kind of deletion.** After any run of
changes from a mount, a successful change leaves a superblock that needs no repair exactly if it
does not delete the one file that ends highest; then a later mount writes nothing. -/
theorem clean_iff_keeps_highest {n : ℕ} (hn : n < 2 ^ 31) (dev : Device n) (repair : Bool)
    {fs₀ fs fs' : Fs} {s₀ s s' : dev.State} {ops : List Change} {op : Change}
    {replies : List (Except FsError Unit)} (ha : ∀ op ∈ ops, op.Admissible) (ha' : op.Admissible)
    (hrun : dev.Completes (fromConnect repair ops) fs₀ s₀ replies fs s)
    (hop : dev.Completes op.perform fs s (.ok ()) fs' s') :
    (Clean fs' (dev.contents s') ↔ ¬ op.RemovesHighest (parsedEntries fs (dev.contents s))) ∧
      (Clean fs' (dev.contents s') → ∀ repair' fs₁, ∃ fs₂ s₂,
        (connect repair').run (countWrites dev.handler) fs₁ (s', 0) =
          (.done (), fs₂, (s₂, 0))) := by
  obtain ⟨h5, hat⟩ := attached_fromConnect hn ha hrun.2
  obtain ⟨reply, fs₁, c₁, hstep, hat', hclean⟩ := hat.change h5 hn ha'
  cases hop.2.symm.trans hstep
  refine ⟨hclean rfl, fun h repair' fs₁ => ?_⟩
  have hi : Intact ⟨deviceInfo n, ∅⟩ (dev.contents s') := by
    have hi := (clean_iff h.magic).mp h
    rw [hat'.info] at hi
    exact ⟨hi.count, hi.entries, hi.nextFree⟩
  obtain ⟨s₂, hrun⟩ := run_connect_intact h5 dev repair' fs₁ h.magic hi 0
  exact ⟨_, s₂, hrun⟩

section OneByte

def blank : Disk := fun _ => 0

def oneByte : Entry := newEntry [] (bytes "a") (bytes "x")

theorem mounted_oneByte : ∃ fs c, (fromConnect true
      [.format, .createFile (bytes "a") (bytes "x")]).run (Disk.handler 64)
        ⟨deviceInfo 0, ∅⟩ blank = (.done [.ok (), .ok ()], fs, c) ∧
      Mounted 64 [oneByte] fs c := by
  have hconnect : (connect true).run (Disk.handler 64) ⟨deviceInfo 0, ∅⟩ blank =
      (.done (), ⟨deviceInfo 64, ∅⟩, blank) :=
    run_connect_unformatted (by decide) true (by decide)
  have hempty : WellFormed ⟨deviceInfo 64, (∅ : Cache)⟩ [] := WellFormed.nil
  have hm : Mounted 64 [] ⟨deviceInfo 64, cacheOf []⟩
      (blank.write 0 (layout [] directorySectors)) :=
    mounted_layout hempty _
  have hname : GoodName (bytes "a") := by decide
  have hr : ¬ Refused ⟨deviceInfo 64, cacheOf []⟩ [] (nextFree []) (bytes "a") (bytes "x") := by
    rw [hm.refused_iff (by decide)]
    decide
  obtain ⟨nf, -, hwrite⟩ := hm.run_writeFile (by decide) (by decide) (by decide) hr
  have hcreate := run_createFile (Disk.handler 64) ⟨deviceInfo 64, cacheOf []⟩
    (blank.write 0 (layout [] directorySectors)) (bytes "a") (bytes "x")
  rw [if_neg (by decide), hwrite] at hcreate
  have hnone : (Prog.sequence ([] : List (FsProg (Except FsError Unit)))).run (Disk.handler 64)
      ⟨deviceInfo 64, ∅⟩ blank = (.done [], ⟨deviceInfo 64, ∅⟩, blank) := rfl
  have hall := Prog.run_sequence_concat (Prog.run_sequence_concat hnone (run_format (by decide)))
    hcreate
  exact ⟨_, _, (Prog.run_bind_done hconnect _).trans hall,
    mounted_layout (hm.replaceEntry_wellFormed (by decide) hname (by decide) hr) nf⟩

theorem removes_oneByte : Change.RemovesHighest [oneByte] (.deleteFile (bytes "a")) :=
  ⟨oneByte, List.mem_singleton_self _, rfl, by decide, by decide⟩

theorem run_delete_oneByte {fs : Fs} {c : Disk} (hm : Mounted 64 [oneByte] fs c) : ∃ fs' c',
    (deleteFile (bytes "a")).run (Disk.handler 64) fs c = (.done (.ok ()), fs', c') ∧
      ¬ Clean fs' c' := by
  have hname : bytes "a" ∈ [oneByte].map Entry.name := List.mem_singleton_self _
  have hdelete := hm.run_deleteFile (by decide) (by decide) hname
  obtain ⟨reply, fs', c', hrun, -, hclean⟩ := hm.change (by decide) (by decide)
    (show (Change.deleteFile (bytes "a")).Admissible from trivial)
  obtain rfl : reply = .ok () := by
    have := hrun.symm.trans hdelete
    simp only [Prod.mk.injEq, Outcome.done.injEq] at this
    exact this.1
  exact ⟨fs', c', hrun, fun h => (hclean rfl).mp h removes_oneByte⟩

theorem completes_device {n : ℕ} {α : Type} {p : FsProg α} {fs fs' : Fs} {c c' : Disk} {a : α}
    (h : p.run (Disk.handler n) fs c = (.done a, fs', c')) :
    (Disk.device n).Completes p fs c a fs' c' := ⟨h, h⟩

theorem admissible_oneByte : ∀ op ∈ [Change.format, .createFile (bytes "a") (bytes "x")],
    op.Admissible := by
  intro op hop
  rcases List.mem_cons.mp hop with rfl | hop
  · trivial
  · obtain rfl := List.mem_singleton.mp hop
    exact ⟨by decide, by decide⟩

/-- The deletion of the only file. -/
theorem clean_iff_keeps_highest_delete : ∃ fs fs' c c',
    (Disk.device 64).Completes (fromConnect true
      [.format, .createFile (bytes "a") (bytes "x")]) ⟨deviceInfo 0, ∅⟩ blank
        [.ok (), .ok ()] fs c ∧
    (Disk.device 64).Completes (deleteFile (bytes "a")) fs c (.ok ()) fs' c' ∧
    (Clean fs' c' ↔ ¬ Change.RemovesHighest (parsedEntries fs c) (.deleteFile (bytes "a"))) := by
  obtain ⟨fs, c, hrun, hm⟩ := mounted_oneByte
  obtain ⟨fs', c', hdelete, -⟩ := run_delete_oneByte hm
  exact ⟨fs, fs', c, c', completes_device hrun, completes_device hdelete,
    (clean_iff_keeps_highest (by decide) (Disk.device 64) true admissible_oneByte
      (show (Change.deleteFile (bytes "a")).Admissible from trivial) (completes_device hrun)
      (completes_device hdelete)).1⟩

/-- **A deletion can leave a dirty superblock.** -/
theorem deleteFile_leaves_dirty : ¬ ∀ (n : ℕ) (_ : n < 2 ^ 31) (dev : Device n) (repair : Bool)
    (fs₀ fs fs' : Fs) (s₀ s s' : dev.State) (ops : List Change) (op : Change)
    (replies : List (Except FsError Unit)), (∀ op ∈ ops, op.Admissible) → op.Admissible →
      dev.Completes (fromConnect repair ops) fs₀ s₀ replies fs s →
        dev.Completes op.perform fs s (.ok ()) fs' s' → Clean fs' (dev.contents s') := by
  intro hall
  obtain ⟨fs, c, hrun, hm⟩ := mounted_oneByte
  obtain ⟨fs', c', hdelete, hdirty⟩ := run_delete_oneByte hm
  exact hdirty (hall 64 (by decide) (Disk.device 64) true _ fs fs' blank c c' _
    (.deleteFile (bytes "a")) _ admissible_oneByte trivial (completes_device hrun)
    (completes_device hdelete))

end OneByte

end OCamlStudy.NanoOs
