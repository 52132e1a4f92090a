import OCamlStudy.NanoOs.Header

/-! # What a repair leaves

A mount with repair rewrites a dirty superblock, and then the header tells the
truth about the files it has found. A negative number of entries is not dirty:
the mount finds no file, and leaves the number as it is unless the next free
sector is wrong too.
-/

namespace OCamlStudy.NanoOs

open OCaml Program

/-- As many slots as the header counts. -/
def countedEntries (c : Disk) : List Entry := (List.range (rawCount c).toNat).map (slotAt c)

/-- The header and the slots describe the mounted files, in the order they had before. -/
structure Truthful (before : Disk) (fs : Fs) (c : Disk) : Prop where
  count : rawCount c = fs.cache.keys.length
  nextFree : rawNextFree c = highestEnd fs.cache
  files : ∀ e, e ∈ countedEntries c ↔ e ∈ cachedEntries fs.cache
  order : (countedEntries c).Sublist (rawEntries before)

/-- A mount that repairs would ask the device for no write. -/
def WritesNothing {n : ℕ} (dev : Device n) (s : dev.State) : Prop :=
  ∀ fs, ∃ fs' s', (connect true).run (countWrites dev.handler) fs (s, 0) = (.done (), fs', (s', 0))

section Sublist

variable {fs : Fs} {c : Disk}

theorem foldl_keepEntry_sublist (kept slots : List Entry) :
    (slots.foldl (keepEntry fs) kept).Sublist (kept ++ slots) := by
  induction slots generalizing kept with
  | nil => simp
  | cons e slots ih =>
    refine (ih _).trans ?_
    rw [keepEntry]
    split_ifs
    · simp
    · exact (List.sublist_cons_self e slots).append_left kept

theorem keepEntries_sublist (fs : Fs) (slots : List Entry) : (keepEntries fs slots).Sublist slots :=
  foldl_keepEntry_sublist [] slots

theorem parsedEntries_sublist (fs : Fs) (c : Disk) :
    (parsedEntries fs c).Sublist (rawEntries c) := by
  unfold parsedEntries rawEntries
  exact keepEntries_sublist fs _

end Sublist

section Repair

variable {n : ℕ} {fs : Fs} {c : Disk} {entries : List Entry}

theorem truthful_of_entries {before : Disk} (hn : (entries.map Entry.name).Nodup)
    (hcount : rawCount c = entries.length) (hnext : rawNextFree c = nextFree entries)
    (hentries : countedEntries c = entries) (horder : entries.Sublist (rawEntries before)) :
    Truthful before ⟨deviceInfo n, cacheOf entries⟩ c := by
  refine ⟨?_, ?_, fun e => ?_, ?_⟩
  · rw [hcount]
    exact congrArg Nat.cast (length_keys_cacheOf hn).symm
  · rw [hnext]
    exact (highestEnd_cacheOf hn).symm
  · rw [hentries]
    exact (mem_cachedEntries hn).symm
  · rw [hentries]
    exact horder

theorem intact_of_negative (h5 : 5 ≤ n) (hn : n < 2 ^ 31) (hcount : rawCount c < 0) :
    Intact ⟨deviceInfo n, ∅⟩ c ↔ rawNextFree c = 5 := by
  have hraw : rawEntries c = [] := by
    have hzero : (min (rawCount c) maxFiles).toNat = 0 := by omega
    rw [rawEntries, hzero, List.range_zero, List.map_nil]
  have hparsed : parsedEntries ⟨deviceInfo n, ∅⟩ c = [] := by
    have hsub := parsedEntries_sublist ⟨deviceInfo n, ∅⟩ c
    rw [hraw] at hsub
    exact List.sublist_nil.mp hsub
  have hnext : repairedNextFree ⟨deviceInfo n, ∅⟩ [] = 5 := by
    rw [repairedNextFree_eq h5 hn fun e he => absurd he List.not_mem_nil]
    rfl
  constructor
  · intro hi
    rw [hi.nextFree, hparsed, hnext]
  · intro hfive
    refine ⟨?_, ?_, ?_⟩
    · have : (maxFiles : ℤ) = 32 := rfl
      omega
    · rw [hparsed, hraw]
    · rw [hparsed, hnext, hfive]

/-- A mount with repair writes the superblock exactly if it is not intact. -/
theorem run_connect_repair (h5 : 5 ≤ n) (hn : n < 2 ^ 31) (fs : Fs) (hmagic : c.read 0 8 = magicStr)
    (he : parsedEntries ⟨deviceInfo n, ∅⟩ c = entries) : ∃ c',
      (connect true).run (Disk.handler n) fs c = (.done (), ⟨deviceInfo n, cacheOf entries⟩, c') ∧
        ((Intact ⟨deviceInfo n, ∅⟩ c ∧ c' = c) ∨
          (¬ Intact ⟨deviceInfo n, ∅⟩ c ∧ c' = c.write 0 (layout entries (nextFree entries)))) := by
  have hw : WellFormed ⟨deviceInfo n, ∅⟩ entries := he ▸ parsedEntries_wellFormed
  have hinfo : Disk.handler n .getInfo c = (.done (deviceInfo n), c) := rfl
  obtain ⟨dirty, hdirty, hrun⟩ :=
    run_connect fs true hinfo (handler_read_superblock h5) hmagic he
  rw [hrun, Bool.true_and]
  cases dirty with
  | false => exact ⟨c, rfl, .inl ⟨hdirty.mp rfl, rfl⟩⟩
  | true =>
    rw [if_pos rfl, repairedNextFree_eq h5 hn hw.entryOk,
      Prog.run_bind_done (run_writeSuperblock_handler h5 hw.length_le _)]
    exact ⟨_, rfl, .inr ⟨fun hi => absurd (hdirty.mpr hi) (by decide), rfl⟩⟩

theorem truthful_of_intact (h5 : 5 ≤ n) (hn : n < 2 ^ 31) (hi : Intact ⟨deviceInfo n, ∅⟩ c)
    (h0 : 0 ≤ rawCount c) (he : parsedEntries ⟨deviceInfo n, ∅⟩ c = entries) :
    Truthful c ⟨deviceInfo n, cacheOf entries⟩ c := by
  have hw : WellFormed ⟨deviceInfo n, ∅⟩ entries := he ▸ parsedEntries_wellFormed
  have hraw : rawEntries c = entries := by rw [← hi.entries, he]
  have hcounted : countedEntries c = rawEntries c := by
    rw [countedEntries, rawEntries, min_eq_left hi.count]
  have hlength : (rawCount c).toNat = entries.length := by
    rw [← hraw, ← hcounted, countedEntries, List.length_map, List.length_range]
  refine truthful_of_entries hw.nodup (by omega) ?_ (hcounted.trans hraw) ?_
  · rw [hi.nextFree, he, repairedNextFree_eq h5 hn hw.entryOk]
  · rw [hraw]

theorem truthful_written (h5 : 5 ≤ n) (hn : n < 2 ^ 31)
    (he : parsedEntries ⟨deviceInfo n, ∅⟩ c = entries) :
    Truthful c ⟨deviceInfo n, cacheOf entries⟩ (c.write 0 (layout entries (nextFree entries))) := by
  have hw : WellFormed ⟨deviceInfo n, ∅⟩ entries := he ▸ parsedEntries_wellFormed
  have hread := read_write_layout (c := c) hw.length_le (nextFree entries)
  have hcount := rawCount_layout hw.length_le hread
  have hle := nextFree_le h5 hn hw
  have h5' := five_le_nextFree entries
  have hcounted : countedEntries (c.write 0 (layout entries (nextFree entries))) = entries := by
    rw [countedEntries, hcount, Int.toNat_natCast,
      map_slotAt hw.entryOk fun _ => slotHolds_layout hread]
  refine truthful_of_entries hw.nodup hcount (rawNextFree_layout (by omega) hread) hcounted ?_
  rw [← he]
  exact parsedEntries_sublist _ _

/-- **A repair leaves a truthful header, unless it overlooks a negative count.** After a mount with
repair of any image with the right magic, the header and the slots describe the mounted files and
a second repair writes nothing, exactly if not both the count was negative and the next free sector
that of an empty directory. -/
theorem repair_truthful (h5 : 5 ≤ n) (hn : n < 2 ^ 31) (dev : Device n) (fs₀ : Fs) (s₀ : dev.State)
    (hmagic : (dev.contents s₀).read 0 8 = magicStr) :
    ∃ fs s, dev.Completes (connect true) fs₀ s₀ () fs s ∧
      ((Truthful (dev.contents s₀) fs (dev.contents s) ∧ WritesNothing dev s) ↔
        ¬ (rawCount (dev.contents s₀) < 0 ∧ rawNextFree (dev.contents s₀) = 5)) := by
  obtain ⟨c', hrun, hcases⟩ := run_connect_repair h5 hn fs₀ hmagic rfl
  obtain ⟨s, hc, rfl⟩ := dev.completes hrun
  refine ⟨_, s, hc, ?_⟩
  have hw : WellFormed ⟨deviceInfo n, ∅⟩ (parsedEntries ⟨deviceInfo n, ∅⟩ (dev.contents s₀)) :=
    parsedEntries_wellFormed
  rcases hcases with ⟨hi, hsame⟩ | ⟨hno, hwritten⟩
  · have hwrites : WritesNothing dev s := by
      intro fs
      obtain ⟨s', hrun⟩ := run_connect_intact h5 dev true fs (hsame ▸ hmagic) (hsame ▸ hi) 0
      exact ⟨_, s', hrun⟩
    rw [hsame]
    constructor
    · rintro ⟨htruth, -⟩ ⟨hneg, -⟩
      have := htruth.count
      omega
    · intro hno
      refine ⟨truthful_of_intact h5 hn hi ?_ rfl, hwrites⟩
      by_contra hneg
      rw [not_le] at hneg
      exact hno ⟨hneg, (intact_of_negative h5 hn hneg).mp hi⟩
  · have hread := read_write_layout (c := dev.contents s₀) hw.length_le
      (nextFree (parsedEntries ⟨deviceInfo n, ∅⟩ (dev.contents s₀)))
    have hle := nextFree_le h5 hn hw
    have h5' := five_le_nextFree (parsedEntries ⟨deviceInfo n, ∅⟩ (dev.contents s₀))
    rw [← hwritten] at hread
    have hi := (intact_layout h5 hn hw (by omega) hread).mpr rfl
    refine iff_of_true ⟨?_, fun fs => ?_⟩ ?_
    · rw [hwritten]
      exact truthful_written h5 hn rfl
    · obtain ⟨s', hrun⟩ := run_connect_intact h5 dev true fs (magic_layout hread) hi 0
      exact ⟨_, s', hrun⟩
    · rintro ⟨hneg, hfive⟩
      exact hno ((intact_of_negative h5 hn hneg).mpr hfive)

end Repair

section Negative

def negativeCount : Disk := blank.write 0 (magicStr ++ [255, 255, 255, 255] ++ [5, 0, 0, 0])

theorem rawCount_negativeCount : rawCount negativeCount = -1 := by
  have hread : negativeCount.read 8 4 = [255, 255, 255, 255] := by decide
  have hnumber : Cstruct.leNumber [255, 255, 255, 255] = 4294967295 := by decide
  rw [rawCount, hread, hnumber]
  norm_num [wrap32]

theorem rawNextFree_negativeCount : rawNextFree negativeCount = 5 := by
  have hread : negativeCount.read 12 4 = [5, 0, 0, 0] := by decide
  have hnumber : Cstruct.leNumber [5, 0, 0, 0] = 5 := by decide
  rw [rawNextFree, hread, hnumber]
  norm_num [wrap32]

/-- The image of an unformatted directory whose magic alone is right. -/
theorem repair_truthful_magic : ∃ fs s, (Disk.device 64).Completes (connect true) ⟨deviceInfo 0, ∅⟩
      (blank.write 0 magicStr) () fs s ∧
    ((Truthful (blank.write 0 magicStr) fs s ∧ WritesNothing (Disk.device 64) s) ↔
      ¬ (rawCount (blank.write 0 magicStr) < 0 ∧ rawNextFree (blank.write 0 magicStr) = 5)) :=
  repair_truthful (by decide) (by decide) (Disk.device 64) _ _ (Disk.read_write_same _ _ magicStr)

/-- **A negative count survives the repair.** -/
theorem repair_keeps_negative : ¬ ∀ (n : ℕ) (_ : 5 ≤ n) (_ : n < 2 ^ 31) (dev : Device n)
    (fs₀ : Fs) (s₀ : dev.State), (dev.contents s₀).read 0 8 = magicStr →
      ∃ fs s, dev.Completes (connect true) fs₀ s₀ () fs s ∧
        Truthful (dev.contents s₀) fs (dev.contents s) ∧ WritesNothing dev s := by
  intro hall
  obtain ⟨fs, s, ⟨hrun, -⟩, htruth, -⟩ := hall 64 (by decide) (by decide) (Disk.device 64)
    ⟨deviceInfo 0, ∅⟩ negativeCount (by decide)
  obtain ⟨c', hrun', hcases⟩ :=
    run_connect_repair (n := 64) (c := negativeCount) (by decide) (by decide)
    ⟨deviceInfo 0, ∅⟩ (by decide) rfl
  cases hrun.symm.trans hrun'
  have hcount := rawCount_negativeCount
  have hi := (intact_of_negative (n := 64) (by decide) (by decide)
    (hcount ▸ (by decide : (-1 : ℤ) < 0))).mpr rawNextFree_negativeCount
  rcases hcases with ⟨-, rfl⟩ | ⟨hno, -⟩
  · have := htruth.count
    change rawCount negativeCount = _ at this
    omega
  · exact hno hi

end Negative

end OCamlStudy.NanoOs
