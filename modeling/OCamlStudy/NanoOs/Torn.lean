import OCamlStudy.NanoOs.Mounted

/-! # Torn directory writes

A directory write that stops may leave each of its five sectors old or new. The
start and the size of a slot lie in one sector, and the slot after the last entry
is zero, so a mount finds either the old entries or the new ones.
-/

namespace OCamlStudy.NanoOs

open OCaml

/-- The sectors that are kept hold the new bytes, the others the old ones. -/
def Disk.torn (old new : Disk) (keep : ℕ → Bool) : Disk := fun i =>
  if keep (i / 512) then new i else old i

section Torn

variable {old new : Disk} {keep : ℕ → Bool} {pos len : ℕ}

theorem torn_read_agree (keep : ℕ → Bool) (h : old.read pos len = new.read pos len) :
    (old.torn new keep).read pos len = old.read pos len := by
  refine Disk.read_congr fun i hl hu => ?_
  have hi : i - pos < len := by omega
  have ho := Disk.read_getElem old pos hi
  have hn := Disk.read_getElem new pos hi
  rw [h, hn, Nat.add_sub_cancel' hl] at ho
  unfold Disk.torn
  split_ifs
  · exact Option.some.inj ho
  · rfl

theorem torn_read_new (h : ∀ i, pos ≤ i → i < pos + len → keep (i / 512) = true) :
    (old.torn new keep).read pos len = new.read pos len :=
  Disk.read_congr fun i hl hu => if_pos (h i hl hu)

theorem torn_read_old (h : ∀ i, pos ≤ i → i < pos + len → keep (i / 512) = false) :
    (old.torn new keep).read pos len = old.read pos len :=
  Disk.read_congr fun i hl hu => if_neg (by simp [h i hl hu])

theorem torn_read_sector {s : ℕ} (h : ∀ i, pos ≤ i → i < pos + len → i / 512 = s) :
    (old.torn new keep).read pos len = if keep s then new.read pos len else old.read pos len := by
  split_ifs with hs
  · exact torn_read_new fun i hl hu => by rwa [h i hl hu]
  · rw [Bool.not_eq_true] at hs
    exact torn_read_old fun i hl hu => by rwa [h i hl hu]

theorem extent_sector {i pos : ℕ} (hl : 72 + i * 64 ≤ pos) (hu : pos < 80 + i * 64) :
    pos / 512 = (72 + i * 64) / 512 := by
  omega

theorem torn_read_extent (old new : Disk) (keep : ℕ → Bool) (i : ℕ) (hl : 72 + i * 64 ≤ pos)
    (hu : pos + len ≤ 80 + i * 64) : (old.torn new keep).read pos len =
      if keep ((72 + i * 64) / 512) then new.read pos len else old.read pos len :=
  torn_read_sector fun _ hj hj' => extent_sector (hl.trans hj) (hj'.trans_le hu)

theorem name_sector {i pos : ℕ} (hl : 16 + i * 64 ≤ pos) (hu : pos < 72 + i * 64) :
    pos / 512 = (16 + i * 64) / 512 ∨ pos / 512 = (72 + i * 64) / 512 := by
  omega

variable {fs : Fs} {entries : List Entry} {e e' : Entry} {i : ℕ}

theorem SlotHolds.torn (ho : SlotHolds old i e) (hn : SlotHolds new i e) :
    SlotHolds (old.torn new keep) i e where
  name := (torn_read_agree keep (ho.name.trans hn.name.symm)).trans ho.name
  start := (torn_read_agree keep (ho.start.trans hn.start.symm)).trans ho.start
  size := (torn_read_agree keep (ho.size.trans hn.size.symm)).trans ho.size

theorem SlotHolds.torn_extent (ho : SlotHolds old i e) (hn : SlotHolds new i e')
    (hname : e'.name = e.name) :
    SlotHolds (old.torn new keep) i (if keep ((72 + i * 64) / 512) then e' else e) := by
  have hagree := (torn_read_agree keep (ho.name.trans (hname ▸ hn.name).symm)).trans ho.name
  split_ifs with h
  · refine ⟨hname ▸ hagree, ?_, ?_⟩
    · rw [torn_read_extent old new keep i (by omega) (by omega), if_pos h, hn.start]
    · rw [torn_read_extent old new keep i (by omega) (by omega), if_pos h, hn.size]
  · refine ⟨hagree, ?_, ?_⟩
    · rw [torn_read_extent old new keep i (by omega) (by omega), if_neg h, ho.start]
    · rw [torn_read_extent old new keep i (by omega) (by omega), if_neg h, ho.size]

theorem slot_torn_zero (fs : Fs)
    (hzero : ∀ pos, 16 + i * 64 ≤ pos → pos < 80 + i * 64 → old pos = 0)
    (hn : SlotHolds new i e) : SlotHolds (old.torn new keep) i e ∨
      validateEntry fs (slotAt (old.torn new keep) i) = false := by
  by_cases hextent : keep ((72 + i * 64) / 512) = true
  · by_cases hfirst : keep ((16 + i * 64) / 512) = true
    · left
      refine ⟨?_, ?_, ?_⟩
      · rw [torn_read_new, hn.name]
        intro pos hl hu
        rcases name_sector hl (by omega) with h | h <;> rwa [h]
      · rw [torn_read_extent old new keep i (by omega) (by omega), if_pos hextent, hn.start]
      · rw [torn_read_extent old new keep i (by omega) (by omega), if_pos hextent, hn.size]
    · right
      -- the first byte of the name is still zero
      have hname : (slotAt (old.torn new keep) i).name = [] := by
        have hbyte : old.torn new keep (16 + i * 64) = 0 := by
          rw [Disk.torn, if_neg hfirst]
          exact hzero _ le_rfl (by omega)
        have hread : (old.torn new keep).read (16 + i * 64) 56 =
            0 :: (old.torn new keep).read (17 + i * 64) 55 := by
          rw [Disk.read, List.range_succ_eq_map, List.map_cons, Nat.add_zero, hbyte, List.map_map]
          refine congrArg _ (List.map_congr_left fun j _ => ?_)
          simp only [Function.comp_apply, Nat.succ_eq_add_one]
          congr 1
          omega
        rw [slotAt, hread]
        rfl
      rw [← Bool.not_eq_true, validateEntry_iff]
      exact fun h => h.1 hname
  · right
    -- the start is still zero
    have hread : (old.torn new keep).read (72 + i * 64) 4 = [0, 0, 0, 0] := by
      rw [torn_read_extent old new keep i (by omega) (by omega), if_neg hextent]
      simp only [Disk.read, List.range_succ, List.range_zero, List.nil_append, List.map_append,
        List.map_cons, List.map_nil]
      rw [hzero _ (by omega) (by omega), hzero _ (by omega) (by omega),
        hzero _ (by omega) (by omega), hzero _ (by omega) (by omega)]
      rfl
    have hstart : (slotAt (old.torn new keep) i).start = 0 := by
      have hzero : wrap32 (Cstruct.leNumber [0, 0, 0, 0]) = 0 := by
        simp [Cstruct.leNumber, wrap32]
      simp only [slotAt, hread, hzero]
    rw [← Bool.not_eq_true, validateEntry_iff, hstart]
    exact fun h => absurd h.2.1.1 (by decide)

variable {nf nf' : ℤ} {entries' : List Entry}

theorem magic_torn (ho : old.read 0 2560 = layout entries nf)
    (hn : new.read 0 2560 = layout entries' nf') :
    (old.torn new keep).read 0 8 = magicStr :=
  (torn_read_agree keep ((magic_layout ho).trans (magic_layout hn).symm)).trans (magic_layout ho)

theorem rawCount_torn (keep : ℕ → Bool) (ho : old.read 0 2560 = layout entries nf)
    (hn : new.read 0 2560 = layout entries' nf') (hl : entries.length ≤ maxFiles)
    (hl' : entries'.length ≤ maxFiles) :
    rawCount (old.torn new keep) = if keep 0 then (entries'.length : ℤ) else entries.length := by
  have hsector : ∀ pos, 8 ≤ pos → pos < 8 + 4 → pos / 512 = 0 := by
    intro pos _ _
    omega
  rw [← rawCount_layout hl' hn, ← rawCount_layout hl ho, rawCount, rawCount, rawCount,
    torn_read_sector hsector]
  split_ifs <;> rfl

/-- The header counts the entries and the slots hold them. -/
structure SlotsHold (entries : List Entry) (c : Disk) : Prop where
  count : rawCount c = entries.length
  slot : ∀ i (hi : i < entries.length), SlotHolds c i entries[i]

/-- The header counts one slot more, which is not valid. -/
structure Dangling (fs : Fs) (entries : List Entry) (c : Disk) : Prop where
  count : rawCount c = (entries.length + 1 : ℕ)
  slot : ∀ i (hi : i < entries.length), SlotHolds c i entries[i]
  invalid : validateEntry fs (slotAt c entries.length) = false

theorem slots_torn_update {p : ℕ} (hp : p < entries.length) (hl : entries.length ≤ maxFiles)
    (hlen : entries'.length = entries.length)
    (hsame : ∀ i (hi : i < entries.length), i ≠ p → entries'.get ⟨i, hlen ▸ hi⟩ = entries[i])
    (hname : (entries'.get ⟨p, hlen ▸ hp⟩).name = entries[p].name)
    (ho : old.read 0 2560 = layout entries nf) (hn : new.read 0 2560 = layout entries' nf') :
    SlotsHold entries (old.torn new keep) ∨ SlotsHold entries' (old.torn new keep) := by
  have hcount : rawCount (old.torn new keep) = entries.length := by
    rw [rawCount_torn keep ho hn hl (hlen ▸ hl), hlen, ite_self]
  have hslot : ∀ i (hi : i < entries.length), SlotHolds (old.torn new keep) i
      (if keep ((72 + p * 64) / 512) then entries'.get ⟨i, hlen ▸ hi⟩ else entries[i]) := by
    intro i hi
    by_cases hip : i = p
    · subst hip
      exact (slotHolds_layout ho hi).torn_extent (slotHolds_layout hn (hlen ▸ hi)) hname
    · rw [hsame i hi hip, ite_self]
      refine (slotHolds_layout ho hi).torn ?_
      have hheld := slotHolds_layout hn (i := i) (hlen ▸ hi)
      have hget : entries'[i] = entries[i] := hsame i hi hip
      rwa [hget] at hheld
  by_cases hk : keep ((72 + p * 64) / 512) = true
  · right
    refine ⟨hcount.trans (by rw [hlen]), fun i hi => ?_⟩
    have := hslot i (hlen ▸ hi)
    rwa [if_pos hk] at this
  · left
    refine ⟨hcount, fun i hi => ?_⟩
    have := hslot i hi
    rwa [if_neg hk] at this

theorem slots_torn_append (fs : Fs) {new' : Entry} (hl' : (entries ++ [new']).length ≤ maxFiles)
    (ho : old.read 0 2560 = layout entries nf)
    (hn : new.read 0 2560 = layout (entries ++ [new']) nf') :
    SlotsHold entries (old.torn new keep) ∨ SlotsHold (entries ++ [new']) (old.torn new keep) ∨
      Dangling fs entries (old.torn new keep) := by
  have hlen : (entries ++ [new']).length = entries.length + 1 := by simp
  have hlt : entries.length + 1 ≤ 32 := hlen ▸ hl'
  have hl : entries.length ≤ maxFiles := (Nat.le_succ _).trans hlt
  have hslot : ∀ i (hi : i < entries.length), SlotHolds (old.torn new keep) i entries[i] := by
    intro i hi
    refine (slotHolds_layout ho hi).torn ?_
    have := slotHolds_layout hn (i := i) (by omega)
    rwa [List.getElem_append_left hi] at this
  have hcount := rawCount_torn keep ho hn hl hl'
  by_cases hk : keep 0 = true
  · right
    rw [if_pos hk, hlen] at hcount
    have hlast := slotHolds_layout hn (i := entries.length) (by omega)
    rw [List.getElem_concat_length rfl] at hlast
    rcases slot_torn_zero fs (fun pos hlo hu =>
      spare_layout hl ho hlo (by omega)) hlast with hh | hinvalid
    · left
      refine ⟨by rw [hcount, hlen], fun i hi => ?_⟩
      rcases Nat.lt_or_ge i entries.length with h | h
      · rw [List.getElem_append_left h]
        exact hslot i h
      · obtain rfl : i = entries.length := by omega
        rwa [List.getElem_concat_length rfl]
    · exact .inr ⟨hcount, hslot, hinvalid⟩
  · rw [if_neg hk] at hcount
    exact .inl ⟨hcount, hslot⟩

/-- A torn directory holds the old entries or the new ones, or counts a slot that is not valid. -/
theorem slots_torn {new' : Entry} (hw : WellFormed fs entries)
    (hw' : WellFormed fs (replaceEntry entries new'))
    (ho : old.read 0 2560 = layout entries nf)
    (hn : new.read 0 2560 = layout (replaceEntry entries new') nf') :
    SlotsHold entries (old.torn new keep) ∨ SlotsHold (replaceEntry entries new')
      (old.torn new keep) ∨
      Dangling fs entries (old.torn new keep) := by
  have hl' := hw'.length_le
  unfold replaceEntry at *
  split_ifs at * with hany
  · obtain ⟨e, he, hename⟩ := List.any_eq_true.mp hany
    obtain ⟨p, hp, rfl⟩ := List.mem_iff_getElem.mp he
    have hename := of_decide_eq_true hename
    refine or_assoc.mp (.inl (slots_torn_update hp hw.length_le (List.length_map _) ?_ ?_ ho hn))
    · intro i hi hne
      rw [List.get_eq_getElem, List.getElem_map, if_neg]
      intro hnew
      have hnames : (entries.map Entry.name).get ⟨i, by simpa using hi⟩ =
          (entries.map Entry.name).get ⟨p, by simpa using hp⟩ := by
        rw [List.get_eq_getElem, List.get_eq_getElem, List.getElem_map, List.getElem_map, hnew,
          hename]
      exact hne (congrArg Fin.val ((hw.nodup.get_inj_iff).mp hnames))
    · rw [List.get_eq_getElem, List.getElem_map, if_pos hename, hename]
  · exact slots_torn_append fs hl' ho hn

theorem Dangling.parsedEntries_eq {c : Disk} (h : Dangling fs entries c)
    (hw : WellFormed fs entries)
    (hlt : entries.length < maxFiles) : parsedEntries fs c = entries := by
  have hmin : (min ((entries.length + 1 : ℕ) : ℤ) maxFiles).toNat = entries.length + 1 := by
    unfold maxFiles at *
    omega
  rw [parsedEntries, h.count, hmin, List.range_succ, List.map_append,
    map_slotAt hw.entryOk h.slot, keepEntries, List.foldl_append, ← keepEntries, hw.keepEntries_eq]
  exact if_neg fun h' => by simp [h.invalid] at h'

theorem Dangling.length_lt (h : Dangling fs entries (old.torn new keep))
    (hl : entries.length ≤ maxFiles) (hl' : entries'.length ≤ maxFiles)
    (ho : old.read 0 2560 = layout entries nf) (hn : new.read 0 2560 = layout entries' nf') :
    entries.length < maxFiles := by
  have hcount := h.count
  rw [rawCount_torn keep ho hn hl hl'] at hcount
  split_ifs at hcount <;> omega

/-- **A torn directory write leaves the old entries or the new ones.** -/
theorem parsedEntries_torn {new' : Entry} (hw : WellFormed fs entries)
    (hw' : WellFormed fs (replaceEntry entries new'))
    (ho : old.read 0 2560 = layout entries nf)
    (hn : new.read 0 2560 = layout (replaceEntry entries new') nf') :
    parsedEntries fs (old.torn new keep) = entries ∨
      parsedEntries fs (old.torn new keep) = replaceEntry entries new' := by
  rcases @slots_torn _ _ keep _ _ _ _ _ hw hw' ho hn with h | h | h
  · exact .inl (parsedEntries_of_slots hw h.count h.slot)
  · exact .inr (parsedEntries_of_slots hw' h.count h.slot)
  · exact .inl (h.parsedEntries_eq hw (h.length_lt hw.length_le hw'.length_le ho hn))

end Torn

end OCamlStudy.NanoOs
