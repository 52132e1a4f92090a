import OCamlStudy.NanoOs.Fs

/-! # The directory on disk

The superblock as one byte string, and what parsing finds in the first five
sectors of any disk. Parsing a written superblock gives its entries back when
they are valid, have distinct names and fit the slots.
-/

namespace OCamlStudy.NanoOs

open OCaml Program

def slotName (name : Bytes) : Bytes := name.take 56 ++ List.replicate (56 - (name.take 56).length) 0

def slotBytes (entry : Entry) : Bytes :=
  slotName entry.name ++ Cstruct.leBytes32 entry.start ++ Cstruct.leBytes32 entry.size

def headerBytes (count : ℕ) (nextFree : ℤ) : Bytes :=
  magicStr ++ Cstruct.leBytes32 (wrap32 count) ++ Cstruct.leBytes32 nextFree

/-- The contents of a superblock: header, slots, zeros. -/
def layout (entries : List Entry) (nextFree : ℤ) : Bytes :=
  headerBytes entries.length nextFree ++ entries.flatMap slotBytes ++
    List.replicate (2544 - 64 * entries.length) 0

@[simp]
theorem slotName_length (name : Bytes) : (slotName name).length = 56 := by
  simp [slotName]

@[simp]
theorem slotBytes_length (entry : Entry) : (slotBytes entry).length = 64 := by
  simp [slotBytes]

@[simp]
theorem headerBytes_length (count : ℕ) (nextFree : ℤ) :
    (headerBytes count nextFree).length = 16 := by
  simp [headerBytes, magicStr, bytes]

@[simp]
theorem flatMap_slotBytes_length (entries : List Entry) :
    (entries.flatMap slotBytes).length = 64 * entries.length := by
  induction entries with
  | nil => rfl
  | cons e es ih => simp [ih]; ring

@[simp]
theorem layout_length {entries : List Entry} (h : entries.length ≤ maxFiles) (nextFree : ℤ) :
    (layout entries nextFree).length = 2560 := by
  unfold maxFiles at h
  simp [layout]
  omega

section Put

variable {p : Bytes} {k : ℕ}

theorem putEntry_zeros {i : ℕ} (hp : p.length = 16 + i * 64) (hk : 64 ≤ k) (entry : Entry) :
    putEntry (p ++ List.replicate k 0) i entry =
      .ok (p ++ slotBytes entry ++ List.replicate (k - 64) 0) := by
  have hlim : (if entry.name.length > 56 then entry.name.take 56 else entry.name) =
      entry.name.take 56 := by
    split_ifs with h
    · rfl
    · exact (List.take_of_length_le (not_lt.mp h)).symm
  have hname : Cstruct.blit (entry.name.take 56) 0 (List.replicate 56 0) 0
      (entry.name.take 56).length = .ok (slotName entry.name) :=
    Cstruct.blit_zeros (p := []) (k := 56) rfl rfl (List.length_take_le _ _)
  have ho : (p.length : ℤ) = (headerSize + i * entrySize : ℕ) := by rw [hp]; rfl
  have hput : Cstruct.blit (slotName entry.name) 0 (p ++ List.replicate k 0)
      (headerSize + i * entrySize : ℕ) 56 = .ok (p ++ slotName entry.name ++
        List.replicate (k - 56) 0) := by
    have := Cstruct.blit_zeros (x := slotName entry.name) (l := 56) ho.symm (by simp)
      (show _ ≤ k by simp; omega)
    simpa using this
  have hstart : Cstruct.setUint32 (p ++ slotName entry.name ++ List.replicate (k - 56) 0)
      ((headerSize + i * entrySize : ℕ) + 56) entry.start = .ok (p ++ slotName entry.name ++
        Cstruct.leBytes32 entry.start ++ List.replicate (k - 60) 0) := by
    have := Cstruct.blit_zeros (x := Cstruct.leBytes32 entry.start)
      (p := p ++ slotName entry.name) (o := (headerSize + i * entrySize : ℕ) + 56) (l := 4)
      (k := k - 56) (by simp [← ho]) (by simp) (by simp; omega)
    rw [Cstruct.setUint32, this, Cstruct.leBytes32_length, Nat.sub_sub]
  have hsize : Cstruct.setUint32 (p ++ slotName entry.name ++ Cstruct.leBytes32 entry.start ++
      List.replicate (k - 60) 0) ((headerSize + i * entrySize : ℕ) + 60) entry.size =
        .ok (p ++ slotBytes entry ++ List.replicate (k - 64) 0) := by
    have := Cstruct.blit_zeros (x := Cstruct.leBytes32 entry.size)
      (p := p ++ slotName entry.name ++ Cstruct.leBytes32 entry.start)
      (o := (headerSize + i * entrySize : ℕ) + 60) (l := 4)
      (k := k - 60) (by simp [← ho]) (by simp) (by simp; omega)
    rw [Cstruct.setUint32, this, Cstruct.leBytes32_length, Nat.sub_sub, slotBytes]
    simp only [List.append_assoc]
  unfold putEntry
  dsimp only
  rw [hlim, show Cstruct.create 56 = .ok (List.replicate 56 0) from Cstruct.create_natCast 56,
    Raises.ok_bind, hname, Raises.ok_bind, hput, Raises.ok_bind, hstart]
  exact hsize

theorem putEntries_zeros {i : ℕ} {entries : List Entry} (hp : p.length = 16 + i * 64)
    (hk : 64 * entries.length ≤ k) :
    putEntries (p ++ List.replicate k 0) i entries =
      .ok (p ++ entries.flatMap slotBytes ++ List.replicate (k - 64 * entries.length) 0) := by
  induction entries generalizing p i k with
  | nil => simp [putEntries]; rfl
  | cons entry entries ih =>
    rw [List.length_cons] at hk
    have hput := putEntry_zeros hp (show 64 ≤ k by omega) entry
    have hl : (p ++ slotBytes entry).length = 16 + (i + 1) * 64 := by simp [hp]; ring
    rw [putEntries, hput, Raises.ok_bind, ih hl (by omega), Nat.sub_sub, List.flatMap_cons,
      List.length_cons, mul_add, mul_one, add_comm 64]
    simp only [List.append_assoc]

end Put

theorem superblock_eq {entries : List Entry} (h : entries.length ≤ maxFiles) (nextFree : ℤ) :
    superblock entries nextFree = .ok (layout entries nextFree) := by
  have hmagic : Cstruct.blit magicStr 0 (List.replicate 2560 0) 0 8 =
      .ok (magicStr ++ List.replicate 2552 0) :=
    Cstruct.blit_zeros (p := []) (k := 2560) rfl rfl (by simp [magicStr, bytes])
  have hcount : Cstruct.setUint32 (magicStr ++ List.replicate 2552 0) 8 (wrap32 entries.length) =
      .ok (magicStr ++ Cstruct.leBytes32 (wrap32 entries.length) ++ List.replicate 2548 0) :=
    Cstruct.blit_zeros (k := 2552) (by simp [magicStr, bytes]) rfl (by simp)
  have hnext : Cstruct.setUint32 (magicStr ++ Cstruct.leBytes32 (wrap32 entries.length) ++
      List.replicate 2548 0) 12 nextFree =
        .ok (headerBytes entries.length nextFree ++ List.replicate 2544 0) :=
    Cstruct.blit_zeros (k := 2548) (by simp [magicStr, bytes]) rfl (by simp)
  have hput := putEntries_zeros (p := headerBytes entries.length nextFree) (i := 0) (k := 2544)
    (by simp) (show 64 * entries.length ≤ 2544 by unfold maxFiles at h; omega)
  rw [superblock, show Cstruct.create (directorySectors * 512) = .ok (List.replicate 2560 0) from
    Cstruct.create_natCast 2560, Raises.ok_bind, hmagic, Raises.ok_bind, hcount, Raises.ok_bind,
    hnext]
  exact hput

/-- The entry that a slot of the disk holds, valid or not. -/
def slotAt (c : Disk) (i : ℕ) : Entry where
  name := parseName (c.read (16 + i * 64) 56)
  start := wrap32 (Cstruct.leNumber (c.read (72 + i * 64) 4))
  size := wrap32 (Cstruct.leNumber (c.read (76 + i * 64) 4))

def rawCount (c : Disk) : ℤ := wrap32 (Cstruct.leNumber (c.read 8 4))

def keepEntry (fs : Fs) (kept : List Entry) (entry : Entry) : List Entry :=
  if validateEntry fs entry ∧ entry.name ∉ kept.map Entry.name then kept ++ [entry] else kept

/-- The valid entries in their order, the first of each name. -/
def keepEntries (fs : Fs) (entries : List Entry) : List Entry := entries.foldl (keepEntry fs) []

/-- The entries that a mount finds on the disk. -/
def parsedEntries (fs : Fs) (c : Disk) : List Entry :=
  keepEntries fs ((List.range (min (rawCount c) maxFiles).toNat).map (slotAt c))

def rawNextFree (c : Disk) : ℤ := wrap32 (Cstruct.leNumber (c.read 12 4))

/-- The slots that a mount looks at. -/
def rawEntries (c : Disk) : List Entry :=
  (List.range (min (rawCount c) maxFiles).toNat).map (slotAt c)

/-- A superblock that `parse_superblock` does not find dirty. -/
structure Intact (fs : Fs) (c : Disk) : Prop where
  count : rawCount c ≤ maxFiles
  entries : parsedEntries fs c = rawEntries c
  nextFree : rawNextFree c = repairedNextFree fs (parsedEntries fs c)

section Read

variable {fs : Fs} {c : Disk}

theorem sub_read {p l n : ℕ} (h : p + l ≤ n) :
    Cstruct.sub (c.read 0 n) p l = .ok (c.read p l) := by
  rw [Cstruct.sub_natCast (by simpa using h)]
  congr 1
  apply List.ext_getElem?
  intro i
  rcases Nat.lt_or_ge i l with hi | hi
  · rw [List.getElem?_take_of_lt hi, List.getElem?_drop, Disk.read_getElem _ _ (by omega),
      Disk.read_getElem _ _ hi, Nat.zero_add]
  · simp [hi]

theorem getUint32_read {p n : ℕ} (h : p + 4 ≤ n) :
    Cstruct.getUint32 (c.read 0 n) p = .ok (wrap32 (Cstruct.leNumber (c.read p 4))) := by
  have hs := sub_read (c := c) h
  rw [Cstruct.getUint32]
  norm_cast at hs ⊢
  rw [hs]
  rfl

theorem slotEntry_read {i : ℕ} (hi : i < maxFiles) :
    slotEntry (c.read 0 2560) i = .ok (slotAt c i) := by
  unfold maxFiles at hi
  have ho : headerSize + i * entrySize = 16 + i * 64 := rfl
  have hname := sub_read (c := c) (p := 16 + i * 64) (l := 56) (n := 2560) (by omega)
  have hstart := getUint32_read (c := c) (p := 16 + i * 64 + 56) (n := 2560) (by omega)
  have hsize := getUint32_read (c := c) (p := 16 + i * 64 + 60) (n := 2560) (by omega)
  push_cast at hname hstart hsize
  rw [slotEntry, ho]
  push_cast
  rw [hname, Raises.ok_bind, hstart, Raises.ok_bind, hsize, Raises.ok_bind, slotAt,
    show 16 + i * 64 + 56 = 72 + i * 64 by ring,
    show 16 + i * 64 + 60 = 76 + i * 64 by ring]
  rfl

def Scan.Holds (scan : Scan) (kept : List Entry) : Prop :=
  scan.entriesRev.reverse = kept ∧ ∀ name, name ∈ scan.dedupe ↔ name ∈ kept.map Entry.name

theorem keepEntry_eq_concat {kept : List Entry} {entry : Entry} :
    keepEntry fs kept entry = kept ++ [entry] ↔
      validateEntry fs entry = true ∧ entry.name ∉ kept.map Entry.name := by
  unfold keepEntry
  split_ifs with h
  · exact iff_of_true rfl h
  · exact iff_of_false (by simp) h

theorem length_foldl_keepEntry_le (fs : Fs) (kept slots : List Entry) :
    (slots.foldl (keepEntry fs) kept).length ≤ kept.length + slots.length := by
  induction slots generalizing kept with
  | nil => exact le_rfl
  | cons e slots ih =>
    refine (ih _).trans ?_
    rw [keepEntry, List.length_cons]
    split_ifs
    · simp only [List.length_append, List.length_singleton]
      omega
    · omega

theorem foldl_keepEntry_cons {kept slots : List Entry} {e : Entry} :
    (e :: slots).foldl (keepEntry fs) kept = kept ++ e :: slots ↔
      keepEntry fs kept e = kept ++ [e] ∧
        slots.foldl (keepEntry fs) (keepEntry fs kept e) = keepEntry fs kept e ++ slots := by
  rw [List.foldl_cons]
  constructor
  · intro h
    have hkeep : keepEntry fs kept e = kept ++ [e] := by
      by_contra hne
      have hkept : keepEntry fs kept e = kept := by
        unfold keepEntry at hne ⊢
        split_ifs at hne ⊢
        · exact absurd rfl hne
        · rfl
      have hle := length_foldl_keepEntry_le fs (keepEntry fs kept e) slots
      rw [h, hkept] at hle
      simp at hle
    exact ⟨hkeep, by rw [h, hkeep]; simp⟩
  · rintro ⟨hkeep, h⟩
    rw [h, hkeep]
    simp

theorem scanSlot_holds {scan : Scan} {kept : List Entry} (h : scan.Holds kept) {i : ℕ}
    (hi : i < maxFiles) : ∃ scan', scanSlot fs (c.read 0 2560) scan i = .ok scan' ∧
      scan'.Holds (keepEntry fs kept (slotAt c i)) ∧
      (scan'.dirty = false ↔
        scan.dirty = false ∧ keepEntry fs kept (slotAt c i) = kept ++ [slotAt c i]) := by
  rw [scanSlot, slotEntry_read hi, Raises.ok_bind, keepEntry_eq_concat, keepEntry]
  by_cases hv : validateEntry fs (slotAt c i) = true
  · by_cases hn : (slotAt c i).name ∈ scan.dedupe
    · rw [if_pos hv, if_pos hn, if_neg fun hk => hk.2 ((h.2 _).mp hn)]
      exact ⟨_, rfl, h, iff_of_false (by simp) fun hk => hk.2.2 ((h.2 _).mp hn)⟩
    · have hnew : (slotAt c i).name ∉ kept.map Entry.name := fun hk => hn ((h.2 _).mpr hk)
      rw [if_pos hv, if_neg hn, if_pos ⟨hv, hnew⟩]
      refine ⟨_, rfl, ⟨by simp [h.1], fun name => ?_⟩, (and_iff_left ⟨hv, hnew⟩).symm⟩
      simp only [AList.mem_insert, h.2, List.map_append, List.mem_append, List.map_cons,
        List.map_nil, List.mem_singleton]
      exact or_comm
  · rw [if_neg hv, if_neg fun hk => hv hk.1]
    exact ⟨_, rfl, h, iff_of_false (by simp) fun hk => hv hk.2.1⟩

theorem foldlM_scanSlot (fs : Fs) (c : Disk) {scan : Scan} {kept : List Entry}
    (h : scan.Holds kept) {is : List ℕ} (hi : ∀ i ∈ is, i < maxFiles) :
    ∃ scan', is.foldlM (scanSlot fs (c.read 0 2560)) scan = .ok scan' ∧
      scan'.Holds ((is.map (slotAt c)).foldl (keepEntry fs) kept) ∧
      (scan'.dirty = false ↔ scan.dirty = false ∧
        (is.map (slotAt c)).foldl (keepEntry fs) kept = kept ++ is.map (slotAt c)) := by
  induction is generalizing scan kept with
  | nil => exact ⟨scan, rfl, h, by simp⟩
  | cons i is ih =>
    obtain ⟨scan', hs, h', hd⟩ := scanSlot_holds (c := c) h (hi i List.mem_cons_self)
    obtain ⟨scan'', hf, h'', hd'⟩ := ih h' fun j hj => hi j (List.mem_cons_of_mem _ hj)
    refine ⟨scan'', ?_, h'', ?_⟩
    · rw [List.foldlM_cons, hs]
      exact hf
    · rw [List.map_cons, foldl_keepEntry_cons, hd', hd, and_assoc]

theorem magic_read : Cstruct.sub (c.read 0 2560) 0 8 = .ok (c.read 0 8) := by
  exact_mod_cast sub_read (c := c) (by decide)

theorem parseSuperblock_corrupt (h : c.read 0 8 ≠ magicStr) :
    parseSuperblock fs (c.read 0 2560) = .ok (.error .corruptFilesystem) := by
  rw [parseSuperblock, magic_read, Raises.ok_bind, if_pos h]
  rfl

/-- Parsing a superblock with the right magic. -/
theorem parseSuperblock_read (h : c.read 0 8 = magicStr) :
    ∃ dirty, parseSuperblock fs (c.read 0 2560) =
        .ok (.ok (parsedEntries fs c, repairedNextFree fs (parsedEntries fs c), dirty)) ∧
      (dirty = false ↔ Intact fs c) := by
  have hcount := getUint32_read (c := c) (p := 8) (n := 2560) (by simp)
  have hnext := getUint32_read (c := c) (p := 12) (n := 2560) (by simp)
  have hempty : Scan.Holds ⟨∅, [], maxFiles < rawCount c⟩ [] := ⟨rfl, fun name => by simp⟩
  have hslots : ∀ i ∈ List.range (min (rawCount c) maxFiles).toNat, i < maxFiles := by
    intro i hi
    have := List.mem_range.mp hi
    omega
  obtain ⟨scan, hs, hk, hd⟩ := foldlM_scanSlot fs c hempty hslots
  have he : scan.entriesRev.reverse = parsedEntries fs c := hk.1
  have hclean : scan.dirty = false ↔ rawCount c ≤ maxFiles ∧ parsedEntries fs c = rawEntries c := by
    rw [hd, decide_eq_false_iff_not, not_lt, List.nil_append, parsedEntries, keepEntries,
      rawEntries]
  push_cast at hcount hnext
  rw [parseSuperblock, magic_read, Raises.ok_bind, if_neg (not_not_intro h), hcount,
    Raises.ok_bind, hnext, Raises.ok_bind]
  rw [rawCount] at hs
  dsimp only
  rw [hs, Raises.ok_bind, he]
  refine ⟨_, rfl, ?_⟩
  rw [Bool.or_eq_false_iff, hclean, decide_eq_false_iff_not, not_not]
  constructor
  · rintro ⟨⟨hle, hentries⟩, hnextFree⟩
    exact ⟨hle, hentries, hnextFree⟩
  · intro hi
    exact ⟨⟨hi.count, hi.entries⟩, hi.nextFree⟩

theorem parsedEntries_congr {c' : Disk} (h : c'.read 0 2560 = c.read 0 2560)
    (hm : c.read 0 8 = magicStr) :
    c'.read 0 8 = magicStr ∧ parsedEntries fs c' = parsedEntries fs c := by
  have hmagic : c'.read 0 8 = c.read 0 8 := by
    have heq := magic_read (c := c')
    rw [h, magic_read] at heq
    exact (Except.ok.inj heq).symm
  obtain ⟨_, hp, -⟩ := @parseSuperblock_read fs c hm
  obtain ⟨_, hp', -⟩ := @parseSuperblock_read fs c' (hmagic.trans hm)
  rw [h, hp] at hp'
  simp only [Except.ok.injEq, Prod.mk.injEq] at hp'
  exact ⟨hmagic.trans hm, hp'.1.symm⟩

end Read

/-- A name that a slot can hold. -/
structure GoodName (name : Bytes) : Prop where
  ne_nil : name ≠ []
  length_le : name.length ≤ 56
  nul : 0 ∉ name

instance : DecidablePred GoodName := fun name =>
  decidable_of_iff (name ≠ [] ∧ name.length ≤ 56 ∧ 0 ∉ name)
    ⟨fun h => ⟨h.1, h.2.1, h.2.2⟩, fun h => ⟨h.ne_nil, h.length_le, h.nul⟩⟩

/-- A valid entry that survives being written to a slot and read back. -/
structure EntryOk (fs : Fs) (entry : Entry) : Prop where
  valid : validateEntry fs entry = true
  name : GoodName entry.name
  start_lt : entry.start < 2 ^ 31
  size_lt : entry.size < 2 ^ 31

structure WellFormed (fs : Fs) (entries : List Entry) : Prop where
  length_le : entries.length ≤ maxFiles
  nodup : (entries.map Entry.name).Nodup
  entryOk : ∀ entry ∈ entries, EntryOk fs entry

section WellFormed

variable {fs : Fs} {c : Disk} {entries : List Entry}

theorem parseName_nul (rawName : Bytes) : 0 ∉ parseName rawName := by
  unfold parseName
  split
  · rename_i i h
    intro hm
    obtain ⟨j, hj, he⟩ := List.mem_iff_getElem.mp hm
    rw [List.length_take] at hj
    have hn := (List.findIdx?_eq_some_iff_getElem.mp h).2.2 j (by omega)
    rw [List.getElem_take] at he
    simp [he] at hn
  · rename_i h
    exact stringIndexOpt_eq_none.mp h

theorem parseName_length_le (rawName : Bytes) : (parseName rawName).length ≤ rawName.length := by
  unfold parseName
  split
  · simp
  · exact le_rfl

theorem parseName_slotName {name : Bytes} (h : GoodName name) :
    parseName (slotName name) = name := by
  rw [slotName, List.take_of_length_le h.length_le, parseName]
  rcases hk : 56 - name.length with _ | k
  · simp [stringIndexOpt_eq_none.mpr h.nul]
  · rw [List.replicate_succ, stringIndexOpt_append_cons h.nul]
    simp

theorem validateEntry_iff {entry : Entry} : validateEntry fs entry = true ↔
    entry.name ≠ [] ∧ (5 ≤ entry.start ∧ entry.start ≤ wrap63 fs.info.sizeSectors) ∧
      0 ≤ entry.size ∧ entry.start + sectorsForSize entry.size ≤ wrap63 fs.info.sizeSectors := by
  simp only [validateEntry, ne_eq, decide_eq_true_eq]
  rfl

theorem keepEntry_wellFormed {kept : List Entry} {entry : Entry}
    (hk : (kept.map Entry.name).Nodup ∧ ∀ e ∈ kept, EntryOk fs e)
    (he : validateEntry fs entry = true → EntryOk fs entry) :
    ((keepEntry fs kept entry).map Entry.name).Nodup ∧
      ∀ e ∈ keepEntry fs kept entry, EntryOk fs e := by
  unfold keepEntry
  split_ifs with h
  · constructor
    · rw [List.map_append, List.nodup_append]
      refine ⟨hk.1, by simp, ?_⟩
      rintro a ha b hb rfl
      simp only [List.map_cons, List.map_nil, List.mem_singleton] at hb
      exact h.2 (hb ▸ ha)
    · intro e hm
      rcases List.mem_append.mp hm with hm | hm
      · exact hk.2 e hm
      · obtain rfl := List.mem_singleton.mp hm
        exact he h.1
  · exact hk

theorem slotAt_ok {i : ℕ} (h : validateEntry fs (slotAt c i) = true) : EntryOk fs (slotAt c i) where
  valid := h
  name := ⟨(validateEntry_iff.mp h).1, (parseName_length_le _).trans (by simp), parseName_nul _⟩
  start_lt := (Cstruct.wrap32_bounds _).2
  size_lt := (Cstruct.wrap32_bounds _).2

theorem foldl_keepEntry {kept slots : List Entry}
    (hk : (kept.map Entry.name).Nodup ∧ ∀ e ∈ kept, EntryOk fs e)
    (hs : ∀ e ∈ slots, validateEntry fs e = true → EntryOk fs e) :
    ((slots.foldl (keepEntry fs) kept).map Entry.name).Nodup ∧
      ∀ e ∈ slots.foldl (keepEntry fs) kept, EntryOk fs e := by
  induction slots generalizing kept with
  | nil => exact hk
  | cons e slots ih =>
    exact ih (keepEntry_wellFormed hk (hs e List.mem_cons_self))
      fun x hx => hs x (List.mem_cons_of_mem _ hx)

/-- What a mount finds is well formed, whatever is on the disk. -/
theorem parsedEntries_wellFormed : WellFormed fs (parsedEntries fs c) := by
  have hempty : (([] : List Entry).map Entry.name).Nodup ∧
      ∀ e ∈ ([] : List Entry), EntryOk fs e := by
    simp
  have hslots : ∀ e ∈ (List.range (min (rawCount c) maxFiles).toNat).map (slotAt c),
      validateEntry fs e = true → EntryOk fs e := by
    intro e hm hv
    obtain ⟨i, _, rfl⟩ := List.mem_map.mp hm
    exact slotAt_ok hv
  obtain ⟨hn, he⟩ := foldl_keepEntry hempty hslots
  refine ⟨(length_foldl_keepEntry_le _ _ _).trans ?_, hn, he⟩
  simp only [List.length_nil, List.length_map, List.length_range]
  omega

theorem foldl_keepEntry_eq {kept : List Entry} (hv : ∀ e ∈ entries, validateEntry fs e = true)
    (hn : ((kept ++ entries).map Entry.name).Nodup) :
    entries.foldl (keepEntry fs) kept = kept ++ entries := by
  induction entries generalizing kept with
  | nil => simp
  | cons e entries ih =>
    have hne : e.name ∉ kept.map Entry.name := by
      rw [List.map_append, List.nodup_append] at hn
      exact fun h => hn.2.2 _ h e.name (by simp) rfl
    rw [List.foldl_cons, keepEntry, if_pos ⟨hv e List.mem_cons_self, hne⟩,
      ih (fun x hx => hv x (List.mem_cons_of_mem _ hx)) (by simpa using hn)]
    simp

theorem read_append {p x t : Bytes} (h : c.read 0 2560 = p ++ x ++ t) {pos len : ℕ}
    (hp : pos = p.length) (hl : len = x.length) : c.read pos len = x := by
  subst hp hl
  have hle : p.length + x.length ≤ 2560 := by
    have := congrArg List.length h
    simp at this
    omega
  have hs := Cstruct.sub_natCast (b := c.read 0 2560)
    (by simpa using hle)
  rw [sub_read hle, h] at hs
  simpa using hs

theorem rawCount_layout {nextFree : ℤ} (hl : entries.length ≤ maxFiles)
    (h : c.read 0 2560 = layout entries nextFree) : rawCount c = entries.length := by
  have hle : entries.length ≤ 32 := hl
  have hc : c.read 8 4 = Cstruct.leBytes32 (wrap32 entries.length) :=
    read_append (p := magicStr) (t := Cstruct.leBytes32 nextFree ++ entries.flatMap slotBytes ++
      List.replicate (2544 - 64 * entries.length) 0) (by rw [h, layout, headerBytes]; simp) rfl rfl
  have hw : wrap32 entries.length = entries.length := wrap32_eq (by omega) (by omega)
  rw [rawCount, hc, hw, Cstruct.wrap32_leNumber (by omega) (by omega)]

theorem magic_layout {nextFree : ℤ} (h : c.read 0 2560 = layout entries nextFree) :
    c.read 0 8 = magicStr :=
  read_append (p := []) (t := Cstruct.leBytes32 (wrap32 entries.length) ++
    Cstruct.leBytes32 nextFree ++ entries.flatMap slotBytes ++
      List.replicate (2544 - 64 * entries.length) 0) (by rw [h, layout, headerBytes]; simp) rfl rfl

structure SlotHolds (c : Disk) (i : ℕ) (entry : Entry) : Prop where
  name : c.read (16 + i * 64) 56 = slotName entry.name
  start : c.read (72 + i * 64) 4 = Cstruct.leBytes32 entry.start
  size : c.read (76 + i * 64) 4 = Cstruct.leBytes32 entry.size

theorem SlotHolds.slotAt_eq {i : ℕ} {e : Entry} (h : SlotHolds c i e) (he : EntryOk fs e) :
    slotAt c i = e := by
  have hv := validateEntry_iff.mp he.valid
  rw [slotAt, h.name, h.start, h.size, parseName_slotName he.name,
    Cstruct.wrap32_leNumber (by omega) he.start_lt, Cstruct.wrap32_leNumber (by omega) he.size_lt]

theorem slotHolds_append {nextFree : ℤ} {pre post : List Entry} {e : Entry}
    (h : c.read 0 2560 = layout (pre ++ e :: post) nextFree) : SlotHolds c pre.length e := by
  rw [layout, List.flatMap_append, List.flatMap_cons, slotBytes] at h
  have hh := headerBytes_length (pre ++ e :: post).length nextFree
  generalize headerBytes _ _ = head at h hh
  generalize List.replicate _ (0 : UInt8) = zeros at h
  have hp : (head ++ pre.flatMap slotBytes).length = 16 + pre.length * 64 := by
    simp [hh]
  refine ⟨?_, ?_, ?_⟩
  · exact read_append (p := head ++ pre.flatMap slotBytes) (t := Cstruct.leBytes32 e.start ++
      Cstruct.leBytes32 e.size ++ post.flatMap slotBytes ++ zeros) (by simp [h]) hp.symm (by simp)
  · refine read_append (p := head ++ pre.flatMap slotBytes ++ slotName e.name)
      (t := Cstruct.leBytes32 e.size ++ post.flatMap slotBytes ++ zeros) (by simp [h]) ?_ rfl
    rw [List.length_append, hp, slotName_length]
    ring
  · refine read_append (p := head ++ pre.flatMap slotBytes ++ slotName e.name ++
      Cstruct.leBytes32 e.start) (t := post.flatMap slotBytes ++ zeros) (by simp [h]) ?_ rfl
    rw [List.length_append, List.length_append, hp, slotName_length, Cstruct.leBytes32_length]
    ring

theorem slotHolds_layout {nextFree : ℤ} (h : c.read 0 2560 = layout entries nextFree) {i : ℕ}
    (hi : i < entries.length) : SlotHolds c i entries[i] := by
  have hsplit : entries = entries.take i ++ entries[i] :: entries.drop (i + 1) := by simp
  have hl : (entries.take i).length = i := by simp [hi.le]
  have hs := slotHolds_append (hsplit ▸ h)
  rwa [hl] at hs

theorem spare_layout {nextFree : ℤ} (hl : entries.length ≤ maxFiles)
    (h : c.read 0 2560 = layout entries nextFree) {pos : ℕ}
    (hpos : 16 + entries.length * 64 ≤ pos) (hlt : pos < 2560) : c pos = 0 := by
  have hle : entries.length ≤ 32 := hl
  have hp := Disk.read_getElem c 0 hlt
  have hh : (headerBytes entries.length nextFree ++ entries.flatMap slotBytes).length =
      16 + entries.length * 64 := by simp
  rw [h, layout, List.getElem?_append_right (by omega),
    List.getElem?_replicate_of_lt (by omega)] at hp
  simpa using hp.symm

theorem map_slotAt (hok : ∀ e ∈ entries, EntryOk fs e)
    (hs : ∀ i (hi : i < entries.length), SlotHolds c i entries[i]) :
    (List.range entries.length).map (slotAt c) = entries := by
  refine List.ext_getElem (by simp) fun i hi hi' => ?_
  rw [List.getElem_map, List.getElem_range]
  exact (hs i hi').slotAt_eq (hok _ (List.getElem_mem hi'))

theorem WellFormed.keepEntries_eq (hw : WellFormed fs entries) : keepEntries fs entries = entries :=
  foldl_keepEntry_eq (fun e he => (hw.entryOk e he).valid) hw.nodup

/-- Slots that hold valid entries with distinct names are all kept. -/
theorem parsedEntries_of_slots (hw : WellFormed fs entries)
    (hcount : rawCount c = entries.length)
    (hs : ∀ i (hi : i < entries.length), SlotHolds c i entries[i]) :
    parsedEntries fs c = entries := by
  have hl : (min (entries.length : ℤ) maxFiles).toNat = entries.length := by
    have := hw.length_le
    omega
  rw [parsedEntries, hcount, hl, map_slotAt hw.entryOk hs, hw.keepEntries_eq]

/-- **A mount finds the entries that were written.** -/
theorem parsedEntries_layout {nextFree : ℤ} (hw : WellFormed fs entries)
    (h : c.read 0 2560 = layout entries nextFree) : parsedEntries fs c = entries :=
  parsedEntries_of_slots hw (rawCount_layout hw.length_le h) fun _ => slotHolds_layout h

end WellFormed

end OCamlStudy.NanoOs
