import OCamlStudy.NanoOs.Crash

/-! # Torn deletions

A deletion moves every later entry down by one slot. When only the first sectors
of the directory reach the disk, the slots below the last of them are new and
those above are old; the slot between joins the name of one file to the extent
of the file before it, and the new count leaves out the last entry.
-/

namespace OCamlStudy.NanoOs

open OCaml Program

/-- The disk of `n` sectors on which a write fails after `k` sectors. -/
def tornWrites (n k : ℕ) (err : Option Block.Error) : BlockHandler Disk
  | .getInfo, c => (.done ⟨n, 512, true⟩, c)
  | .read sectorStart len, c => Disk.handler n (.read sectorStart len) c
  | .write sectorStart buffer, c =>
    if Disk.InRange n sectorStart buffer.length then
      (writeFailure err, c.write (sectorStart.toNat * 512) (buffer.take (k * 512)))
    else (.stopped, c)

/-- A directory write of which the first `k` sectors reach the disk. -/
def Disk.tornAt (old new : Disk) (k : ℕ) : Disk := old.torn new fun i => decide (i < k)

/-- The name in a slot with the first 48 bytes of one name and the last 8 of another. -/
def tornName (new old : Bytes) : Bytes :=
  parseName ((slotName new).take 48 ++ (slotName old).drop 48)

theorem Disk.write_take (c : Disk) (b : Bytes) (k : ℕ) :
    c.write 0 (b.take (k * 512)) = c.tornAt (c.write 0 b) k := by
  funext i
  have hsector : i / 512 < k ↔ i < k * 512 := Nat.div_lt_iff_lt_mul (by decide)
  simp only [Disk.tornAt, Disk.torn, Disk.write, List.length_take, decide_eq_true_eq, hsector,
    Nat.zero_add, Nat.zero_le, true_and, Nat.sub_zero, lt_min_iff]
  by_cases hk : i < k * 512
  · simp only [hk, true_and, if_true, List.getD_eq_getElem?_getD, List.getElem?_take_of_lt]
  · simp only [hk, false_and, if_false]

section Slots

variable {old new : Disk} {fs : Fs} {entries : List Entry} {a b e : Entry} {i k : ℕ} {nf : ℤ}

theorem slotHolds_of_getElem? {c : Disk} (h : c.read 0 2560 = layout entries nf)
    (hi : entries[i]? = some e) : SlotHolds c i e := by
  obtain ⟨hlt, rfl⟩ := List.getElem?_eq_some_iff.mp hi
  exact slotHolds_layout h hlt

theorem SlotHolds.tornAt_below (hn : SlotHolds new i e) (hi : i + 1 < 8 * k) :
    SlotHolds (old.tornAt new k) i e := by
  have hkeep : ∀ pos, pos < 80 + i * 64 → decide (pos / 512 < k) = true := by
    intro pos hpos
    apply decide_eq_true
    omega
  constructor
  · exact (torn_read_new fun pos _ hu => hkeep pos (by omega)).trans hn.name
  · exact (torn_read_new fun pos _ hu => hkeep pos (by omega)).trans hn.start
  · exact (torn_read_new fun pos _ hu => hkeep pos (by omega)).trans hn.size

theorem SlotHolds.tornAt_above (ho : SlotHolds old i e) (hi : 8 * k ≤ i) :
    SlotHolds (old.tornAt new k) i e := by
  have hkeep : ∀ pos, 16 + i * 64 ≤ pos → decide (pos / 512 < k) = false := by
    intro pos hpos
    apply decide_eq_false
    omega
  constructor
  · exact (torn_read_old fun pos hl _ => hkeep pos hl).trans ho.name
  · exact (torn_read_old fun pos hl _ => hkeep pos (by omega)).trans ho.start
  · exact (torn_read_old fun pos hl _ => hkeep pos (by omega)).trans ho.size

theorem slotAt_tornAt_across (ho : SlotHolds old i a) (hn : SlotHolds new i b) (ha : EntryOk fs a)
    (hi : i + 1 = 8 * k) :
    slotAt (old.tornAt new k) i = ⟨tornName b.name a.name, a.start, a.size⟩ := by
  have hlow : (old.tornAt new k).read (16 + i * 64) 48 = (slotName b.name).take 48 := by
    rw [← hn.name, Disk.read_take (by decide)]
    refine torn_read_new fun pos _ hu => ?_
    apply decide_eq_true
    omega
  have hkeep : ∀ pos, 64 + i * 64 ≤ pos → decide (pos / 512 < k) = false := by
    intro pos hpos
    apply decide_eq_false
    omega
  have hhigh : (old.tornAt new k).read (16 + i * 64 + 48) 8 = (slotName a.name).drop 48 := by
    have hsplit := Disk.read_append old (16 + i * 64) 48 8
    rw [ho.name] at hsplit
    rw [hsplit, List.drop_left' Disk.read_length]
    exact torn_read_old fun pos hl _ => hkeep pos (by omega)
  have hname : (old.tornAt new k).read (16 + i * 64) 56 =
      (slotName b.name).take 48 ++ (slotName a.name).drop 48 := by
    rw [Disk.read_append _ _ 48 8, hlow, hhigh]
  have hstart : (old.tornAt new k).read (72 + i * 64) 4 = Cstruct.leBytes32 a.start :=
    (torn_read_old fun pos hl _ => hkeep pos (by omega)).trans ho.start
  have hsize : (old.tornAt new k).read (76 + i * 64) 4 = Cstruct.leBytes32 a.size :=
    (torn_read_old fun pos hl _ => hkeep pos (by omega)).trans ho.size
  have hv := validateEntry_iff.mp ha.valid
  rw [slotAt, hname, hstart, hsize, tornName, Cstruct.wrap32_leNumber (by omega) ha.start_lt,
    Cstruct.wrap32_leNumber (by omega) ha.size_lt]

end Slots

/-- The slot that the torn write ends in: the name of the one entry, the extent of the other. -/
def joined (b a : Entry) : Entry := ⟨tornName b.name a.name, a.start, a.size⟩

section Parsed

variable {fs : Fs} {c : Disk} {entries low mid : List Entry} {a b z e : Entry} {filename : Bytes}
  {k : ℕ}

theorem length_filter_name (hnodup : (entries.map Entry.name).Nodup)
    (hname : filename ∈ entries.map Entry.name) :
    (entries.filter (·.name ≠ filename)).length + 1 = entries.length := by
  have hmap : (entries.filter (·.name ≠ filename)).map Entry.name =
      (entries.map Entry.name).erase filename := by
    rw [hnodup.erase_eq_filter, List.filter_map]
    congr 1
    apply List.filter_congr
    intro e _
    by_cases he : e.name = filename <;> simp [he]
  have hlen := congrArg List.length hmap
  rw [List.length_map, List.length_erase_of_mem hname, List.length_map] at hlen
  have hpos := List.length_pos_of_mem hname
  rw [List.length_map] at hpos
  omega

theorem filter_name_eq_self (hname : filename ∉ entries.map Entry.name) :
    entries.filter (·.name ≠ filename) = entries := by
  rw [List.filter_eq_self]
  intro e he
  apply decide_eq_true
  rintro rfl
  exact hname (List.mem_map_of_mem he)

theorem map_slotAt_from {i : ℕ} (hok : ∀ e ∈ entries, EntryOk fs e)
    (hs : ∀ j (hj : j < entries.length), SlotHolds c (i + j) entries[j]) :
    (List.range entries.length).map (fun j => slotAt c (i + j)) = entries := by
  apply List.ext_getElem
  · simp
  · intro j _ hj
    rw [List.getElem_map, List.getElem_range]
    exact (hs j hj).slotAt_eq (hok _ (List.getElem_mem hj))

theorem find?_foldl_keepEntry {kept : List Entry} (hv : ∀ e ∈ entries, validateEntry fs e = true)
    (name : Bytes) : (entries.foldl (keepEntry fs) kept).find? (fun e => e.name = name) =
      (kept ++ entries).find? fun e => e.name = name := by
  induction entries generalizing kept with
  | nil => rw [List.append_nil, List.foldl_nil]
  | cons x entries ih =>
    rw [List.foldl_cons, ih fun e he => hv e (List.mem_cons_of_mem _ he), keepEntry]
    split_ifs with hx
    · rw [List.append_assoc, List.singleton_append]
    · have hdup : x.name ∈ kept.map Entry.name := by
        by_contra hnew
        exact hx ⟨hv x List.mem_cons_self, hnew⟩
      rw [List.find?_append, List.find?_append, List.find?_cons]
      by_cases hname : x.name = name
      · obtain ⟨y, hy, hyx⟩ := List.mem_map.mp hdup
        cases hfound : kept.find? (fun e => decide (e.name = name)) with
        | none =>
          have hnone := List.find?_eq_none.mp hfound y hy
          exact absurd (decide_eq_true (hyx.trans hname)) hnone
        | some z => rfl
      · simp only [hname, decide_false]

theorem fileMap_keepEntries (hv : ∀ e ∈ entries, validateEntry fs e = true) :
    fileMap (keepEntries fs entries) c = fileMap entries c := by
  funext name
  rw [fileMap, keepEntries, find?_foldl_keepEntry hv, List.nil_append]
  rfl

theorem mem_of_mem_foldl_keepEntry {kept : List Entry}
    (he : e ∈ entries.foldl (keepEntry fs) kept) : e ∈ kept ∨ e ∈ entries := by
  induction entries generalizing kept with
  | nil => exact Or.inl he
  | cons x entries ih =>
    rcases ih he with hkept | hmem
    · unfold keepEntry at hkept
      split_ifs at hkept
      · rcases List.mem_append.mp hkept with hkept | hx
        · exact Or.inl hkept
        · obtain rfl := List.mem_singleton.mp hx
          exact Or.inr List.mem_cons_self
      · exact Or.inl hkept
    · exact Or.inr (List.mem_cons_of_mem _ hmem)

theorem mem_of_mem_keepEntries (he : e ∈ keepEntries fs entries) : e ∈ entries := by
  rcases mem_of_mem_foldl_keepEntry he with hnil | hmem
  · cases hnil
  · exact hmem

section Torn

variable {old new : Disk} {nf nf' : ℤ} (hk : 0 < k) (hw : WellFormed fs entries)
  (hname : filename ∈ entries.map Entry.name) (ho : old.read 0 2560 = layout entries nf)
  (hn : new.read 0 2560 = layout (entries.filter (·.name ≠ filename)) nf')

include hk hw hname ho hn

theorem rawCount_tornAt : rawCount (old.tornAt new k) = (entries.length - 1 : ℕ) := by
  have hlen := length_filter_name hw.nodup hname
  rw [Disk.tornAt, rawCount_torn _ ho hn hw.length_le (hw.filter _).length_le,
    if_pos (decide_eq_true hk)]
  exact congrArg Nat.cast (Nat.eq_sub_of_add_eq hlen)

theorem parsedEntries_tornAt_within (hlen : entries.length ≤ 8 * k) :
    parsedEntries fs (old.tornAt new k) = entries.filter (·.name ≠ filename) := by
  have hlen' := length_filter_name hw.nodup hname
  refine parsedEntries_of_slots (hw.filter _) ?_ fun i hi => ?_
  · rw [rawCount_tornAt hk hw hname ho hn]
    exact congrArg Nat.cast (Nat.eq_sub_of_add_eq hlen').symm
  · exact (slotHolds_layout hn hi).tornAt_below (by omega)

theorem parsedEntries_tornAt_above (hentries : entries = low ++ (mid ++ [z]))
    (hlow : low.length = 8 * k) (habove : filename ∉ low.map Entry.name) :
    parsedEntries fs (old.tornAt new k) = low ++ mid := by
  have hinit : entries = (low ++ mid) ++ [z] := by rw [hentries, List.append_assoc]
  have hw' : WellFormed fs (low ++ mid) := by
    refine ⟨?_, ?_, fun e he => hw.entryOk e (by simp only [hinit, List.mem_append, he, true_or])⟩
    · refine le_trans ?_ hw.length_le
      simp [hinit]
    · have hnodup := hw.nodup
      rw [hinit, List.map_append] at hnodup
      exact hnodup.of_append_left
  refine parsedEntries_of_slots hw' ?_ fun i hi => ?_
  · rw [rawCount_tornAt hk hw hname ho hn]
    simp [hinit]
  · have hold : SlotHolds old i (low ++ mid)[i] := by
      refine slotHolds_of_getElem? ho ?_
      rw [hinit, List.getElem?_append_left hi, List.getElem?_eq_getElem hi]
    rcases Nat.lt_or_ge i low.length with hlt | hge
    · refine hold.torn (slotHolds_of_getElem? hn ?_)
      rw [hentries, List.filter_append, filter_name_eq_self habove, List.getElem?_append_left hlt,
        List.getElem_append_left hlt, List.getElem?_eq_getElem hlt]
    · exact hold.tornAt_above (by omega)

omit hname in
theorem map_slotAt_tornAt (hentries : entries = low ++ (mid ++ [z]))
    (hlow : low.length = 8 * k) (hbelow : filename ∈ low.map Entry.name)
    (ha : entries[8 * k - 1]? = some a) (hb : entries[8 * k]? = some b) :
    (List.range (entries.length - 1)).map (slotAt (old.tornAt new k)) =
      low.filter (·.name ≠ filename) ++ joined b a :: mid := by
  have hnodup := hw.nodup
  rw [hentries, List.map_append] at hnodup
  have hlen := length_filter_name hnodup.of_append_left hbelow
  have hhigh : filename ∉ (mid ++ [z]).map Entry.name := fun h =>
    (List.disjoint_of_nodup_append hnodup) hbelow h
  have hnew : entries.filter (·.name ≠ filename) =
      low.filter (·.name ≠ filename) ++ (mid ++ [z]) := by
    rw [hentries, List.filter_append, filter_name_eq_self hhigh]
  have hcount :
      entries.length - 1 = (low.filter (·.name ≠ filename)).length + (1 + mid.length) := by
    rw [hentries, List.length_append, List.length_append, List.length_singleton]
    omega
  have hmem : ∀ e ∈ mid, e ∈ entries := by
    intro e he
    simp [hentries, he]
  have hmid := map_slotAt_from (c := old.tornAt new k) (i := 8 * k)
    (fun e he => hw.entryOk e (hmem e he)) fun j hj => by
      refine SlotHolds.tornAt_above (slotHolds_of_getElem? ho ?_) (by omega)
      rw [hentries, List.getElem?_append_right (by omega), hlow, Nat.add_sub_cancel_left,
        List.getElem?_append_left hj, List.getElem?_eq_getElem hj]
  have hfirst : (List.range (low.filter (·.name ≠ filename)).length).map
      (fun j => slotAt (old.tornAt new k) (0 + j)) = low.filter (·.name ≠ filename) := by
    apply @map_slotAt_from fs
    · intro e he
      exact hw.entryOk e (by simp [hentries, List.mem_of_mem_filter he])
    · intro j hj
      refine SlotHolds.tornAt_below (slotHolds_of_getElem? hn ?_) (by omega)
      rw [hnew, Nat.zero_add, List.getElem?_append_left hj, List.getElem?_eq_getElem hj]
  have hacross : slotAt (old.tornAt new k) (8 * k - 1) = joined b a := by
    refine slotAt_tornAt_across (slotHolds_of_getElem? ho ha) (slotHolds_of_getElem? hn ?_)
      (hw.entryOk a (List.mem_of_getElem? ha)) (by omega)
    rw [hentries, List.getElem?_append_right (by omega), hlow, Nat.sub_self] at hb
    have hfirst : 8 * k - 1 - (low.filter (·.name ≠ filename)).length = 0 := by omega
    rw [hnew, List.getElem?_append_right (by omega), hfirst, hb]
  have hstart : (low.filter (·.name ≠ filename)).length = 8 * k - 1 := by omega
  have hrest : ((8 * k - 1) + ·) ∘ Nat.succ = (8 * k + ·) := by
    funext j
    simp only [Function.comp_apply, Nat.succ_eq_add_one]
    omega
  simp only [Nat.zero_add] at hfirst
  rw [hcount, List.range_add, List.map_append, hfirst, hstart, Nat.add_comm 1,
    List.range_succ_eq_map, List.map_cons, List.map_map, hrest, List.map_cons, List.map_map,
    Nat.add_zero, hacross]
  exact congrArg (_ ++ joined b a :: ·) hmid

end Torn

end Parsed

/-- Every file but one is still there with its content, and that one is unchanged or gone. -/
def FileMap.Spares (files : FileMap) (filename : Bytes) (files' : FileMap) : Prop :=
  (∀ name data, name ≠ filename → files name = some data → files' name = some data) ∧
    (files' filename = files filename ∨ files' filename = none)

/-- The slot that the write ends in has the name of the last file and an extent of its content. -/
def StandsIn (entries : List Entry) (c : Disk) (filename : Bytes) (k : ℕ) : Prop :=
  ∃ a b z, entries[8 * k - 1]? = some a ∧ entries[8 * k]? = some b ∧ entries.getLast? = some z ∧
    filename ∈ (entries.take (8 * k)).map Entry.name ∧
    (joined b a).name = z.name ∧ content c (joined b a) = content c z

/-- When the first `k` sectors of the directory are enough to delete a file. -/
def DeleteSafe (entries : List Entry) (c : Disk) (filename : Bytes) (k : ℕ) : Prop :=
  k = 0 ∨ entries.length ≤ 8 * k ∨ (∃ z, entries.getLast? = some z ∧ z.name = filename) ∨
    StandsIn entries c filename k

section Spares

variable {n : ℕ} {entries low mid : List Entry} {a b z e : Entry} {fs : Fs} {c old new : Disk}
  {filename : Bytes} {k : ℕ} {nf nf' : ℤ}

theorem FileMap.spares_update (files : FileMap) (filename : Bytes) :
    files.Spares filename (Function.update files filename none) := by
  constructor
  · intro name data hne hfile
    rwa [Function.update_of_ne hne]
  · exact Or.inr (Function.update_self ..)

theorem fileMap_of_unique (he : e ∈ entries) (hu : ∀ e' ∈ entries, e'.name = e.name → e' = e) :
    fileMap entries c e.name = some (content c e) := by
  cases hfound : entries.find? fun x => decide (x.name = e.name) with
  | none =>
    have hnone := List.find?_eq_none.mp hfound e he
    exact absurd (decide_eq_true rfl) hnone
  | some x =>
    have hx := hu x (List.mem_of_find?_eq_some hfound) (by simpa using List.find?_some hfound)
    rw [fileMap, hfound, hx]
    rfl

theorem exists_of_fileMap {name data : Bytes} (h : fileMap entries c name = some data) :
    ∃ e ∈ entries, e.name = name ∧ content c e = data := by
  obtain ⟨e, hfound, hdata⟩ := Option.map_eq_some_iff.mp h
  have hname : e.name = name := by simpa using List.find?_some hfound
  exact ⟨e, List.mem_of_find?_eq_some hfound, hname, hdata⟩

theorem spares_init_iff (hnodup : ((low ++ mid ++ [z]).map Entry.name).Nodup) :
    (fileMap (low ++ mid ++ [z]) c).Spares filename (fileMap (low ++ mid) c) ↔
      z.name = filename := by
  have hz : z.name ∉ (low ++ mid).map Entry.name := by
    rw [List.map_append] at hnodup
    exact fun h => List.disjoint_of_nodup_append hnodup h (by simp)
  have hinit : ∀ name, name ≠ z.name →
      fileMap (low ++ mid) c name = fileMap (low ++ mid ++ [z]) c name := by
    intro name hne
    rw [fileMap, fileMap, List.find?_append]
    simp [hne.symm]
  constructor
  · rintro ⟨hothers, _⟩
    by_contra hne
    have hkept := hothers z.name _ hne (fileMap_of_mem hnodup (by simp))
    rw [fileMap_eq_none.mpr hz] at hkept
    cases hkept
  · rintro rfl
    constructor
    · intro name data hne hfile
      rwa [hinit name hne]
    · exact Or.inr (fileMap_eq_none.mpr hz)

theorem mem_joinedSlots_iff (hnodup : ((low ++ (mid ++ [z])).map Entry.name).Nodup)
    (hbelow : filename ∈ low.map Entry.name) :
    e ∈ low.filter (·.name ≠ filename) ++ joined b a :: mid ↔
      e = joined b a ∨ (e ∈ low ++ (mid ++ [z]) ∧ e.name ≠ filename ∧ e.name ≠ z.name) := by
  rw [List.map_append, List.map_append] at hnodup
  obtain ⟨-, hhigh, hdisjoint⟩ := List.nodup_append.mp hnodup
  simp only [List.mem_append, List.mem_filter, List.mem_cons, List.not_mem_nil, or_false,
    decide_eq_true_eq]
  constructor
  · rintro (⟨he, hne⟩ | rfl | he)
    · exact Or.inr ⟨Or.inl he, hne, hdisjoint _ (List.mem_map_of_mem he) _ (by simp)⟩
    · exact Or.inl rfl
    · refine Or.inr ⟨Or.inr (Or.inl he), ?_, ?_⟩
      · obtain ⟨x, hx, rfl⟩ := List.mem_map.mp hbelow
        exact (hdisjoint _ (List.mem_map_of_mem hx) _ (by simp [List.mem_map_of_mem he])).symm
      · exact (List.nodup_append.mp hhigh).2.2 _ (List.mem_map_of_mem he) _ (by simp)
  · rintro (rfl | ⟨he | he | rfl, hne, hlast⟩)
    · exact Or.inr (Or.inl rfl)
    · exact Or.inl ⟨he, hne⟩
    · exact Or.inr (Or.inr he)
    · exact absurd rfl hlast

/-- Entries on both sides: only the joined slot can still give the last file. -/
theorem spares_joined_iff (hw : WellFormed fs (low ++ (mid ++ [z]))) (ha : a ∈ low)
    (hbelow : filename ∈ low.map Entry.name) :
    (fileMap (low ++ (mid ++ [z])) c).Spares filename
        (fileMap (keepEntries fs (low.filter (·.name ≠ filename) ++ joined b a :: mid)) c) ↔
      (joined b a).name = z.name ∧ content c (joined b a) = content c z := by
  have hmem := fun e => mem_joinedSlots_iff (e := e) (b := b) (a := a) hw.nodup hbelow
  generalize low.filter (·.name ≠ filename) ++ joined b a :: mid = slots at hmem ⊢
  have hz : z.name ≠ filename := by
    obtain ⟨e, he, rfl⟩ := List.mem_map.mp hbelow
    have hnodup := hw.nodup
    rw [List.map_append] at hnodup
    exact ((List.nodup_append.mp hnodup).2.2 _ (List.mem_map_of_mem he) _ (by simp)).symm
  constructor
  · rintro ⟨hothers, _⟩
    have hkept := hothers z.name _ hz (fileMap_of_mem hw.nodup (by simp))
    obtain ⟨e, he, hname, hcontent⟩ := exists_of_fileMap hkept
    rcases (hmem e).mp (mem_of_mem_keepEntries he) with rfl | ⟨_, _, hlast⟩
    · exact ⟨hname, hcontent⟩
    · exact absurd hname hlast
  · rintro ⟨hname, hcontent⟩
    have hv : ∀ e ∈ slots, validateEntry fs e = true := by
      intro e he
      rcases (hmem e).mp he with rfl | ⟨he, _⟩
      · have hextent := validateEntry_iff.mp (hw.entryOk a (List.mem_append_left _ ha)).valid
        have hnil := (validateEntry_iff.mp (hw.entryOk z (by simp)).valid).1
        exact validateEntry_iff.mpr ⟨hname ▸ hnil, hextent.2⟩
      · exact (hw.entryOk e he).valid
    have hunique : ∀ e ∈ slots, ∀ e' ∈ slots, e'.name = e.name → e' = e := by
      intro e he e' he' heq
      rcases (hmem e).mp he with rfl | ⟨he, _, hlast⟩
      · rcases (hmem e').mp he' with rfl | ⟨_, _, hlast⟩
        · rfl
        · exact absurd (heq.trans hname) hlast
      · rcases (hmem e').mp he' with rfl | ⟨he', _⟩
        · exact absurd (heq.symm.trans hname) hlast
        · exact List.inj_on_of_nodup_map hw.nodup he' he heq
    rw [fileMap_keepEntries hv]
    constructor
    · intro name data hne hfile
      obtain ⟨e, he, rfl, rfl⟩ := exists_of_fileMap hfile
      by_cases hlast : e.name = z.name
      · obtain rfl := List.inj_on_of_nodup_map hw.nodup he (by simp) hlast
        have hjoined := (hmem (joined b a)).mpr (Or.inl rfl)
        rw [← hname, ← hcontent]
        exact fileMap_of_unique hjoined (hunique _ hjoined)
      · have hkept := (hmem e).mpr (Or.inr ⟨he, hne, hlast⟩)
        exact fileMap_of_unique hkept (hunique e hkept)
    · right
      rw [fileMap_eq_none]
      intro hlisted
      obtain ⟨e, he, heq⟩ := List.mem_map.mp hlisted
      rcases (hmem e).mp he with rfl | ⟨_, hne, _⟩
      · exact hz (hname.symm.trans heq)
      · exact hne heq

end Spares

section DeleteSafe

variable {entries low mid : List Entry} {a b z : Entry} {c : Disk} {filename : Bytes} {k : ℕ}
  (hk : 0 < k) (hentries : entries = low ++ (mid ++ [z])) (hlow : low.length = 8 * k)

include hk hentries hlow

theorem deleteSafe_above_iff (habove : filename ∉ low.map Entry.name) :
    DeleteSafe entries c filename k ↔ z.name = filename := by
  subst hentries
  constructor
  · rintro (rfl | hlen | ⟨z', hz', hname⟩ | ⟨_, _, _, _, _, _, hbelow, _⟩)
    · cases hk
    · simp only [List.length_append, List.length_singleton] at hlen
      omega
    · rw [← List.append_assoc, List.getLast?_concat] at hz'
      exact Option.some.inj hz' ▸ hname
    · rw [List.take_left' hlow] at hbelow
      exact absurd hbelow habove
  · intro hname
    exact Or.inr (Or.inr (Or.inl ⟨z, by rw [← List.append_assoc, List.getLast?_concat], hname⟩))

theorem deleteSafe_below_iff (hnodup : (entries.map Entry.name).Nodup)
    (hbelow : filename ∈ low.map Entry.name) (ha : entries[8 * k - 1]? = some a)
    (hb : entries[8 * k]? = some b) : DeleteSafe entries c filename k ↔
      (joined b a).name = z.name ∧ content c (joined b a) = content c z := by
  have hlast : entries.getLast? = some z := by
    rw [hentries, ← List.append_assoc, List.getLast?_concat]
  have htake : entries.take (8 * k) = low := by rw [hentries, List.take_left' hlow]
  constructor
  · rintro (rfl | hlen | ⟨z', hz', hname⟩ | ⟨a', b', z', ha', hb', hz', _, hjoined⟩)
    · cases hk
    · simp only [hentries, List.length_append, List.length_singleton] at hlen
      omega
    · rw [hlast] at hz'
      obtain rfl := Option.some.inj hz'
      rw [hentries, List.map_append] at hnodup
      exact absurd hname.symm ((List.nodup_append.mp hnodup).2.2 _ hbelow _ (by simp))
    · rw [ha] at ha'
      rw [hb] at hb'
      rw [hlast] at hz'
      obtain rfl := Option.some.inj ha'
      obtain rfl := Option.some.inj hb'
      obtain rfl := Option.some.inj hz'
      exact hjoined
  · intro hjoined
    exact Or.inr (Or.inr (Or.inr ⟨a, b, z, ha, hb, hlast, htake ▸ hbelow, hjoined⟩))

end DeleteSafe

/-- A fresh mount shows every file but one with its content, and that one unchanged or gone. -/
def KeepsOthers (n : ℕ) (files : FileMap) (filename : Bytes) (c : Disk) : Prop :=
  ∀ fs₁, ∃ fs c' files', (connect true).run (Disk.handler n) fs₁ c = (.done (), fs, c') ∧
    MapView (Disk.device n) files' fs c' ∧ files.Spares filename files'

section Delete

variable {n : ℕ} {entries : List Entry} {fs : Fs} {c c' : Disk} {filename : Bytes} {k : ℕ}
  (h5 : 5 ≤ n) (hn : n < 2 ^ 31)

include h5 hn

theorem keepsOthers_iff (files : FileMap) (hmagic : c.read 0 8 = magicStr)
    (he : parsedEntries ⟨deviceInfo n, ∅⟩ c = entries) :
    KeepsOthers n files filename c ↔ files.Spares filename (fileMap entries c) := by
  have hshows : DiskShows n c (fileMap entries c) := ⟨hmagic, by rw [he]⟩
  constructor
  · intro h
    obtain ⟨fs, c', files', hrun, hview, hspares⟩ := h ⟨deviceInfo n, ∅⟩
    obtain ⟨fs', c'', hrun', hview'⟩ := hshows.connect h5 hn ⟨deviceInfo n, ∅⟩
    rw [hrun] at hrun'
    cases hrun'
    rwa [hview'.unique hview] at hspares
  · intro hspares fs₁
    obtain ⟨fs, c', hrun, hview⟩ := hshows.connect h5 hn fs₁
    exact ⟨fs, c', _, hrun, hview, hspares⟩

theorem Mounted.run_deleteFile_torn (hm : Mounted n entries fs c)
    (hname : filename ∈ entries.map Entry.name) (k : ℕ) (err : Option Block.Error) :
    ∃ o, (deleteFile filename).run (tornWrites n k err) fs c = (o, fs,
      c.tornAt (c.write 0 (layout (entries.filter (·.name ≠ filename)) (nextFree entries))) k) := by
  obtain ⟨dirty, hload⟩ := hm.run_loadEntries_of (h := tornWrites n k err) (s := c) h5 hn
    (handler_read_superblock h5)
  have hlength := (hm.wellFormed.filter fun e => e.name ≠ filename).length_le
  have hwrite : tornWrites n k err
      (.write 0 (layout (entries.filter (·.name ≠ filename)) (nextFree entries))) c =
        (writeFailure err, c.tornAt
          (c.write 0 (layout (entries.filter (·.name ≠ filename)) (nextFree entries))) k) := by
    rw [← Disk.write_take]
    exact if_pos ⟨le_rfl, by rw [layout_length hlength]; omega⟩
  rw [NanoOs.run_deleteFile hload, if_pos hname]
  cases err with
  | none => exact ⟨_, run_writeSuperblock_stopped hlength hwrite⟩
  | some e => exact ⟨_, run_writeSuperblock_error hlength hwrite⟩

section Recovered

variable {low mid : List Entry} {z : Entry} {new : Disk} {nf nf' : ℤ}
  (hm : Mounted n entries fs c) (hname : filename ∈ entries.map Entry.name)
  (ho : c.read 0 2560 = layout entries nf)
  (hnew : new.read 0 2560 = layout (entries.filter (·.name ≠ filename)) nf')
  (habove : ∀ i, 2560 ≤ i → new i = c i)

include hm hname ho hnew habove

omit h5 hn hm hname ho hnew in
theorem content_tornAt {e : Entry} (he : 5 ≤ e.start) :
    content (c.tornAt new k) e = content c e := by
  refine content_of_above (fun i hi => ?_) he
  unfold Disk.tornAt Disk.torn
  split_ifs
  · exact habove i hi
  · rfl

omit h5 hn hm hname habove in
theorem magic_tornAt : (c.tornAt new k).read 0 8 = magicStr := magic_torn ho hnew

omit h5 hname ho hnew in
theorem Mounted.fileMap_tornAt : fileMap entries (c.tornAt new k) = fileMap entries c :=
  fileMap_congr fun _ he => content_tornAt habove (hm.start_ge hn he)

theorem Mounted.keepsOthers_within (hk : 0 < k) (hshort : entries.length ≤ 8 * k) :
    KeepsOthers n (fileMap entries c) filename (c.tornAt new k) := by
  have hw : WellFormed ⟨deviceInfo n, ∅⟩ entries := hm.wellFormed_cache
  rw [keepsOthers_iff h5 hn _ (magic_tornAt ho hnew)
      (parsedEntries_tornAt_within hk hw hname ho hnew hshort),
    fileMap_filter hw fun e he => content_tornAt habove (hm.start_ge hn he)]
  exact FileMap.spares_update _ _

theorem Mounted.keepsOthers_above_iff (hk : 0 < k) (hentries : entries = low ++ (mid ++ [z]))
    (hlow : low.length = 8 * k) (hlater : filename ∉ low.map Entry.name) :
    KeepsOthers n (fileMap entries c) filename (c.tornAt new k) ↔
      DeleteSafe entries c filename k := by
  have hw : WellFormed ⟨deviceInfo n, ∅⟩ entries := hm.wellFormed_cache
  have hnodup := hw.nodup
  rw [keepsOthers_iff h5 hn _ (magic_tornAt ho hnew)
      (parsedEntries_tornAt_above hk hw hname ho hnew hentries hlow hlater),
    ← hm.fileMap_tornAt hn habove, deleteSafe_above_iff hk hentries hlow hlater]
  rw [hentries, ← List.append_assoc] at hnodup ⊢
  exact spares_init_iff hnodup

theorem Mounted.keepsOthers_below_iff (hk : 0 < k) (hentries : entries = low ++ (mid ++ [z]))
    (hlow : low.length = 8 * k) (hbelow : filename ∈ low.map Entry.name) :
    KeepsOthers n (fileMap entries c) filename (c.tornAt new k) ↔
      DeleteSafe entries c filename k := by
  have hw : WellFormed ⟨deviceInfo n, ∅⟩ entries := hm.wellFormed_cache
  have hlong : 8 * k < entries.length := by
    rw [hentries, List.length_append, List.length_append, List.length_singleton]
    omega
  obtain ⟨b, hb⟩ : ∃ b, entries[8 * k]? = some b := ⟨_, List.getElem?_eq_getElem hlong⟩
  obtain ⟨a, ha⟩ : ∃ a, entries[8 * k - 1]? = some a := ⟨_, List.getElem?_eq_getElem (by omega)⟩
  have halow : a ∈ low := by
    rw [hentries, List.getElem?_append_left (by omega)] at ha
    exact List.mem_of_getElem? ha
  have hparsed : parsedEntries ⟨deviceInfo n, ∅⟩ (c.tornAt new k) =
      keepEntries ⟨deviceInfo n, ∅⟩ (low.filter (·.name ≠ filename) ++ joined b a :: mid) := by
    have hcount : (min ((entries.length - 1 : ℕ) : ℤ) maxFiles).toNat = entries.length - 1 := by
      have := hw.length_le
      omega
    rw [parsedEntries, rawCount_tornAt hk hw hname ho hnew, hcount,
      map_slotAt_tornAt hk hw ho hnew hentries hlow hbelow ha hb]
  have hstart : 5 ≤ a.start := hm.start_ge hn (List.mem_of_getElem? ha)
  have hlast : 5 ≤ z.start := hm.start_ge hn (by simp [hentries])
  rw [keepsOthers_iff h5 hn _ (magic_tornAt ho hnew) hparsed,
    deleteSafe_below_iff hk hentries hlow hw.nodup hbelow ha hb,
    ← hm.fileMap_tornAt (k := k) hn habove,
    ← content_tornAt (k := k) (e := joined b a) habove hstart,
    ← content_tornAt (k := k) (e := z) habove hlast]
  rw [hentries] at hw ⊢
  exact spares_joined_iff hw halow hbelow

end Recovered

/-- What a fresh mount shows after a torn delete. -/
theorem Mounted.keepsOthers_torn_iff (hm : Mounted n entries fs c) (hst : Stored entries c)
    (hname : filename ∈ entries.map Entry.name) (k : ℕ) :
    KeepsOthers n (fileMap entries c) filename
      (c.tornAt (c.write 0 (layout (entries.filter (·.name ≠ filename)) (nextFree entries))) k) ↔
        DeleteSafe entries c filename k := by
  obtain ⟨nf, ho⟩ := hst
  have hlength := (hm.wellFormed.filter (·.name ≠ filename)).length_le
  obtain ⟨nf', hnew⟩ := stored_layout (c := c) hlength (nextFree entries)
  have habove : ∀ i, 2560 ≤ i →
      c.write 0 (layout (entries.filter (·.name ≠ filename)) (nextFree entries)) i = c i := by
    intro i hi
    exact Disk.write_apply_outside (Or.inr (by rw [layout_length hlength]; omega))
  generalize c.write 0 (layout (entries.filter (·.name ≠ filename)) (nextFree entries)) = new
    at hnew habove ⊢
  rcases Nat.eq_zero_or_pos k with rfl | hk
  · have hsame : c.tornAt new 0 = c := by
      funext i
      simp [Disk.tornAt, Disk.torn]
    have hparsed : parsedEntries ⟨deviceInfo n, ∅⟩ c = entries := by
      rw [← hm.parsed, hm.fs_eq]
      rfl
    rw [hsame, keepsOthers_iff h5 hn _ hm.magic hparsed]
    exact iff_of_true ⟨fun _ _ _ hfile => hfile, Or.inl rfl⟩ (Or.inl rfl)
  rcases Nat.lt_or_ge (8 * k) entries.length with hlong | hshort
  · -- the entries below the end of the write, those above it, and the last one
    obtain ⟨low, mid, z, hentries, hlow⟩ : ∃ low mid z,
        entries = low ++ (mid ++ [z]) ∧ low.length = 8 * k := by
      have hne : entries.drop (8 * k) ≠ [] := by
        rw [ne_eq, List.drop_eq_nil_iff]
        omega
      refine ⟨entries.take (8 * k), (entries.drop (8 * k)).dropLast,
        (entries.drop (8 * k)).getLast hne, ?_, List.length_take_of_le hlong.le⟩
      rw [List.dropLast_append_getLast, List.take_append_drop]
    by_cases hbelow : filename ∈ low.map Entry.name
    · exact hm.keepsOthers_below_iff h5 hn hname ho hnew habove hk hentries hlow hbelow
    · exact hm.keepsOthers_above_iff h5 hn hname ho hnew habove hk hentries hlow hbelow
  · exact iff_of_true (hm.keepsOthers_within h5 hn hname ho hnew habove hk hshort)
      (Or.inr (Or.inl hshort))

end Delete

/-- **When a delete is failure-atomic.** After any run from a formatted disk, a delete whose
directory write keeps its first `k` sectors spares the other files exactly if `k` is zero, or the
sectors hold all entries, or the file is the last one, or the joined slot stands in for the last. -/
theorem delete_failure_atomic_iff {n : ℕ} (h5 : 5 ≤ n) (hn : n < 2 ^ 31) (dev : Device n)
    (repair : Bool) (fs₀ : Fs) (s₀ : dev.State) (ops : List FsOp)
    (ha : ∀ op ∈ ops, op.Admissible) :
    ∃ replies fs s, dev.Completes (fromFormat repair ops) fs₀ s₀ replies fs s ∧
      ∀ filename, (FileMap.replay (fun _ => none) (ops.zip replies) filename).isSome →
        ∀ k err, ∃ o c, (deleteFile filename).run (tornWrites n k err) fs (dev.contents s) =
            (o, fs, c) ∧
          (KeepsOthers n (FileMap.replay (fun _ => none) (ops.zip replies)) filename c ↔
            DeleteSafe (parsedEntries fs (dev.contents s)) (dev.contents s) filename k) := by
  obtain ⟨replies, entries, fs, s, hc, _, hm, hf, hst⟩ :=
    fromFormat_mounted h5 fs₀ repair hn dev s₀ ops ha
  refine ⟨replies, fs, s, hc, fun filename hlive k err => ?_⟩
  rw [← hf] at hlive ⊢
  have hname := fileMap_isSome.mp hlive
  obtain ⟨o, hrun⟩ := hm.run_deleteFile_torn h5 hn hname k err
  refine ⟨o, _, hrun, ?_⟩
  rw [hm.parsed]
  exact hm.keepsOthers_torn_iff h5 hn hst hname k

/-- Two files, the first of which is deleted. -/
theorem delete_failure_atomic_iff_two : ∃ replies fs s,
    RamDisk.device.Completes (fromFormat true [.createFile (bytes "a") (bytes "x"),
        .createFile (bytes "b") (bytes "y")]) ⟨deviceInfo 0, ∅⟩ RamDisk.fresh replies fs s ∧
      ∀ filename, (FileMap.replay (fun _ => none) (List.zip [.createFile (bytes "a") (bytes "x"),
          .createFile (bytes "b") (bytes "y")] replies) filename).isSome →
        ∀ k err, ∃ o c, (deleteFile filename).run (tornWrites 2048 k err) fs
            (RamDisk.device.contents s) = (o, fs, c) ∧
          (KeepsOthers 2048 (FileMap.replay (fun _ => none)
              (List.zip [.createFile (bytes "a") (bytes "x"), .createFile (bytes "b") (bytes "y")]
                replies)) filename c ↔
            DeleteSafe (parsedEntries fs (RamDisk.device.contents s)) (RamDisk.device.contents s)
              filename k) := by
  refine delete_failure_atomic_iff (by decide) (by decide) RamDisk.device true _ _ _ ?_
  intro op hop
  rcases List.mem_cons.mp hop with rfl | hop
  · exact ⟨by decide, by decide⟩
  · obtain rfl := List.mem_singleton.mp hop
    exact ⟨by decide, by decide⟩

def emptyFiles (names : List Bytes) : List Entry := names.map (⟨·, 5, 0⟩)

section EmptyFiles

variable {n : ℕ} {names more : List Bytes} {name : Bytes} {fs : Fs} {c : Disk}

theorem nextFree_emptyFiles (names : List Bytes) : nextFree (emptyFiles names) = 5 := by
  refine le_antisymm (nextFree_le_iff.mpr ⟨le_rfl, fun e he => ?_⟩) (five_le_nextFree _)
  obtain ⟨name, _, rfl⟩ := List.mem_map.mp he
  exact le_rfl

theorem replaceEntry_emptyFiles (hnew : name ∉ names) :
    replaceEntry (emptyFiles names) (newEntry (emptyFiles names) name []) =
      emptyFiles (names ++ [name]) := by
  rw [newEntry, nextFree_emptyFiles, replaceEntry, if_neg]
  · rw [emptyFiles, emptyFiles, List.map_append]
    rfl
  · rw [List.any_eq_true]
    rintro ⟨e, he, heq⟩
    obtain ⟨x, hx, rfl⟩ := List.mem_map.mp he
    obtain rfl : x = name := of_decide_eq_true heq
    exact hnew hx

variable (h5 : 5 ≤ n) (hn : n < 2 ^ 31)

include h5 hn

theorem Mounted.run_createEmpty (hm : Mounted n (emptyFiles names) fs c) (hname : GoodName name)
    (hnew : name ∉ names) (hlen : names.length < 32) :
    ∃ reply fs' c', (FsOp.createFile name []).perform.run (Disk.handler n) fs c =
      (.done reply, fs', c') ∧ Mounted n (emptyFiles (names ++ [name])) fs' c' := by
  have hnames : (emptyFiles names).map Entry.name = names := by
    rw [emptyFiles, List.map_map]
    exact List.map_id names
  have hr : ¬ Refused fs (emptyFiles names) (nextFree (emptyFiles names)) name [] := by
    rw [hm.refused_iff hn, nextFree_emptyFiles]
    rintro (⟨_, hfull⟩ | hroom)
    · rw [emptyFiles, List.length_map] at hfull
      exact absurd hfull (not_le.mpr hlen)
    · rw [List.length_nil, Nat.cast_zero] at hroom
      have : sectorsForSize 0 = 0 := rfl
      omega
  have habsent : name ∉ fs.cache := by
    rw [hm.mem_cache, fileMap_isSome, hnames]
    exact hnew
  have hdata : ([] : Bytes).length < 2 ^ 31 := by decide
  have hw := hm.replaceEntry_wellFormed hn hname hdata hr
  obtain ⟨nf, -, hrun⟩ := hm.run_writeFile h5 hn hdata hr
  have hcreate := run_createFile (Disk.handler n) fs c name []
  rw [if_neg habsent, hrun] at hcreate
  refine ⟨_, _, _, Prog.run_bind_done hcreate _, ?_⟩
  rw [← replaceEntry_emptyFiles hnew]
  rw [hm.fs_eq] at hw
  exact mounted_layout hw nf

theorem Mounted.run_createEmpties (hm : Mounted n (emptyFiles names) fs c)
    (hgood : ∀ name ∈ more, GoodName name) (hnodup : (names ++ more).Nodup)
    (hlen : (names ++ more).length ≤ 32) :
    ∃ replies fs' c',
      (FsOp.performAll (more.map (FsOp.createFile · []))).run (Disk.handler n) fs c =
        (.done replies, fs', c') ∧ Mounted n (emptyFiles (names ++ more)) fs' c' := by
  induction more generalizing names fs c with
  | nil => exact ⟨[], fs, c, rfl, by rwa [List.append_nil]⟩
  | cons name more ih =>
    have hnew : name ∉ names := fun h =>
      (List.nodup_append.mp hnodup).2.2 name h name List.mem_cons_self rfl
    obtain ⟨reply, fs₁, c₁, hrun, hm₁⟩ := hm.run_createEmpty h5 hn
      (hgood name List.mem_cons_self) hnew (by simp at hlen; omega)
    rw [List.append_cons] at hnodup hlen ⊢
    obtain ⟨replies, fs₂, c₂, hruns, hm₂⟩ := ih hm₁
      (fun x hx => hgood x (List.mem_cons_of_mem _ hx)) hnodup hlen
    refine ⟨reply :: replies, fs₂, c₂, ?_, hm₂⟩
    rw [List.map_cons, FsOp.performAll, Prog.run_bind_done hrun, Prog.run_bind_done hruns]
    rfl

end EmptyFiles

def digits : List Bytes :=
  [bytes "0", bytes "1", bytes "2", bytes "3", bytes "4", bytes "5", bytes "6", bytes "7",
    bytes "8", bytes "9"]

/-- Ten empty files and a delete of the first whose directory write fails after one sector. -/
theorem delete_loses_file : ∃ replies fs s,
    RamDisk.device.Completes (fromFormat true (digits.map (FsOp.createFile · [])))
        ⟨deviceInfo 0, ∅⟩ RamDisk.fresh replies fs s ∧
      ∃ o c, (deleteFile (bytes "0")).run (tornWrites 2048 1 (some .disconnected)) fs
          (RamDisk.device.contents s) = (o, fs, c) ∧
        ¬ KeepsOthers 2048 (FileMap.replay (fun _ => none)
          ((digits.map (FsOp.createFile · [])).zip replies)) (bytes "0") c := by
  have hgood : ∀ name ∈ digits, GoodName name := by decide
  have hadmissible : ∀ op ∈ digits.map (FsOp.createFile · []), op.Admissible := by
    intro op hop
    obtain ⟨name, hname, rfl⟩ := List.mem_map.mp hop
    exact ⟨hgood name hname, by decide⟩
  obtain ⟨replies, entries, fs, s, hc, _, hm, hf, hst⟩ := fromFormat_mounted (n := 2048) (by decide)
    ⟨deviceInfo 0, ∅⟩ true (by decide) RamDisk.device RamDisk.fresh _ hadmissible
  have hentries : entries = emptyFiles digits := by
    obtain ⟨fs₁, c₁, hformat, hm₁, _⟩ := run_fromFormat (n := 2048) (by decide)
      ⟨deviceInfo 0, ∅⟩ (RamDisk.device.contents RamDisk.fresh) true
        (digits.map (FsOp.createFile · []))
    have hm₁ : Mounted 2048 (emptyFiles []) fs₁ c₁ := hm₁
    obtain ⟨replies', fs', c', hcreates, hm'⟩ := hm₁.run_createEmpties (by decide) (by decide)
      hgood (by decide) (by decide)
    have hrun := hc.2
    rw [hformat, hcreates] at hrun
    cases hrun
    exact hm'.unique hm
  subst hentries
  obtain ⟨o, hrun⟩ := hm.run_deleteFile_torn (by decide) (by decide)
    (show bytes "0" ∈ (emptyFiles digits).map Entry.name by decide) 1 (some .disconnected)
  refine ⟨replies, fs, s, hc, o, _, hrun, ?_⟩
  rw [← hf, hm.keepsOthers_torn_iff (by decide) (by decide) hst (by decide)]
  rintro (hzero | hlen | ⟨z, hz, hname⟩ | ⟨a, b, z, ha, hb, hz, _, hname, _⟩)
  · cases hzero
  · exact absurd hlen (by decide)
  · cases hz
    exact absurd hname (by decide)
  · cases ha
    cases hb
    cases hz
    exact absurd hname (by decide)

end OCamlStudy.NanoOs
