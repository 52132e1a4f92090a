import OCamlStudy.NanoOs.RamDisk

/-! # The RAM disk and lists of buffers

An access moves the bytes between the data and several buffers, which do not
overlap. Both copy loops walk along a view of the data that gets shorter. In range
the buffers are one after the other what is stored; out of range the bounds check
stops only those accesses whose end, taken modulo `2 ^ 64`, is a positive `int64`
beyond the data.
-/

namespace OCamlStudy.NanoOs

open OCaml

namespace RamDisk

def copyOut (src : Bytes) : List Bytes → Raises (List Bytes)
  | [] => return []
  | dst :: rest => do
    let len := dst.length
    let currSrc ← Cstruct.sub src 0 len
    let nextSrc ← Cstruct.sub src len (src.length - len)
    let dst ← Cstruct.blit currSrc 0 dst 0 len
    return dst :: (← copyOut nextSrc rest)

def copyIn (dst : Bytes) : List Bytes → Raises Bytes
  | [] => return dst
  | src :: rest => do
    let len := src.length
    let currDst ← Cstruct.sub dst 0 len
    let nextDst ← Cstruct.sub dst len (dst.length - len)
    let written ← Cstruct.blit src 0 currDst 0 len
    return written ++ (← copyIn nextDst rest)

/-- `read`; an error leaves the buffers as they are. -/
def readBuffers (t : RamDisk) (sectorStart : ℤ) (buffers : List Bytes) :
    Raises (Except Block.Error Unit × List Bytes) := do
  let totalLen ← Cstruct.lenv buffers
  match t.checkBounds sectorStart totalLen with
  | .error e => return (.error e, buffers)
  | .ok offset =>
    let src ← Cstruct.sub t.data offset totalLen
    return (.ok (), ← copyOut src buffers)

/-- `write`; an error leaves the data as it is. -/
def writeBuffers (t : RamDisk) (sectorStart : ℤ) (buffers : List Bytes) :
    Raises (Except Block.Error Unit × RamDisk) := do
  let totalLen ← Cstruct.lenv buffers
  match t.checkBounds sectorStart totalLen with
  | .error e => return (.error e, t)
  | .ok offset =>
    let dst ← Cstruct.sub t.data offset totalLen
    let written ← copyIn dst buffers
    return (.ok (), { t with data := Cstruct.splice t.data offset.toNat written })

theorem sub_views {view : Bytes} {len n : ℕ} (h : view.length = len + n) :
    ∃ curr next, view = curr ++ next ∧ curr.length = len ∧ next.length = n ∧
      Cstruct.sub view 0 len = .ok curr ∧ Cstruct.sub view len (view.length - len) = .ok next := by
  refine ⟨view.take len, view.drop len, (List.take_append_drop _ _).symm, ?_, ?_, ?_⟩
  · rw [List.length_take]
    omega
  · rw [List.length_drop]
    omega
  · have hcurr : (len : ℤ) = (view.take len).length := by
      rw [List.length_take]
      omega
    have hnext : (view.length : ℤ) - len = (view.drop len).length := by
      rw [List.length_drop]
      omega
    have hviews := Cstruct.sub_append hcurr hnext
    rwa [List.take_append_drop] at hviews

/-- **The buffers are filled one after the other** and keep their lengths. -/
theorem copyOut_ok {src : Bytes} {buffers : List Bytes} (h : src.length = buffers.flatten.length) :
    ∃ filled, copyOut src buffers = .ok filled ∧ filled.flatten = src ∧
      filled.map List.length = buffers.map List.length := by
  induction buffers generalizing src with
  | nil => exact ⟨[], rfl, (List.length_eq_zero_iff.mp h).symm, rfl⟩
  | cons dst rest ih =>
    rw [List.flatten_cons, List.length_append] at h
    obtain ⟨curr, next, rfl, hcurr, hnext, hsub, hsub'⟩ := sub_views h
    obtain ⟨filled, hfilled, hflatten, hlengths⟩ := ih hnext
    refine ⟨curr :: filled, ?_, ?_, ?_⟩
    · rw [copyOut, hsub, Raises.ok_bind, hsub', Raises.ok_bind, ← hcurr,
        Cstruct.blit_all curr dst hcurr.symm, Raises.ok_bind, hfilled]
      rfl
    · rw [List.flatten_cons, hflatten]
    · rw [List.map_cons, List.map_cons, hcurr, hlengths]

/-- **The view holds the buffers one after the other.** -/
theorem copyIn_ok {dst : Bytes} {buffers : List Bytes} (h : dst.length = buffers.flatten.length) :
    copyIn dst buffers = .ok buffers.flatten := by
  induction buffers generalizing dst with
  | nil =>
    obtain rfl := List.length_eq_zero_iff.mp h
    rfl
  | cons src rest ih =>
    rw [List.flatten_cons, List.length_append] at h
    obtain ⟨curr, next, rfl, hcurr, hnext, hsub, hsub'⟩ := sub_views h
    rw [copyIn, hsub, Raises.ok_bind, hsub', Raises.ok_bind, Cstruct.blit_all src curr hcurr,
      Raises.ok_bind, ih hnext]
    rfl

section One

variable (t : RamDisk) (sector : ℤ) {buffer : Bytes} (h : buffer.length < 2 ^ 62)

include h

theorem lenv_singleton : Cstruct.lenv [buffer] = .ok (buffer.length : ℤ) := by
  rw [Cstruct.lenv_eq, List.flatten_singleton, if_pos h]
  intro b hb
  rwa [List.mem_singleton.mp hb]

theorem writeBuffers_singleton : t.writeBuffers sector [buffer] = t.write sector buffer := by
  rw [writeBuffers, lenv_singleton h, Raises.ok_bind, write]
  cases t.checkBounds sector buffer.length with
  | error e => rfl
  | ok offset =>
    dsimp only
    cases hsub : Cstruct.sub t.data offset buffer.length with
    | error exn => rfl
    | ok dst =>
      have hlen : dst.length = buffer.length := by
        have := (Cstruct.sub_ok hsub).2.2
        omega
      obtain ⟨curr, next, rfl, hcurr, hnext, hfirst, hrest⟩ := sub_views (n := 0) hlen
      obtain rfl := List.length_eq_zero_iff.mp hnext
      rw [Raises.ok_bind, Raises.ok_bind, hfirst, Raises.ok_bind, hrest, Raises.ok_bind,
        Cstruct.blit_all buffer curr hcurr, Raises.ok_bind, copyIn, hfirst, Raises.ok_bind, hrest,
        Raises.ok_bind, Cstruct.blit_all buffer curr hcurr, Raises.ok_bind, copyIn, pure_bind,
        List.append_nil]
      rfl

theorem readBuffers_singleton : t.readBuffers sector [buffer] =
    t.read sector buffer.length >>= fun r =>
      match r with
      | .error e => .ok (.error e, [buffer])
      | .ok filled => .ok (.ok (), [filled]) := by
  rw [readBuffers, lenv_singleton h, Raises.ok_bind, read]
  cases t.checkBounds sector buffer.length with
  | error e => rfl
  | ok offset =>
    dsimp only
    cases hsub : Cstruct.sub t.data offset buffer.length with
    | error exn => rfl
    | ok src =>
      have hlen : src.length = buffer.length := by
        have := (Cstruct.sub_ok hsub).2.2
        omega
      obtain ⟨curr, next, rfl, hcurr, hnext, hfirst, hrest⟩ := sub_views (n := 0) hlen
      obtain rfl := List.length_eq_zero_iff.mp hnext
      have hblit (dst : Bytes) (hdst : dst.length = curr.length) :
          Cstruct.blit curr 0 dst 0 buffer.length = .ok curr := by
        rw [← hcurr]
        exact Cstruct.blit_all curr dst hdst
      rw [Raises.ok_bind, Raises.ok_bind, hfirst, Raises.ok_bind, hrest, Raises.ok_bind,
        hblit _ (by rw [List.length_replicate, hcurr]), Raises.ok_bind, copyOut, hfirst,
        Raises.ok_bind, hrest, Raises.ok_bind, hblit _ hcurr.symm, Raises.ok_bind]
      rfl

end One

section Access

variable {t : RamDisk} {sector : ℤ} {buffers : List Bytes}

theorem Sized.le_length (ht : t.Sized) {len : ℕ} (hr : Disk.InRange 2048 sector len) :
    sector.toNat * 512 + len ≤ t.data.length := by
  have hlen := ht.length
  obtain ⟨h0, hle⟩ := hr
  omega

theorem lenv_of_le {n : ℕ} (hn : n < 2 ^ 62) (h : buffers.flatten.length ≤ n) :
    Cstruct.lenv buffers = .ok (buffers.flatten.length : ℤ) := by
  rw [Cstruct.lenv_eq, if_pos (by omega)]
  intro b hb
  have hle := (List.sublist_flatten_of_mem hb).length_le
  omega

theorem Sized.length_view (ht : t.Sized)
    (hr : Disk.InRange 2048 sector buffers.flatten.length) :
    ((t.data.drop (sector.toNat * 512)).take buffers.flatten.length).length =
      buffers.flatten.length := by
  have hle := ht.le_length hr
  rw [List.length_take, List.length_drop]
  omega

theorem Sized.readBuffers (ht : t.Sized) (hr : Disk.InRange 2048 sector buffers.flatten.length) :
    ∃ filled, t.readBuffers sector buffers = .ok (.ok (), filled) ∧
      filled.flatten = t.contents.read (sector.toNat * 512) buffers.flatten.length ∧
      filled.map List.length = buffers.map List.length := by
  have hle := ht.le_length hr
  obtain ⟨filled, hfilled, hflatten, hlengths⟩ := copyOut_ok (ht.length_view hr)
  refine ⟨filled, ?_, ?_, hlengths⟩
  · have hlen := ht.length
    rw [RamDisk.readBuffers, lenv_of_le (n := 2048 * 512) (by decide) (by omega), Raises.ok_bind,
      ht.checkBounds hr]
    dsimp only
    rw [ht.sub_data hr, Raises.ok_bind, hfilled]
    rfl
  · rw [hflatten, contents_read hle]

theorem Sized.writeBuffers (ht : t.Sized) (hr : Disk.InRange 2048 sector buffers.flatten.length) :
    t.writeBuffers sector buffers = .ok (.ok (),
      { t with data := Cstruct.splice t.data (sector.toNat * 512) buffers.flatten }) := by
  have hle := ht.le_length hr
  have hofs : (sector * 512).toNat = sector.toNat * 512 := by
    obtain ⟨h0, -⟩ := hr
    omega
  have hlen := ht.length
  rw [RamDisk.writeBuffers, lenv_of_le (n := 2048 * 512) (by decide) (by omega), Raises.ok_bind,
    ht.checkBounds hr]
  dsimp only
  rw [ht.sub_data hr, Raises.ok_bind, copyIn_ok (ht.length_view hr), Raises.ok_bind, hofs]
  rfl

/-- **A list of buffers is its concatenation**: the bytes that one split writes are stored in
order, nothing else changes, and any other split reads them. -/
theorem scatter_gather (ht : t.Sized) (h0 : 0 ≤ sector)
    (hle : sector * 512 + buffers.flatten.length ≤ 2 ^ 20) :
    (∃ t', t.writeBuffers sector buffers = .ok (.ok (), t') ∧ t'.Sized ∧
      t'.contents = t.contents.write (sector.toNat * 512) buffers.flatten ∧
      ∀ buffers' : List Bytes, buffers'.flatten.length = buffers.flatten.length →
        ∃ filled, t'.readBuffers sector buffers' = .ok (.ok (), filled) ∧
          filled.map List.length = buffers'.map List.length ∧ filled.flatten = buffers.flatten) ∧
    ∃ filled, t.readBuffers sector buffers = .ok (.ok (), filled) ∧
      filled.map List.length = buffers.map List.length ∧
      filled.flatten = t.contents.read (sector.toNat * 512) buffers.flatten.length := by
  have hr : Disk.InRange 2048 sector buffers.flatten.length := ⟨h0, by omega⟩
  have hdata := ht.le_length hr
  constructor
  · have hcontents := contents_splice hdata
    have ht' :
        Sized { t with data := Cstruct.splice t.data (sector.toNat * 512) buffers.flatten } :=
      ⟨(Cstruct.splice_length hdata).trans ht.length, ht.info⟩
    refine ⟨_, ht.writeBuffers hr, ht', hcontents, ?_⟩
    intro buffers' hlength
    obtain ⟨filled, hread, hflatten, hlengths⟩ := ht'.readBuffers (hlength.symm ▸ hr)
    refine ⟨filled, hread, hlengths, ?_⟩
    rw [hflatten, hcontents, hlength, Disk.read_write_same]
  · obtain ⟨filled, hread, hflatten, hlengths⟩ := ht.readBuffers hr
    exact ⟨filled, hread, hlengths, hflatten⟩

end Access

/-- In the last sector. -/
theorem scatter_gather_last :
    (∃ t', fresh.1.writeBuffers 2047 [bytes "ab", [], bytes "c"] = .ok (.ok (), t') ∧ t'.Sized ∧
      t'.contents = fresh.1.contents.write (2047 * 512) (bytes "abc") ∧
      ∀ buffers' : List Bytes, buffers'.flatten.length = 3 →
        ∃ filled, t'.readBuffers 2047 buffers' = .ok (.ok (), filled) ∧
          filled.map List.length = buffers'.map List.length ∧ filled.flatten = bytes "abc") ∧
    ∃ filled, fresh.1.readBuffers 2047 [bytes "ab", [], bytes "c"] = .ok (.ok (), filled) ∧
      filled.map List.length = [2, 0, 1] ∧
      filled.flatten = fresh.1.contents.read (2047 * 512) 3 :=
  scatter_gather fresh.2 (by decide) (by decide)

section Access

variable {t : RamDisk} {sector : ℤ} {buffers : List Bytes}

/-- The access succeeds in range, and is refused without any effect out of range. -/
def BoundsEnforced (t : RamDisk) (sector : ℤ) (buffers : List Bytes) : Prop :=
  (Disk.InRange 2048 sector buffers.flatten.length →
    (∃ filled, t.readBuffers sector buffers = .ok (.ok (), filled)) ∧
      ∃ t', t.writeBuffers sector buffers = .ok (.ok (), t')) ∧
  (¬ Disk.InRange 2048 sector buffers.flatten.length →
    t.readBuffers sector buffers = .ok (.error (.outOfBounds sector), buffers) ∧
      t.writeBuffers sector buffers = .ok (.error (.outOfBounds sector), t))

theorem Sized.checkBounds_eq (ht : t.Sized) (len : ℤ) : t.checkBounds sector len =
    if 2 ^ 20 < wrap64 (sector * 512 + len) then .error (.outOfBounds sector)
    else .ok (wrap63 (wrap64 (sector * 512))) := by
  have hs : wrap64 t.info.sectorSize = 512 := by
    rw [ht.info]
    rfl
  have hd : wrap64 (t.data.length : ℤ) = 2 ^ 20 := by
    rw [ht.length]
    rfl
  have hsum : wrap64 (wrap64 (sector * 512) + wrap64 len) = wrap64 (sector * 512 + len) := by
    unfold wrap64
    omega
  rw [RamDisk.checkBounds, hs, hd, hsum]

theorem lt_wrap64_iff {n : ℤ} : 2 ^ 20 < wrap64 n ↔ 2 ^ 20 < n % 2 ^ 64 ∧ n % 2 ^ 64 < 2 ^ 63 := by
  unfold wrap64
  omega

/-- **The bounds are enforced on the accesses in range and on those whose end, modulo `2 ^ 64`,
is beyond the data and no negative `int64`.** -/
theorem boundsEnforced_iff (ht : t.Sized) (hbuffers : ∀ b ∈ buffers, b.length < 2 ^ 62) :
    t.BoundsEnforced sector buffers ↔ buffers.flatten.length < 2 ^ 62 ∧
      (Disk.InRange 2048 sector buffers.flatten.length ∨
        2 ^ 20 < (sector * 512 + buffers.flatten.length) % 2 ^ 64 ∧
          (sector * 512 + buffers.flatten.length) % 2 ^ 64 < 2 ^ 63) := by
  have hlenv := Cstruct.lenv_eq hbuffers
  constructor
  · rintro ⟨-, herror⟩
    by_cases hr : Disk.InRange 2048 sector buffers.flatten.length
    · refine ⟨?_, .inl hr⟩
      obtain ⟨h0, hle⟩ := hr
      omega
    · obtain ⟨hread, -⟩ := herror hr
      rw [RamDisk.readBuffers, hlenv] at hread
      split_ifs at hread with hlen
      swap
      · cases hread
      rw [Raises.ok_bind] at hread
      rw [ht.checkBounds_eq] at hread
      split_ifs at hread with hend
      · exact ⟨hlen, .inr (lt_wrap64_iff.mp hend)⟩
      · obtain ⟨src, -, hread⟩ := Raises.bind_ok hread
        obtain ⟨filled, -, hread⟩ := Raises.bind_ok hread
        cases hread
  · rintro ⟨hlen, hcond⟩
    refine ⟨fun hr => ⟨?_, _, ht.writeBuffers hr⟩, fun hr => ?_⟩
    · obtain ⟨filled, hread, -⟩ := ht.readBuffers hr
      exact ⟨filled, hread⟩
    · have hend := lt_wrap64_iff.mpr (hcond.resolve_left hr)
      rw [RamDisk.readBuffers, RamDisk.writeBuffers, hlenv, if_pos hlen, Raises.ok_bind,
        Raises.ok_bind, ht.checkBounds_eq, if_pos hend]
      exact ⟨rfl, rfl⟩

end Access

/-- Three buffers in the last sector. -/
theorem boundsEnforced_iff_last :
    fresh.1.BoundsEnforced 2047 [bytes "ab", [], bytes "c"] ↔ 3 < 2 ^ 62 ∧
      (Disk.InRange 2048 2047 3 ∨
        2 ^ 20 < (2047 * 512 + (3 : ℕ) : ℤ) % 2 ^ 64 ∧
          (2047 * 512 + (3 : ℕ) : ℤ) % 2 ^ 64 < 2 ^ 63) :=
  boundsEnforced_iff fresh.2 (by decide)

/-- The byte offset of sector `2 ^ 55` wraps to zero, and the write changes sector zero. -/
theorem writeBuffers_wraps :
    ¬ fresh.1.BoundsEnforced (2 ^ 55) [bytes "x"] ∧
      ∃ t', fresh.1.writeBuffers (2 ^ 55) [bytes "x"] = .ok (.ok (), t') ∧ t'.contents 0 = 120 := by
  have hcheck : fresh.1.checkBounds (2 ^ 55) 1 = fresh.1.checkBounds 0 1 := by
    rw [fresh.2.checkBounds_eq, fresh.2.checkBounds_eq]
    decide
  have hsame : fresh.1.writeBuffers (2 ^ 55) [bytes "x"] = fresh.1.writeBuffers 0 [bytes "x"] := by
    have hlenv : Cstruct.lenv [bytes "x"] = .ok 1 := by decide
    rw [writeBuffers, writeBuffers, hlenv, Raises.ok_bind, Raises.ok_bind, hcheck]
  have hr : Disk.InRange 2048 0 [bytes "x"].flatten.length := by decide
  have hwrite := fresh.2.writeBuffers hr
  rw [← hsame] at hwrite
  refine ⟨?_, _, hwrite, ?_⟩
  · rintro ⟨-, herror⟩
    obtain ⟨-, hrefused⟩ := herror (by decide)
    cases hwrite.symm.trans hrefused
  · rw [contents_splice (fresh.2.le_length hr)]
    rfl

end RamDisk

end OCamlStudy.NanoOs
