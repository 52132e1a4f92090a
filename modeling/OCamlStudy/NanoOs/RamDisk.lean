import OCamlStudy.NanoOs.Block

/-! # The RAM disk

One megabyte of memory as a block device. The bounds check works on `int64` and
lets a negative offset through to `Cstruct.sub`, which raises; in range the RAM
disk is a reliable device.
-/

namespace OCamlStudy.NanoOs

open OCaml Program

structure RamDisk where
  data : Bytes
  info : Block.Info

namespace RamDisk

def sectorSize : ℤ := 512

def connect : Raises RamDisk := do
  let sizeBytes := 1024 * 1024
  let data ← Cstruct.create sizeBytes
  let sizeSectors := wrap64 (sizeBytes / sectorSize)
  return { data, info := { sizeSectors, sectorSize, readWrite := true } }

/-- The offset of a sector in bytes, if the access ends within the data. -/
def checkBounds (t : RamDisk) (sectorStart lenBytes : ℤ) : Except Block.Error ℤ :=
  let offset := wrap64 (sectorStart * wrap64 t.info.sectorSize)
  let totalLen := wrap64 (offset + wrap64 lenBytes)
  if totalLen > wrap64 t.data.length then .error (.outOfBounds sectorStart)
  else .ok (wrap63 offset)

/-- One buffer is read, so the copy loop of the source makes one round. -/
def read (t : RamDisk) (sectorStart : ℤ) (len : ℕ) : Raises (Except Block.Error Bytes) :=
  match t.checkBounds sectorStart len with
  | .error e => return .error e
  | .ok offset => do
    let src ← Cstruct.sub t.data offset len
    let currSrc ← Cstruct.sub src 0 len
    let _nextSrc ← Cstruct.sub src len (src.length - len)
    let dst ← Cstruct.blit currSrc 0 (List.replicate len 0) 0 len
    return .ok dst

def write (t : RamDisk) (sectorStart : ℤ) (buffer : Bytes) :
    Raises (Except Block.Error Unit × RamDisk) :=
  match t.checkBounds sectorStart buffer.length with
  | .error e => return (.error e, t)
  | .ok offset => do
    let dst ← Cstruct.sub t.data offset buffer.length
    let currDst ← Cstruct.sub dst 0 buffer.length
    let _nextDst ← Cstruct.sub dst buffer.length (dst.length - buffer.length)
    let written ← Cstruct.blit buffer 0 currDst 0 buffer.length
    return (.ok (), { t with data := Cstruct.splice t.data offset.toNat written })

def contents (t : RamDisk) : Disk := fun i => t.data.getD i 0

structure Sized (t : RamDisk) : Prop where
  length : t.data.length = 2048 * 512
  info : t.info = ⟨2048, 512, true⟩

section InRange

variable {t : RamDisk} {sector : ℤ} {len : ℕ} {buffer : Bytes}

theorem Sized.checkBounds (ht : t.Sized) (hr : Disk.InRange 2048 sector len) :
    t.checkBounds sector len = .ok (sector * 512) := by
  obtain ⟨h0, hle⟩ := hr
  have hs : wrap64 t.info.sectorSize = 512 := by rw [ht.info]; rfl
  have ho : wrap64 (sector * 512) = sector * 512 := wrap64_eq (by omega) (by omega)
  have hl : wrap64 (len : ℤ) = len := wrap64_eq (by omega) (by omega)
  have ht' : wrap64 (sector * 512 + len) = sector * 512 + len := wrap64_eq (by omega) (by omega)
  have hd : wrap64 (t.data.length : ℤ) = 2048 * 512 := by rw [ht.length]; rfl
  have hw : wrap63 (sector * 512) = sector * 512 := wrap63_eq (by omega) (by omega)
  rw [RamDisk.checkBounds, hs, ho, hl, ht', hd, if_neg (by omega), hw]

theorem contents_read {pos : ℕ} (h : pos + len ≤ t.data.length) :
    t.contents.read pos len = (t.data.drop pos).take len := Disk.ofBytes_read h

theorem contents_splice {pos : ℕ} (h : pos + buffer.length ≤ t.data.length) :
    contents { t with data := Cstruct.splice t.data pos buffer } = t.contents.write pos buffer :=
  Disk.ofBytes_splice h

theorem sub_all (src : Bytes) : Cstruct.sub src 0 src.length = .ok src := by
  have := Cstruct.sub_natCast (b := src) (o := 0) (l := src.length) (by simp)
  simpa using this

theorem sub_end (src : Bytes) : Cstruct.sub src src.length 0 = .ok [] := by
  have := Cstruct.sub_natCast (b := src) (o := src.length) (l := 0) (by simp)
  simpa using this

theorem Sized.sub_data (ht : t.Sized) (hr : Disk.InRange 2048 sector len) :
    Cstruct.sub t.data (sector * 512) len =
      .ok ((t.data.drop (sector.toNat * 512)).take len) := by
  obtain ⟨h0, hle⟩ := hr
  have hlen := ht.length
  have hofs : sector * 512 = (sector.toNat * 512 : ℕ) := by
    push_cast
    rw [Int.toNat_of_nonneg h0]
  rw [hofs]
  exact Cstruct.sub_natCast (by omega)

theorem Sized.read (ht : t.Sized) (hr : Disk.InRange 2048 sector len) :
    t.read sector len = .ok (.ok (t.contents.read (sector.toNat * 512) len)) := by
  have hlen := ht.length
  have hle : sector.toNat * 512 + len ≤ t.data.length := by
    obtain ⟨h0, hle⟩ := hr
    omega
  have hd := ht.sub_data hr
  rw [contents_read hle, RamDisk.read, ht.checkBounds hr]
  dsimp only
  rw [hd, Raises.ok_bind]
  generalize hsrc : (t.data.drop (sector.toNat * 512)).take len = src
  have hl : src.length = len := by
    rw [← hsrc, List.length_take, List.length_drop]
    omega
  subst hl
  rw [sub_all, Raises.ok_bind, sub_self, sub_end, Raises.ok_bind,
    Cstruct.blit_all src _ List.length_replicate]
  rfl

theorem Sized.write (ht : t.Sized) (hr : Disk.InRange 2048 sector buffer.length) :
    t.write sector buffer = .ok (.ok (),
      { t with data := Cstruct.splice t.data (sector.toNat * 512) buffer }) := by
  have hlen := ht.length
  have hd := ht.sub_data hr
  have hofs : (sector * 512).toNat = sector.toNat * 512 := by
    obtain ⟨h0, hle⟩ := hr
    omega
  rw [RamDisk.write, ht.checkBounds hr]
  dsimp only
  rw [hd, Raises.ok_bind]
  generalize hdst : (t.data.drop (sector.toNat * 512)).take buffer.length = dst
  have hl : dst.length = buffer.length := by
    obtain ⟨h0, hle⟩ := hr
    rw [← hdst, List.length_take, List.length_drop]
    omega
  rw [← hl, sub_all, Raises.ok_bind, sub_self, sub_end, Raises.ok_bind, hl,
    Cstruct.blit_all buffer _ hl, hofs]
  rfl

theorem Sized.write_sized (ht : t.Sized) {r : Except Block.Error Unit} {t' : RamDisk}
    (h : t.write sector buffer = .ok (r, t')) : t'.Sized := by
  unfold RamDisk.write at h
  split at h
  · cases h
    exact ht
  · rename_i offset _
    obtain ⟨dst, hdst, h⟩ := Raises.bind_ok h
    obtain ⟨currDst, hcurr, h⟩ := Raises.bind_ok h
    obtain ⟨_, _, h⟩ := Raises.bind_ok h
    obtain ⟨written, hwritten, h⟩ := Raises.bind_ok h
    cases h
    obtain ⟨h0, hle, hl⟩ := Cstruct.sub_ok hdst
    have hcl := (Cstruct.sub_ok hcurr).2.2
    have hwl := Cstruct.blit_ok_length hwritten
    refine ⟨?_, ht.info⟩
    rw [Cstruct.splice_length (by omega), ht.length]

/-- A write keeps the size in its type. -/
def writeSized (t : { t : RamDisk // t.Sized }) (sectorStart : ℤ) (buffer : Bytes) :
    Raises (Except Block.Error Unit × { t : RamDisk // t.Sized }) :=
  match h : t.1.write sectorStart buffer with
  | .ok (r, t') => .ok (r, ⟨t', t.2.write_sized h⟩)
  | .error exn => .error exn

theorem writeSized_ok {t : { t : RamDisk // t.Sized }} {r : Except Block.Error Unit}
    {t' : RamDisk} (h : t.1.write sector buffer = .ok (r, t')) :
    writeSized t sector buffer = .ok (r, ⟨t', t.2.write_sized h⟩) := by
  unfold writeSized
  split
  · rename_i r₁ t₁ h₁
    obtain ⟨rfl, rfl⟩ := Prod.mk.inj (Except.ok.inj (h.symm.trans h₁))
    rfl
  · rename_i exn h₁
    cases h.symm.trans h₁

end InRange

/-- The RAM disk as a device; an exception leaves the data unchanged. -/
def handler : BlockHandler { t : RamDisk // t.Sized }
  | .getInfo, t => (.done t.1.info, t)
  | .read sectorStart len, t =>
    match t.1.read sectorStart len with
    | .ok r => (.done r, t)
    | .error exn => (.raised exn, t)
  | .write sectorStart buffer, t =>
    match writeSized t sectorStart buffer with
    | .ok (r, t) => (.done r, t)
    | .error exn => (.raised exn, t)

theorem handler_write_ok {t t' : { t : RamDisk // t.Sized }} {sector : ℤ} {buffer : Bytes}
    {r : Except Block.Error Unit} (h : writeSized t sector buffer = .ok (r, t')) :
    handler (.write sector buffer) t = (.done r, t') := by
  rw [handler, h]

theorem handler_write_error {t : { t : RamDisk // t.Sized }} {sector : ℤ} {buffer : Bytes}
    {exn : Exn} (h : writeSized t sector buffer = .error exn) :
    handler (.write sector buffer) t = (.raised exn, t) := by
  rw [handler, h]

theorem handler_refines : Refines handler (Disk.handler 2048) fun t => t.1.contents := by
  rintro (_ | ⟨sector, len⟩ | ⟨sector, buffer⟩) t r c h
  · cases h
    exact ⟨t, by rw [handler, t.2.info]; rfl, rfl⟩
  · rw [Disk.handler] at h
    split_ifs at h with hr
    · cases h
      exact ⟨t, by rw [handler, t.2.read hr], rfl⟩
    · cases h
  · rw [Disk.handler] at h
    split_ifs at h with hr
    · cases h
      have hw := t.2.write hr
      have hle : sector.toNat * 512 + buffer.length ≤ t.1.data.length := by
        have := t.2.length
        obtain ⟨h0, hle⟩ := hr
        omega
      exact ⟨⟨_, t.2.write_sized hw⟩, handler_write_ok (writeSized_ok hw), contents_splice hle⟩
    · cases h

def device : Device 2048 where
  State := { t : RamDisk // t.Sized }
  handler := handler
  contents t := t.1.contents
  refines := handler_refines

/-- What `connect` makes: a megabyte of zeros. -/
def fresh : device.State :=
  ⟨⟨List.replicate (2048 * 512) 0, ⟨2048, 512, true⟩⟩, List.length_replicate, rfl⟩

theorem connect_eq : connect = .ok fresh.1 := by
  have hsize : (1024 * 1024 : ℤ) = (2048 * 512 : ℕ) := by norm_num
  rw [connect]
  dsimp only
  rw [hsize, Cstruct.create_natCast, Raises.ok_bind]
  rfl

end RamDisk

end OCamlStudy.NanoOs
