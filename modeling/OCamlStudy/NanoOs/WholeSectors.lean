import OCamlStudy.NanoOs.Boot
import OCamlStudy.NanoOs.FileMap
import OCamlStudy.Program.Within

/-! # Whole sectors

Some block devices only take buffers of whole sectors. Whatever the device answers,
the file system passes it no others.
-/

namespace OCamlStudy.NanoOs

open OCaml Program Prog

def Block.Op.WholeSectors : Block.Op → Prop
  | getInfo => True
  | read _ len => len % 512 = 0
  | write _ buffer => buffer.length % 512 = 0

open Block.Op (WholeSectors)

theorem Block.getInfo_within : (Block.getInfo : FsProg Block.Info).Within WholeSectors :=
  within_perform trivial

theorem Block.read_within {sectorStart : ℤ} {len : ℕ} (h : len % 512 = 0) :
    (Block.read sectorStart len : FsProg _).Within WholeSectors := within_perform h

theorem Block.write_within {sectorStart : ℤ} {buffer : Bytes} (h : buffer.length % 512 = 0) :
    (Block.write sectorStart buffer : FsProg _).Within WholeSectors := within_perform h

theorem putEntry_length {buf buf' : Bytes} {i : ℕ} {entry : Entry}
    (h : putEntry buf i entry = .ok buf') : buf'.length = buf.length := by
  obtain ⟨nameBuf, -, h⟩ := Raises.bind_ok h
  obtain ⟨nameBuf', -, h⟩ := Raises.bind_ok h
  obtain ⟨buf₁, h₁, h⟩ := Raises.bind_ok h
  obtain ⟨buf₂, h₂, h⟩ := Raises.bind_ok h
  calc
    buf'.length = buf₂.length := Cstruct.blit_ok_length h
    _ = buf₁.length := Cstruct.blit_ok_length h₂
    _ = buf.length := Cstruct.blit_ok_length h₁

theorem putEntries_length {buf buf' : Bytes} {i : ℕ} {entries : List Entry}
    (h : putEntries buf i entries = .ok buf') : buf'.length = buf.length := by
  induction entries generalizing buf i with
  | nil =>
    cases h
    rfl
  | cons entry entries ih =>
    obtain ⟨buf₁, h₁, h⟩ := Raises.bind_ok h
    exact (ih h).trans (putEntry_length h₁)

theorem create_length {len : ℕ} {buf : Bytes} (h : Cstruct.create len = .ok buf) :
    buf.length = len := by
  rw [Cstruct.create_natCast] at h
  cases h
  exact List.length_replicate

theorem superblock_length {entries : List Entry} {nextFree : ℤ} {buf : Bytes}
    (h : superblock entries nextFree = .ok buf) : buf.length = directorySectors * 512 := by
  obtain ⟨buf₁, h₁, h⟩ := Raises.bind_ok h
  obtain ⟨buf₂, h₂, h⟩ := Raises.bind_ok h
  obtain ⟨buf₃, h₃, h⟩ := Raises.bind_ok h
  obtain ⟨buf₄, h₄, h⟩ := Raises.bind_ok h
  calc
    buf.length = buf₄.length := putEntries_length h
    _ = buf₃.length := Cstruct.blit_ok_length h₄
    _ = buf₂.length := Cstruct.blit_ok_length h₃
    _ = buf₁.length := Cstruct.blit_ok_length h₂
    _ = directorySectors * 512 := create_length h₁

theorem create_wholeSectors {size : ℤ} {buf : Bytes}
    (h : Cstruct.create (sectorsForSize size * 512) = .ok buf) : buf.length % 512 = 0 := by
  have hsectors := sectorsForSize_nonneg size
  have hlen : sectorsForSize size * 512 = ((sectorsForSize size).toNat * 512 : ℕ) := by
    push_cast
    rw [Int.toNat_of_nonneg hsectors]
  rw [hlen] at h
  rw [create_length h]
  exact Nat.mul_mod_left _ _

theorem readSuperblock_within : readSuperblock.Within WholeSectors := by
  have hlen : directorySectors * 512 % 512 = 0 := Nat.mul_mod_left _ _
  refine (Block.read_within hlen).bind ?_
  rintro (e | buf) <;> simp

theorem writeSuperblock_within (entries : List Entry) (nextFree : ℤ) :
    (writeSuperblock entries nextFree).Within WholeSectors := by
  refine within_ofExcept_bind fun buf hbuf => ?_
  have hlen : buf.length % 512 = 0 := by
    rw [superblock_length hbuf]
    rfl
  refine (Block.write_within hlen).bind ?_
  rintro (e | ⟨⟩)
  · simp
  · refine Within.bind ?_ (by simp)
    exact within_read.bind (by simp)

theorem loadEntries_within : loadEntries.Within WholeSectors := by
  refine readSuperblock_within.bind ?_
  rintro (e | buf)
  · simp
  · exact within_read.bind (by simp)

theorem isFormatted_within : isFormatted.Within WholeSectors := by
  refine readSuperblock_within.bind ?_
  rintro (e | buf)
  · simp
  · exact within_ofExcept_bind (by simp)

theorem connect_within (repair : Bool) : (connect repair).Within WholeSectors := by
  refine Block.getInfo_within.bind fun info => ?_
  refine (within_write _).bind fun _ => ?_
  refine readSuperblock_within.bind ?_
  rintro (e | buf)
  · simp
  · refine within_ofExcept_bind fun magic _ => ?_
    split_ifs
    · simp
    · refine within_read.bind fun fs => within_ofExcept_bind ?_
      rintro (e | ⟨entries, nextFree, dirty⟩) _
      · simp
      · refine Within.bind (within_read.bind (by simp)) fun _ => ?_
        split_ifs
        · exact (writeSuperblock_within entries nextFree).bind (by simp)
        · simp

theorem writeFile_within (filename content : Bytes) :
    (writeFile filename content).Within WholeSectors := by
  refine loadEntries_within.bind ?_
  rintro (e | ⟨entries, nextFree, dirty⟩)
  · simp
  · dsimp only
    split_ifs
    · simp
    · refine within_read.bind fun fs => ?_
      split_ifs
      · simp
      · refine within_ofExcept_bind fun dataBuf hcreate => within_ofExcept_bind fun data hblit => ?_
        have hlen : data.length % 512 = 0 := by
          rw [Cstruct.blit_ok_length hblit]
          exact create_wholeSectors hcreate
        refine (Block.write_within hlen).bind ?_
        rintro (e | ⟨⟩)
        · simp
        · exact writeSuperblock_within _ _

theorem createFile_within (filename content : Bytes) :
    (createFile filename content).Within WholeSectors := by
  refine within_read.bind fun fs => ?_
  split_ifs
  · simp
  · exact writeFile_within filename content

theorem readFile_within (filename : Bytes) : (readFile filename).Within WholeSectors := by
  refine within_read.bind fun fs => ?_
  rcases fs.cache.lookup filename with _ | ⟨start, size⟩
  · simp
  · refine within_ofExcept_bind fun dataBuf hcreate => ?_
    refine (Block.read_within (create_wholeSectors hcreate)).bind ?_
    rintro (e | buf)
    · simp
    · exact within_ofExcept_bind (by simp)

theorem deleteFile_within (filename : Bytes) : (deleteFile filename).Within WholeSectors := by
  refine loadEntries_within.bind ?_
  rintro (e | ⟨entries, nextFree, dirty⟩)
  · simp
  · dsimp only
    split_ifs
    · simp
    · exact writeSuperblock_within _ _

/-- Every operation of the file system. -/
theorem FsOp.perform_within (op : FsOp) : op.perform.Within WholeSectors := by
  cases op with
  | writeFile filename content => exact (writeFile_within filename content).bind (by simp)
  | createFile filename content => exact (createFile_within filename content).bind (by simp)
  | readFile filename => exact (readFile_within filename).bind (by simp)
  | deleteFile filename => exact (deleteFile_within filename).bind (by simp)
  | ls => exact Within.bind (within_read.bind (by simp)) (by simp)
  | connect repair => exact (connect_within repair).bind (by simp)

theorem bootWithDevices_within : bootWithDevices.Within WholeSectors := by
  refine (connect_within true).bind fun _ => isFormatted_within.bind fun formatted => ?_
  split_ifs
  · simp
  · exact (writeSuperblock_within _ _).bind (by simp)

end OCamlStudy.NanoOs
