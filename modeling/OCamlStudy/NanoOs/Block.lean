import OCamlStudy.OCaml.Cstruct
import OCamlStudy.Program.Basic

/-! # Block devices

The operations of a block device, and the device of `n` sectors of 512 bytes that
answers every access in range and stops the machine on any other. A reliable
device agrees with it in range and is otherwise free.
-/

namespace OCamlStudy.NanoOs

open OCaml Program

namespace Block

inductive Error where
  | disconnected
  | isReadOnly
  | outOfBounds (sector : ℤ)
  deriving DecidableEq, Repr

structure Info where
  sizeSectors : ℤ
  sectorSize : ℤ
  readWrite : Bool
  deriving DecidableEq, Repr

/-- A buffer passed to `read` is known by its length, one passed to `write` by its bytes. -/
inductive Op where
  | getInfo
  | read (sectorStart : ℤ) (len : ℕ)
  | write (sectorStart : ℤ) (buffer : Bytes)

/-- What an operation returns; a read that succeeds returns the filled buffer. -/
abbrev Op.Reply : Op → Type
  | getInfo => Info
  | read .. => Except Error Bytes
  | write .. => Except Error Unit

variable {M : Type}

def getInfo : Prog Exn M Op Op.Reply Info := Prog.perform Op.getInfo

def read (sectorStart : ℤ) (len : ℕ) : Prog Exn M Op Op.Reply (Except Error Bytes) :=
  Prog.perform (Op.read sectorStart len)

def write (sectorStart : ℤ) (buffer : Bytes) : Prog Exn M Op Op.Reply (Except Error Unit) :=
  Prog.perform (Op.write sectorStart buffer)

section Run

variable {S : Type} {h : Handler Exn Op Op.Reply S} {m : M} {s s' : S} {sectorStart : ℤ}

theorem run_getInfo {info : Info} (hi : h .getInfo s = (.done info, s')) :
    getInfo.run h m s = (.done info, m, s') :=
  Prog.run_perform hi

theorem run_read {len : ℕ} {r : Except Error Bytes}
    (hr : h (.read sectorStart len) s = (.done r, s')) :
    (read sectorStart len).run h m s = (.done r, m, s') :=
  Prog.run_perform hr

theorem run_write {buffer : Bytes} {r : Except Error Unit}
    (hw : h (.write sectorStart buffer) s = (.done r, s')) :
    (write sectorStart buffer).run h m s = (.done r, m, s') :=
  Prog.run_perform hw

theorem run_write_stopped {buffer : Bytes} (hw : h (.write sectorStart buffer) s = (.stopped, s')) :
    (write sectorStart buffer).run h m s = (.stopped, m, s') :=
  Prog.run_perform_stopped hw

end Run

end Block

open Block (Op)

abbrev BlockHandler (S : Type) := Handler Exn Op Op.Reply S

abbrev Disk := ℕ → UInt8

namespace Disk

variable {c : Disk} {pos pos' len len' : ℕ} {data : Bytes}

def read (c : Disk) (pos len : ℕ) : Bytes := (List.range len).map fun i => c (pos + i)

def write (c : Disk) (pos : ℕ) (data : Bytes) : Disk := fun i =>
  if pos ≤ i ∧ i < pos + data.length then data.getD (i - pos) 0 else c i

@[simp]
theorem read_length : (c.read pos len).length = len := by
  simp [read]

theorem read_getElem (c : Disk) (pos : ℕ) {i : ℕ} (h : i < len) :
    (c.read pos len)[i]? = some (c (pos + i)) := by
  simp [read, h]

theorem read_congr {c' : Disk} (h : ∀ i, pos ≤ i → i < pos + len → c i = c' i) :
    c.read pos len = c'.read pos len := by
  refine List.map_congr_left fun i hi => h _ (Nat.le_add_right _ _) ?_
  exact Nat.add_lt_add_left (List.mem_range.mp hi) pos

theorem write_apply_outside {i : ℕ} (h : i < pos ∨ pos + data.length ≤ i) :
    c.write pos data i = c i :=
  if_neg (by omega)

theorem write_apply_inside {i : ℕ} (h : pos ≤ i) (h' : i < pos + data.length) :
    c.write pos data i = data.getD (i - pos) 0 :=
  if_pos ⟨h, h'⟩

theorem read_write_disjoint (h : pos + len ≤ pos' ∨ pos' + data.length ≤ pos) :
    (c.write pos' data).read pos len = c.read pos len :=
  read_congr fun i _ _ => write_apply_outside (by omega)

theorem read_write_same (c : Disk) (pos : ℕ) (data : Bytes) :
    (c.write pos data).read pos data.length = data := by
  refine List.ext_getElem? fun i => ?_
  rcases Nat.lt_or_ge i data.length with h | h
  · rw [read_getElem _ _ h, write, if_pos ⟨Nat.le_add_right _ _, Nat.add_lt_add_left h pos⟩,
      Nat.add_sub_cancel_left, List.getD_eq_getElem?_getD, List.getElem?_eq_getElem h]
    rfl
  · rw [List.getElem?_eq_none (by simpa using h), List.getElem?_eq_none h]

theorem read_take (h : len ≤ len') : (c.read pos len').take len = c.read pos len := by
  rw [read, ← List.map_take, List.take_range, Nat.min_eq_left h]
  rfl

@[simp]
theorem write_nil : c.write pos [] = c :=
  funext fun _ => write_apply_outside (by simp; omega)

theorem read_append (c : Disk) (pos l l' : ℕ) :
    c.read pos (l + l') = c.read pos l ++ c.read (pos + l) l' := by
  simp only [read, List.range_add, List.map_append, List.map_map]
  congr 1
  apply List.map_congr_left
  intro i _
  simp only [Function.comp_apply, Nat.add_assoc]

theorem write_append (c : Disk) (pos : ℕ) (data data' : Bytes) :
    (c.write pos data).write (pos + data.length) data' = c.write pos (data ++ data') := by
  funext i
  simp only [write, List.length_append, List.getD_eq_getElem?_getD]
  rcases Nat.lt_or_ge i (pos + data.length) with hlt | hge
  · rw [if_neg (by omega)]
    by_cases hpos : pos ≤ i
    · rw [if_pos ⟨hpos, hlt⟩, if_pos ⟨hpos, by omega⟩, List.getElem?_append_left (by omega)]
    · rw [if_neg (by omega), if_neg (by omega)]
  · by_cases hin : i < pos + data.length + data'.length
    · rw [if_pos ⟨hge, hin⟩, if_pos ⟨by omega, by omega⟩, List.getElem?_append_right (by omega),
        Nat.sub_sub]
    · rw [if_neg (by omega), if_neg (by omega), if_neg (by omega)]

def ofBytes (b : Bytes) : Disk := fun i => b.getD i 0

theorem ofBytes_read {b : Bytes} (h : pos + len ≤ b.length) :
    (ofBytes b).read pos len = (b.drop pos).take len := by
  apply List.ext_getElem?
  intro i
  rcases Nat.lt_or_ge i len with hi | hi
  · have hlt : pos + i < b.length := by omega
    rw [Disk.read_getElem _ _ hi, List.getElem?_take_of_lt hi, List.getElem?_drop, ofBytes,
      List.getD_eq_getElem?_getD, List.getElem?_eq_getElem hlt]
    rfl
  · simp [hi]

theorem ofBytes_splice {b : Bytes} (h : pos + data.length ≤ b.length) :
    ofBytes (Cstruct.splice b pos data) = (ofBytes b).write pos data := by
  funext i
  have hp : (b.take pos).length = pos := List.length_take_of_le (by omega)
  simp only [ofBytes, Disk.write, Cstruct.splice, List.getD_eq_getElem?_getD]
  rcases Nat.lt_or_ge i pos with hlt | hge
  · rw [if_neg (by omega), List.append_assoc, List.getElem?_append_left (by omega),
      List.getElem?_take_of_lt hlt]
  · rw [List.append_assoc, List.getElem?_append_right (by omega), hp]
    rcases Nat.lt_or_ge i (pos + data.length) with hlt | hge'
    · rw [if_pos ⟨hge, hlt⟩, List.getElem?_append_left (by omega)]
    · rw [if_neg (by omega), List.getElem?_append_right (by omega), List.getElem?_drop]
      congr 2
      omega

theorem ofBytes_inj {b b' : Bytes} (hl : b.length = b'.length) (h : ofBytes b = ofBytes b') :
    b = b' := by
  apply List.ext_getElem hl
  intro i hi hi'
  have heq := congrFun h i
  simpa [ofBytes, hi, hi'] using heq

def InRange (n : ℕ) (sector : ℤ) (len : ℕ) : Prop := 0 ≤ sector ∧ sector * 512 + len ≤ n * 512

instance (n : ℕ) (sector : ℤ) (len : ℕ) : Decidable (InRange n sector len) :=
  inferInstanceAs (Decidable (_ ∧ _))

/-- The disk of `n` sectors; an access out of range stops the machine. -/
def handler (n : ℕ) : BlockHandler Disk
  | .getInfo, c => (.done ⟨n, 512, true⟩, c)
  | .read sector len, c =>
    if InRange n sector len then (.done (.ok (c.read (sector.toNat * 512) len)), c)
    else (.stopped, c)
  | .write sector buffer, c =>
    if InRange n sector buffer.length then (.done (.ok ()), c.write (sector.toNat * 512) buffer)
    else (.stopped, c)

end Disk

/-- A device of `n` sectors that never fails in range. -/
structure Device (n : ℕ) where
  State : Type
  handler : BlockHandler State
  contents : State → Disk
  refines : Refines handler (Disk.handler n) contents

/-- The disk that allows no access out of range, as a device. -/
def Disk.device (n : ℕ) : Device n where
  State := Disk
  handler := Disk.handler n
  contents := id
  refines _ _ _ c h := ⟨c, h, rfl⟩

namespace Device

variable {n : ℕ} {M α : Type}

/-- The program returns the value on the device, and also on the disk that allows no
access out of range, with the same memory and the same contents afterwards. -/
def Completes (dev : Device n) (p : Prog Exn M Op Op.Reply α) (m : M) (s : dev.State)
    (a : α) (m' : M) (s' : dev.State) : Prop :=
  p.run dev.handler m s = (.done a, m', s') ∧
    p.run (Disk.handler n) m (dev.contents s) = (.done a, m', dev.contents s')

theorem completes (dev : Device n) {p : Prog Exn M Op Op.Reply α} {m m' : M} {s : dev.State}
    {c' : Disk} {a : α} (h : p.run (Disk.handler n) m (dev.contents s) = (.done a, m', c')) :
    ∃ s', dev.Completes p m s a m' s' ∧ dev.contents s' = c' := by
  obtain ⟨s', hs, rfl⟩ := dev.refines.run h
  exact ⟨s', ⟨hs, h⟩, rfl⟩

end Device

end OCamlStudy.NanoOs
