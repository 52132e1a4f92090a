import OCamlStudy.NanoOs.WholeSectors

/-! # The block device of the Mirage build

The driver for Solo5 moves a buffer block by block, one hypercall each, and stops at
the first one that fails; the adapter hides its errors. The hypercalls themselves are
a parameter: of a block in its entirety they are assumed to do what is asked, and
here some of them are not answered.
-/

namespace OCamlStudy.Mirage

open OCaml Program NanoOs

namespace Solo5

/-- `solo5_result` without `SOLO5_R_OK` and without `SOLO5_R_AGAIN`, which is not returned. -/
inductive Result where
  | einval
  | eunspec
  deriving DecidableEq, Repr

/-- A buffer passed to a read is known by its length. -/
inductive Hypercall where
  | blockRead (offset : ℤ) (size : ℕ)
  | blockWrite (offset : ℤ) (buf : Bytes)

abbrev Hypercall.Reply : Hypercall → Type
  | blockRead .. => Except Result Bytes
  | blockWrite .. => Except Result Unit

inductive Block.Error where
  | invalidArgument
  | unspecifiedError
  | bufferAlignment
  deriving DecidableEq, Repr

def Block.Error.ofResult : Result → Block.Error
  | .einval => .invalidArgument
  | .eunspec => .unspecifiedError

abbrev Driver := Prog Exn Unit Hypercall Hypercall.Reply

structure Block where
  sizeSectors : ℤ
  sectorSize : ℕ
  sectorSize_pos : 0 < sectorSize

namespace Block

def connect (capacity : ℕ) (blockSize : ℕ) (h : 0 < blockSize) : Block where
  sizeSectors := wrap64 (capacity / blockSize)
  sectorSize := blockSize
  sectorSize_pos := h

variable (x : Block)

def doWrite1 (offset : ℤ) (b : Bytes) : Driver (Except Error Unit) := do
  match ← Prog.perform (Hypercall.blockWrite offset b) with
  | .ok () => return .ok ()
  | .error r => return .error (.ofResult r)

/-- The current Solo5 implementation limits max I/O size to the size of a sector. -/
def doWrite (offset : ℤ) : List Bytes → Driver (Except Error Unit)
  | [] => return .ok ()
  | b :: bs => do
    let size := min b.length x.sectorSize
    let newOffset := wrap64 (offset + wrap64 size)
    match ← doWrite1 offset (b.take size) with
    | .error e => return .error e
    | .ok () =>
      if b.drop size = [] then doWrite newOffset bs else doWrite newOffset (b.drop size :: bs)
  termination_by buffers => buffers.flatten.length + buffers.length
  decreasing_by
    · simp
      omega
    · have := x.sectorSize_pos
      have : b.drop size ≠ [] := by assumption
      have := List.length_pos_iff.mpr this
      simp only [List.length_drop, List.flatten_cons, List.length_append, List.length_cons] at *
      omega

def doRead1 (offset : ℤ) (size : ℕ) : Driver (Except Error Bytes) := do
  match ← Prog.perform (Hypercall.blockRead offset size) with
  | .ok bytes => return .ok bytes
  | .error r => return .error (.ofResult r)

/-- The buffers are filled one after another, with the bytes that are read so far. -/
def doRead (offset : ℤ) (filled : Bytes) : List ℕ → Driver (Except Error Bytes)
  | [] => return .ok filled
  | len :: lens => do
    let size := min len x.sectorSize
    let newOffset := wrap64 (offset + wrap64 size)
    match ← doRead1 offset size with
    | .error e => return .error e
    | .ok bytes =>
      if len - size = 0 then doRead newOffset (filled ++ bytes) lens
      else doRead newOffset (filled ++ bytes) ((len - size) :: lens)
  termination_by lens => lens.sum + lens.length
  decreasing_by
    · simp
      omega
    · have := x.sectorSize_pos
      simp only [List.sum_cons, List.length_cons]
      omega

def write (sectorStart : ℤ) (buffers : List Bytes) : Driver (Except Error Unit) :=
  let offset := wrap64 (sectorStart * wrap64 x.sectorSize)
  if buffers.all fun b => b.length % x.sectorSize = 0 then x.doWrite offset buffers
  else return .error .bufferAlignment

def read (sectorStart : ℤ) (lens : List ℕ) : Driver (Except Error Bytes) :=
  let offset := wrap64 (sectorStart * wrap64 x.sectorSize)
  if lens.all fun len => len % x.sectorSize = 0 then x.doRead offset [] lens
  else return .error .bufferAlignment

end Block

end Solo5

namespace BlockAdapter

open Solo5 (Driver)

variable (dev : Solo5.Block)

def getInfo : NanoOs.Block.Info := ⟨dev.sizeSectors, dev.sectorSize, true⟩

def read (sectorStart : ℤ) (lens : List ℕ) : Driver (Except NanoOs.Block.Error Bytes) := do
  match ← dev.read sectorStart lens with
  | .ok bytes => return .ok bytes
  | .error _ => return .error .disconnected

def write (sectorStart : ℤ) (buffers : List Bytes) : Driver (Except NanoOs.Block.Error Unit) := do
  match ← dev.write sectorStart buffers with
  | .ok () => return .ok ()
  | .error _ => return .error .disconnected

/-- The adapter as the file system calls it, with one buffer. -/
def handler {S : Type} (h : Handler Exn Solo5.Hypercall Solo5.Hypercall.Reply S) : BlockHandler S
  | .getInfo, s => (.done (getInfo dev), s)
  | .read sectorStart len, s =>
    match (read dev sectorStart [len]).run h () s with
    | (o, _, s) => (o, s)
  | .write sectorStart buffer, s =>
    match (write dev sectorStart [buffer]).run h () s with
    | (o, _, s) => (o, s)

end BlockAdapter

namespace Solo5

/-- A transfer of one block at a block's start, or of none, on `n` blocks of 512 bytes. -/
def Whole (n offset size : ℕ) : Prop :=
  offset % 512 = 0 ∧ (size = 0 ∨ size = 512) ∧ offset + size ≤ n * 512

instance (n offset size : ℕ) : Decidable (Whole n offset size) :=
  inferInstanceAs (Decidable (_ ∧ _))

/-- `solo5_block_read` and `solo5_block_write` move such a transfer in its entirety. -/
structure Serves (n : ℕ) (solo5 : Handler Exn Hypercall Hypercall.Reply Disk) : Prop where
  blockRead : ∀ (c : Disk) (offset size : ℕ), Whole n offset size →
    solo5 (.blockRead offset size) c = (.done (.ok (c.read offset size)), c)
  blockWrite : ∀ (c : Disk) (offset : ℕ) (buf : Bytes), Whole n offset buf.length →
    solo5 (.blockWrite offset buf) c = (.done (.ok ()), c.write offset buf)

def Hypercall.refused (r : Result) : (q : Hypercall) → q.Reply
  | .blockRead .. | .blockWrite .. => .error r

/-- The hypercalls, of which so many are made and all if there is no number; the next one returns
an error or stops the machine. -/
def failing (solo5 : Handler Exn Hypercall Hypercall.Reply Disk) (r : Option Result)
    (q : Hypercall) (s : Disk × Option ℕ) : Outcome Exn q.Reply × (Disk × Option ℕ) :=
  if s.2 = some 0 then
    match r with
    | some r => (.done (q.refused r), s)
    | none => (.stopped, s)
  else
    match solo5 q s.1 with
    | (o, c) => (o, (c, s.2.map (· - 1)))

def device (n : ℕ) : Block := .connect (n * 512) 512 (by decide)

end Solo5

def machine (n : ℕ) (solo5 : Handler Exn Solo5.Hypercall Solo5.Hypercall.Reply Disk)
    (r : Option Solo5.Result) : BlockHandler (Disk × Option ℕ) :=
  BlockAdapter.handler (Solo5.device n) (Solo5.failing solo5 r)

namespace Solo5

def Covers (left : Option ℕ) (k : ℕ) : Prop := ∀ m, left = some m → k ≤ m

theorem Covers.of_le {left : Option ℕ} {k m : ℕ} (h : Covers left k) (hle : m ≤ k) :
    Covers left m := fun l hl => hle.trans (h l hl)

theorem Covers.rest {left : Option ℕ} {k m : ℕ} (h : Covers left (k + m)) :
    Covers (left.map (· - k)) m := by
  intro l hl
  obtain ⟨l', hl', rfl⟩ := Option.map_eq_some_iff.mp hl
  have := h l' hl'
  omega

theorem Covers.ne_zero {left : Option ℕ} (h : Covers left 1) : left ≠ some 0 := by
  intro hzero
  have := h 0 hzero
  omega

theorem failing_eq {solo5 : Handler Exn Hypercall Hypercall.Reply Disk} {r : Option Result}
    {left : Option ℕ} (h : left ≠ some 0) (q : Hypercall) (c : Disk) :
    failing solo5 r q (c, left) = ((solo5 q c).1, ((solo5 q c).2, left.map (· - 1))) := if_neg h

/-- A buffer of no bytes takes a hypercall, too. -/
def hypercalls (len : ℕ) : ℕ := max 1 (len / 512)

namespace Block

section Run

variable {n : ℕ} {solo5 : Handler Exn Hypercall Hypercall.Reply Disk} {r : Option Result} {c : Disk}
  {left : Option ℕ} {pos : ℕ} {buf : Bytes}

theorem run_doWrite1 (hs : Serves n solo5) (hleft : Covers left 1)
    (hwhole : Whole n pos buf.length) :
    (doWrite1 pos buf).run (failing solo5 r) () (c, left) =
      (.done (.ok ()), (), (c.write pos buf, left.map (· - 1))) := by
  have hcall : failing solo5 r (.blockWrite pos buf) (c, left) =
      (.done (.ok ()), (c.write pos buf, left.map (· - 1))) := by
    rw [failing_eq hleft.ne_zero, hs.blockWrite c pos buf hwhole]
  rw [doWrite1, Prog.run_bind_done (Prog.run_perform hcall)]
  rfl

def failed {α : Type} : Option Result → Outcome Exn (Except Error α)
  | some r => .done (.error (.ofResult r))
  | none => .stopped

theorem run_doWrite1_fails (solo5 : Handler Exn Hypercall Hypercall.Reply Disk) (r : Option Result)
    (c : Disk) (pos : ℤ) (buf : Bytes) :
    (doWrite1 pos buf).run (failing solo5 r) () (c, some 0) = (failed r, (), (c, some 0)) := by
  cases r with
  | none =>
    have hcall : failing solo5 none (.blockWrite pos buf) (c, some 0) = (.stopped, (c, some 0)) :=
      rfl
    rw [doWrite1, Prog.run_bind_stopped (Prog.run_perform_stopped hcall), failed]
  | some r =>
    have hcall : failing solo5 (some r) (.blockWrite pos buf) (c, some 0) =
        (.done (.error r), (c, some 0)) := rfl
    rw [doWrite1, Prog.run_bind_done (Prog.run_perform hcall)]
    rfl

theorem run_doWrite_last (hs : Serves n solo5) (hleft : Covers left 1)
    (hwhole : Whole n pos buf.length) :
    ((device n).doWrite pos [buf]).run (failing solo5 r) () (c, left) =
      (.done (.ok ()), (), (c.write pos buf, left.map (· - 1))) := by
  have hlen := hwhole.2.1
  have hsize : min buf.length (device n).sectorSize = buf.length := by
    refine min_eq_left ?_
    change buf.length ≤ 512
    omega
  rw [doWrite, hsize, List.take_length, List.drop_length,
    Prog.run_bind_done (run_doWrite1 hs hleft hwhole)]
  dsimp only
  rw [if_pos rfl, doWrite]
  rfl

theorem next_offset (h : pos + 512 < 2 ^ 63) :
    wrap64 (pos + wrap64 (512 : ℕ)) = (pos + 512 : ℕ) := by
  have hsector : wrap64 (512 : ℕ) = 512 := rfl
  rw [hsector, wrap64_eq (by omega) (by omega)]
  push_cast
  rfl

theorem run_doWrite_more (hs : Serves n solo5) (hn : n < 2 ^ 31) (hleft : Covers left 1)
    (hpos : pos % 512 = 0)
    (hfits : pos + buf.length ≤ n * 512) (hmore : 512 < buf.length) :
    ((device n).doWrite pos [buf]).run (failing solo5 r) () (c, left) =
      ((device n).doWrite (pos + 512 : ℕ) [buf.drop 512]).run (failing solo5 r) ()
        (c.write pos (buf.take 512), left.map (· - 1)) := by
  have hsize : min buf.length (device n).sectorSize = 512 := min_eq_right hmore.le
  have htake : (buf.take 512).length = 512 := List.length_take_of_le hmore.le
  have hwhole : Whole n pos (buf.take 512).length := by
    rw [htake]
    exact ⟨hpos, .inr rfl, by omega⟩
  have hdrop : buf.drop 512 ≠ [] := by
    rw [← List.length_pos_iff, List.length_drop]
    omega
  rw [doWrite, hsize, Prog.run_bind_done (run_doWrite1 hs hleft hwhole)]
  dsimp only
  rw [if_neg hdrop, next_offset (by omega)]

theorem map_sub_sub (left : Option ℕ) (k m : ℕ) :
    (left.map (· - k)).map (· - m) = left.map (· - (k + m)) := by
  cases left with
  | none => rfl
  | some l => simp [Nat.sub_sub]

theorem hypercalls_more (hmore : 512 < buf.length) (hlen : buf.length % 512 = 0) :
    hypercalls buf.length = 1 + hypercalls (buf.drop 512).length := by
  rw [hypercalls, hypercalls, List.length_drop]
  omega

theorem run_doWrite (hs : Serves n solo5) (hn : n < 2 ^ 31)
    (hleft : Covers left (hypercalls buf.length))
    (hpos : pos % 512 = 0) (hlen : buf.length % 512 = 0) (hfits : pos + buf.length ≤ n * 512) :
    ((device n).doWrite pos [buf]).run (failing solo5 r) () (c, left) =
      (.done (.ok ()), (), (c.write pos buf, left.map (· - hypercalls buf.length))) := by
  induction hm : buf.length / 512 generalizing pos buf c left with
  | zero =>
    have hone : hypercalls buf.length = 1 := by rw [hypercalls, hm]; rfl
    rw [hone] at hleft ⊢
    exact run_doWrite_last hs hleft ⟨hpos, by omega, hfits⟩
  | succ m ih =>
    rcases Nat.lt_or_ge 512 buf.length with hmore | hlast
    · have hcount := hypercalls_more hmore hlen
      have hdrop : (buf.drop 512).length = buf.length - 512 := List.length_drop
      have htake : (buf.take 512).length = 512 := List.length_take_of_le hmore.le
      rw [hcount] at hleft ⊢
      rw [run_doWrite_more hs hn (hleft.of_le (by omega)) hpos hfits hmore,
        ih hleft.rest (by omega) (by omega) (by omega) (by omega), map_sub_sub]
      have hwrite := c.write_append pos (buf.take 512) (buf.drop 512)
      rw [htake, List.take_append_drop] at hwrite
      rw [hwrite]
    · have hone : hypercalls buf.length = 1 := by rw [hypercalls]; omega
      rw [hone] at hleft ⊢
      exact run_doWrite_last hs hleft ⟨hpos, by omega, hfits⟩

theorem run_doWrite_fails (hs : Serves n solo5) (hn : n < 2 ^ 31) {k : ℕ}
    (hk : k < hypercalls buf.length)
    (hpos : pos % 512 = 0) (hlen : buf.length % 512 = 0) (hfits : pos + buf.length ≤ n * 512) :
    ((device n).doWrite pos [buf]).run (failing solo5 r) () (c, some k) =
      (failed r, (), (c.write pos (buf.take (512 * k)), some 0)) := by
  induction k generalizing pos buf c with
  | zero =>
    rw [doWrite, Nat.mul_zero, List.take_zero, Disk.write_nil]
    have hfirst := run_doWrite1_fails solo5 r c pos
      (buf.take (min buf.length (device n).sectorSize))
    cases r with
    | none => rw [Prog.run_bind_stopped hfirst, failed]
    | some r =>
      rw [failed] at hfirst
      rw [Prog.run_bind_done hfirst]
      rfl
  | succ k ih =>
    have hmore : 512 < buf.length := by
      rw [hypercalls] at hk
      omega
    have hcount := hypercalls_more hmore hlen
    have hdrop : (buf.drop 512).length = buf.length - 512 := List.length_drop
    have htake : (buf.take 512).length = 512 := List.length_take_of_le hmore.le
    have hcovers : Covers (some (k + 1)) 1 := by
      rintro m ⟨⟩
      omega
    have hleft : (some (k + 1)).map (· - 1) = some k := rfl
    rw [run_doWrite_more hs hn hcovers hpos hfits hmore, hleft,
      ih (by omega) (by omega) (by omega) (by omega)]
    have hwrite := c.write_append pos (buf.take 512) ((buf.drop 512).take (512 * k))
    have hcut : 512 * (k + 1) = 512 + 512 * k := by ring
    rw [htake, ← List.take_add, ← hcut] at hwrite
    rw [hwrite]

theorem run_doRead1 {size : ℕ} (hs : Serves n solo5) (hleft : Covers left 1)
    (hwhole : Whole n pos size) : (doRead1 pos size).run (failing solo5 r) () (c, left) =
      (.done (.ok (c.read pos size)), (), (c, left.map (· - 1))) := by
  have hcall : failing solo5 r (.blockRead pos size) (c, left) =
      (.done (.ok (c.read pos size)), (c, left.map (· - 1))) := by
    rw [failing_eq hleft.ne_zero, hs.blockRead c pos size hwhole]
  rw [doRead1, Prog.run_bind_done (Prog.run_perform hcall)]
  rfl

theorem run_doRead1_fails (solo5 : Handler Exn Hypercall Hypercall.Reply Disk) (r : Option Result)
    (c : Disk) (pos : ℤ) (size : ℕ) :
    (doRead1 pos size).run (failing solo5 r) () (c, some 0) = (failed r, (), (c, some 0)) := by
  cases r with
  | none =>
    have hcall : failing solo5 none (.blockRead pos size) (c, some 0) = (.stopped, (c, some 0)) :=
      rfl
    rw [doRead1, Prog.run_bind_stopped (Prog.run_perform_stopped hcall), failed]
  | some r =>
    have hcall : failing solo5 (some r) (.blockRead pos size) (c, some 0) =
        (.done (.error r), (c, some 0)) := rfl
    rw [doRead1, Prog.run_bind_done (Prog.run_perform hcall)]
    rfl

variable {filled : Bytes} {len : ℕ}

theorem run_doRead_last (hs : Serves n solo5) (hleft : Covers left 1) (hwhole : Whole n pos len) :
    ((device n).doRead pos filled [len]).run (failing solo5 r) () (c, left) =
      (.done (.ok (filled ++ c.read pos len)), (), (c, left.map (· - 1))) := by
  have hlen := hwhole.2.1
  have hsize : min len (device n).sectorSize = len := by
    refine min_eq_left ?_
    change len ≤ 512
    omega
  rw [doRead, hsize, Prog.run_bind_done (run_doRead1 hs hleft hwhole)]
  dsimp only
  rw [if_pos (Nat.sub_self len), doRead]
  rfl

theorem run_doRead_more (hs : Serves n solo5) (hn : n < 2 ^ 31) (hleft : Covers left 1)
    (hpos : pos % 512 = 0)
    (hfits : pos + len ≤ n * 512) (hmore : 512 < len) :
    ((device n).doRead pos filled [len]).run (failing solo5 r) () (c, left) =
      ((device n).doRead (pos + 512 : ℕ) (filled ++ c.read pos 512) [len - 512]).run
        (failing solo5 r) () (c, left.map (· - 1)) := by
  have hsize : min len (device n).sectorSize = 512 := min_eq_right hmore.le
  have hwhole : Whole n pos 512 := ⟨hpos, .inr rfl, by omega⟩
  rw [doRead, hsize, Prog.run_bind_done (run_doRead1 hs hleft hwhole)]
  dsimp only
  rw [if_neg (by omega), next_offset (by omega)]

theorem run_doRead (hs : Serves n solo5) (hn : n < 2 ^ 31) (hleft : Covers left (hypercalls len))
    (hpos : pos % 512 = 0)
    (hlen : len % 512 = 0) (hfits : pos + len ≤ n * 512) :
    ((device n).doRead pos filled [len]).run (failing solo5 r) () (c, left) =
      (.done (.ok (filled ++ c.read pos len)), (), (c, left.map (· - hypercalls len))) := by
  induction hm : len / 512 generalizing pos filled len left with
  | zero =>
    have hone : hypercalls len = 1 := by rw [hypercalls, hm]; rfl
    rw [hone] at hleft ⊢
    exact run_doRead_last hs hleft ⟨hpos, by omega, hfits⟩
  | succ m ih =>
    rcases Nat.lt_or_ge 512 len with hmore | hlast
    · have hcount : hypercalls len = 1 + hypercalls (len - 512) := by
        rw [hypercalls, hypercalls]
        omega
      rw [hcount] at hleft ⊢
      rw [run_doRead_more hs hn (hleft.of_le (by omega)) hpos hfits hmore,
        ih hleft.rest (by omega) (by omega) (by omega) (by omega), map_sub_sub, List.append_assoc,
        ← Disk.read_append, Nat.add_sub_cancel' hmore.le]
    · have hone : hypercalls len = 1 := by rw [hypercalls]; omega
      rw [hone] at hleft ⊢
      exact run_doRead_last hs hleft ⟨hpos, by omega, hfits⟩

theorem run_doRead_fails (hs : Serves n solo5) (hn : n < 2 ^ 31) {k : ℕ} (hk : k < hypercalls len)
    (hpos : pos % 512 = 0) (hlen : len % 512 = 0) (hfits : pos + len ≤ n * 512) :
    ((device n).doRead pos filled [len]).run (failing solo5 r) () (c, some k) =
      (failed r, (), (c, some 0)) := by
  induction k generalizing pos filled len with
  | zero =>
    have hfirst := run_doRead1_fails solo5 r c pos (min len (device n).sectorSize)
    rw [doRead]
    cases r with
    | none => rw [Prog.run_bind_stopped hfirst, failed]
    | some r =>
      rw [failed] at hfirst
      rw [Prog.run_bind_done hfirst]
      rfl
  | succ k ih =>
    have hmore : 512 < len := by
      rw [hypercalls] at hk
      omega
    have hcount : hypercalls len = 1 + hypercalls (len - 512) := by
      rw [hypercalls, hypercalls]
      omega
    have hcovers : Covers (some (k + 1)) 1 := by
      rintro m ⟨⟩
      omega
    have hleft : (some (k + 1)).map (· - 1) = some k := rfl
    rw [run_doRead_more hs hn hcovers hpos hfits hmore, hleft,
      ih (by omega) (by omega) (by omega) (by omega)]

end Run

end Block

end Solo5

section Machine

variable {n : ℕ} {solo5 : Handler Exn Solo5.Hypercall Solo5.Hypercall.Reply Disk}
  {r : Option Solo5.Result} {c : Disk} {left : Option ℕ} {sector : ℤ}

open Solo5 (Covers Serves hypercalls)

def failed {α : Type} : Option Solo5.Result → Outcome Exn (Except NanoOs.Block.Error α)
  | some _ => .done (.error .disconnected)
  | none => .stopped

theorem offset_eq (hn : n < 2 ^ 31) {len : ℕ} (hr : Disk.InRange n sector len) :
    wrap64 (sector * wrap64 (512 : ℕ)) = (sector.toNat * 512 : ℕ) := by
  obtain ⟨h0, hle⟩ := hr
  have hsize : wrap64 (512 : ℕ) = 512 := rfl
  rw [hsize, wrap64_eq (by omega) (by omega)]
  omega

theorem inRange_natCast {len : ℕ} (hr : Disk.InRange n sector len) :
    sector.toNat * 512 + len ≤ n * 512 := by
  obtain ⟨h0, hle⟩ := hr
  omega

theorem device_write {buf : Bytes} (hn : n < 2 ^ 31) (hr : Disk.InRange n sector buf.length)
    (hlen : buf.length % 512 = 0) : (Solo5.device n).write sector [buf] =
      (Solo5.device n).doWrite (sector.toNat * 512 : ℕ) [buf] := by
  have hsize : (Solo5.device n).sectorSize = 512 := rfl
  rw [Solo5.Block.write, hsize, offset_eq hn hr]
  simp [hlen]

theorem device_read {len : ℕ} (hn : n < 2 ^ 31) (hr : Disk.InRange n sector len)
    (hlen : len % 512 = 0) : (Solo5.device n).read sector [len] =
      (Solo5.device n).doRead (sector.toNat * 512 : ℕ) [] [len] := by
  have hsize : (Solo5.device n).sectorSize = 512 := rfl
  rw [Solo5.Block.read, hsize, offset_eq hn hr]
  simp [hlen]

theorem machine_getInfo (hn : n < 2 ^ 31) (s : Disk × Option ℕ) :
    machine n solo5 r .getInfo s = (.done (deviceInfo n), s) := by
  have hsectors : (Solo5.device n).sizeSectors = n := by
    have hdiv : ((n * 512 : ℕ) : ℤ) / (512 : ℕ) = n := by omega
    rw [Solo5.device, Solo5.Block.connect, hdiv, wrap64_eq (by omega) (by omega)]
  have hinfo : BlockAdapter.getInfo (Solo5.device n) = deviceInfo n := by
    rw [BlockAdapter.getInfo, hsectors]
    rfl
  rw [machine, BlockAdapter.handler, hinfo]

theorem machine_write (hs : Serves n solo5) {buf : Bytes} (hn : n < 2 ^ 31)
    (hr : Disk.InRange n sector buf.length)
    (hlen : buf.length % 512 = 0) (hleft : Covers left (hypercalls buf.length)) :
    machine n solo5 r (.write sector buf) (c, left) = (.done (.ok ()),
      (c.write (sector.toNat * 512) buf, left.map (· - hypercalls buf.length))) := by
  have hrun := @Solo5.Block.run_doWrite n solo5 r c left _ buf hs hn hleft
    (Nat.mul_mod_left _ _) hlen
    (inRange_natCast hr)
  rw [machine, BlockAdapter.handler, BlockAdapter.write, device_write hn hr hlen,
    Prog.run_bind_done hrun]
  rfl

theorem machine_write_fails (hs : Serves n solo5) {buf : Bytes} (hn : n < 2 ^ 31)
    (hr : Disk.InRange n sector buf.length)
    (hlen : buf.length % 512 = 0) {k : ℕ} (hk : k < hypercalls buf.length) :
    machine n solo5 r (.write sector buf) (c, some k) =
      (failed r, (c.write (sector.toNat * 512) (buf.take (512 * k)), some 0)) := by
  have hrun := @Solo5.Block.run_doWrite_fails n solo5 r c _ buf hs hn k hk
    (Nat.mul_mod_left _ _) hlen
    (inRange_natCast hr)
  rw [machine, BlockAdapter.handler, BlockAdapter.write, device_write hn hr hlen]
  cases r with
  | none => rw [Prog.run_bind_stopped hrun, failed]
  | some r =>
    rw [Solo5.Block.failed] at hrun
    rw [Prog.run_bind_done hrun]
    rfl

theorem machine_read (hs : Serves n solo5) {len : ℕ} (hn : n < 2 ^ 31)
    (hr : Disk.InRange n sector len)
    (hlen : len % 512 = 0) (hleft : Covers left (hypercalls len)) :
    machine n solo5 r (.read sector len) (c, left) =
      (.done (.ok (c.read (sector.toNat * 512) len)), (c, left.map (· - hypercalls len))) := by
  have hrun := @Solo5.Block.run_doRead n solo5 r c left _ [] len hs hn hleft
    (Nat.mul_mod_left _ _) hlen
    (inRange_natCast hr)
  rw [machine, BlockAdapter.handler, BlockAdapter.read, device_read hn hr hlen,
    Prog.run_bind_done hrun]
  rfl

theorem machine_read_fails (hs : Serves n solo5) {len : ℕ} (hn : n < 2 ^ 31)
    (hr : Disk.InRange n sector len)
    (hlen : len % 512 = 0) {k : ℕ} (hk : k < hypercalls len) :
    machine n solo5 r (.read sector len) (c, some k) = (failed r, (c, some 0)) := by
  have hrun := @Solo5.Block.run_doRead_fails n solo5 r c _ [] len hs hn k hk
    (Nat.mul_mod_left _ _) hlen
    (inRange_natCast hr)
  rw [machine, BlockAdapter.handler, BlockAdapter.read, device_read hn hr hlen]
  cases r with
  | none => rw [Prog.run_bind_stopped hrun, failed]
  | some r =>
    rw [Solo5.Block.failed] at hrun
    rw [Prog.run_bind_done hrun]
    rfl

/-- As long as no hypercall fails, the machine does for whole sectors what the disk of the reference
does. -/
theorem simulates_machine (hs : Serves n solo5) (hn : n < 2 ^ 31) :
    Simulates NanoOs.Block.Op.WholeSectors (fun c => (c, none)) (Disk.handler n)
      (machine n solo5 r) := by
  have hcovers (k : ℕ) : Covers none k := by
    rintro m ⟨⟩
  rintro (_ | ⟨sector, len⟩ | ⟨sector, buf⟩) c reply c' hwhole hq
  · cases hq
    exact machine_getInfo hn _
  · rw [Disk.handler] at hq
    split_ifs at hq with hr
    · cases hq
      exact machine_read hs hn hr hwhole (hcovers _)
    · cases hq
  · rw [Disk.handler] at hq
    split_ifs at hq with hr
    · cases hq
      exact machine_write hs hn hr hwhole (hcovers _)
    · cases hq

end Machine

end OCamlStudy.Mirage
