import OCamlStudy.NanoOs.Block
import OCamlStudy.Program.Run
import OCamlStudy.Program.Sequence

/-! # The file disk

A file as a block device. Every call seeks and then transfers its buffers one by
one, at the offset that the file descriptor has by then; all calls share one
descriptor. A seek and a transfer are one step each, and a transfer within the
file is complete.
-/

namespace OCamlStudy.NanoOs.FileDisk

open OCaml Program

inductive UnixError where
  | einval (fn : String)
  deriving DecidableEq, Repr

structure Fd where
  content : Bytes
  offset : ℕ

/-- The system calls; a read returns the bytes it has read, a write how many it has written. -/
inductive Op where
  | lseek (offset : ℤ)
  | read (len : ℕ)
  | write (bytes : Bytes)

abbrev Op.Reply : Op → Type
  | lseek _ => ℤ
  | read _ => Bytes
  | write _ => ℕ

/-- A write over the bytes at an offset; past the end the file grows, with zeros in the gap. -/
def overwrite (content : Bytes) (offset : ℕ) (bytes : Bytes) : Bytes :=
  if bytes = [] then content
  else Cstruct.splice (content ++ List.replicate (offset - content.length) 0) offset bytes

def handler : Handler UnixError Op Op.Reply Fd
  | .lseek offset, fd =>
    if offset < 0 then (.raised (.einval "lseek"), fd)
    else (.done offset, { fd with offset := offset.toNat })
  | .read len, fd =>
    let bytes := (fd.content.drop fd.offset).take len
    (.done bytes, { fd with offset := fd.offset + bytes.length })
  | .write bytes, fd =>
    (.done bytes.length, ⟨overwrite fd.content fd.offset bytes, fd.offset + bytes.length⟩)

abbrev FdProg := Prog UnixError Unit Op Op.Reply

def Fd.lseek (offset : ℤ) : FdProg ℤ := Prog.perform (Op.lseek offset)

def Fd.read (len : ℕ) : FdProg Bytes := Prog.perform (Op.read len)

def Fd.write (bytes : Bytes) : FdProg ℕ := Prog.perform (Op.write bytes)

/-- The device of a file, which is filled with a megabyte of zeros if it is empty. -/
def connect (file : Bytes) : Block.Info × Fd :=
  let content := if file.length = 0 then List.replicate (1024 * 1024) 0 else file
  let sizeBytes : ℤ := content.length
  ({ sizeSectors := wrap64 (sizeBytes / 512), sectorSize := 512, readWrite := true },
    { content, offset := 0 })

def readLoop (sectorStart : ℤ) (filled : List Bytes) :
    List ℕ → FdProg (Except Block.Error (List Bytes))
  | [] => return .ok filled
  | len :: rest => do
    let bytes ← Fd.read len
    if bytes.length < len then return .error (.outOfBounds sectorStart)
    else readLoop sectorStart (filled ++ [bytes]) rest

/-- Buffers passed to `read` are known by their lengths. -/
def read (info : Block.Info) (sectorStart : ℤ) (lens : List ℕ) :
    FdProg (Except Block.Error (List Bytes)) := do
  let offset := wrap64 (sectorStart * wrap64 info.sectorSize)
  let _ ← Fd.lseek (wrap63 offset)
  readLoop sectorStart [] lens

def writeLoop (sectorStart : ℤ) : List Bytes → FdProg (Except Block.Error Unit)
  | [] => return .ok ()
  | buf :: rest => do
    let n ← Fd.write buf
    if n < buf.length then return .error (.outOfBounds sectorStart)
    else writeLoop sectorStart rest

def write (info : Block.Info) (sectorStart : ℤ) (buffers : List Bytes) :
    FdProg (Except Block.Error Unit) := do
  let offset := wrap64 (sectorStart * wrap64 info.sectorSize)
  let _ ← Fd.lseek (wrap63 offset)
  writeLoop sectorStart buffers

inductive Call where
  | read (sectorStart : ℤ) (lens : List ℕ)
  | write (sectorStart : ℤ) (buffers : List Bytes)
  deriving DecidableEq, Inhabited

/-- What a call returns, with the bytes in the buffers of a read. -/
inductive Result where
  | read (r : Except Block.Error (List Bytes))
  | write (r : Except Block.Error Unit)

namespace Call

def perform (info : Block.Info) : Call → FdProg Result
  | read sectorStart lens => do return .read (← FileDisk.read info sectorStart lens)
  | write sectorStart buffers => do return .write (← FileDisk.write info sectorStart buffers)

def sectorStart : Call → ℤ
  | read sectorStart _ | write sectorStart _ => sectorStart

def start (call : Call) : ℕ := call.sectorStart.toNat * 512

/-- The bytes that a call transfers. -/
def length : Call → ℕ
  | read _ lens => lens.sum
  | write _ buffers => buffers.flatten.length

def IsWrite : Call → Prop
  | read _ _ => False
  | write _ _ => True

def InRange (info : Block.Info) (call : Call) : Prop :=
  0 ≤ call.sectorStart ∧ call.sectorStart * 512 + call.length ≤ info.sizeSectors * 512

instance (info : Block.Info) (call : Call) : Decidable (call.InRange info) :=
  inferInstanceAs (Decidable (_ ∧ _))

end Call

/-- A call, what is left of it, and how many bytes it has transferred. -/
structure Running where
  call : Call
  prog : FdProg Result
  moved : ℕ

def Op.length : Op → ℕ
  | lseek _ => 0
  | read len => len
  | write bytes => bytes.length

def Running.observe (r : Running) : (q : Op) → q.Reply → Running
  | .lseek _, _ => r
  | .read _, bytes => { r with moved := r.moved + bytes.length }
  | .write _, n => { r with moved := r.moved + n }

def Running.Moved (r : Running) (x : ℕ) : Prop := r.call.start ≤ x ∧ x < r.call.start + r.moved

structure World where
  fd : Fd
  calls : List Running

namespace World

def start (info : Block.Info) (fd : Fd) (calls : List Call) : World where
  fd := fd
  calls := calls.map fun call => { call, prog := call.perform info, moved := 0 }

/-- The next system call of one call. -/
def step (w : World) (i : ℕ) : Option World := do
  let r ← w.calls[i]?
  match r.prog with
  | .call q k =>
    match handler q w.fd with
    | (.done reply, fd) =>
      some { fd, calls := w.calls.set i ({ r with prog := k reply }.observe q reply) }
    | (.raised exn, fd) => some { fd, calls := w.calls.set i { r with prog := .raise exn } }
    | (.stopped, _) => none
  | _ => none

def Returned (w : World) (i : ℕ) (result : Result) : Prop :=
  ∃ r, w.calls[i]? = some r ∧ r.prog = .ret result

def Done (w : World) : Prop := ∀ i < w.calls.length, ∃ result, w.Returned i result

/-- A transfer of the call happens where the call itself has left the offset. Bytes that another
call has already transferred it only transfers after that call in the order, two reads apart. -/
def Undisturbed (order : List ℕ) (w : World) (i : ℕ) : Prop :=
  ∀ r, w.calls[i]? = some r → ∀ q k, r.prog = .call q k → 0 < q.length →
    w.fd.offset = r.call.start + r.moved ∧
    ∀ j r', j ≠ i → w.calls[j]? = some r' → r.call.IsWrite ∨ r'.call.IsWrite →
      ∀ x, w.fd.offset ≤ x → x < w.fd.offset + q.length → r'.Moved x →
        order.idxOf j < order.idxOf i

end World

/-- The results and the file are those of the calls one after another, in some order. -/
def Serializable (info : Block.Info) (fd : Fd) (calls : List Call) (w : World) : Prop :=
  ∃ (order : List ℕ) (results : List Result) (fd' : Fd), order.Perm (List.range calls.length) ∧
    (Prog.sequence (order.map fun i => (calls.getD i default).perform info)).run handler () fd =
      (.done results, (), fd') ∧
    List.Forall₂ w.Returned order results ∧ w.fd.content = fd'.content

section Steps

variable {fd : Fd} {offset : ℤ} {len : ℕ} {bytes : Bytes}

theorem handler_lseek (h : 0 ≤ offset) :
    handler (.lseek offset) fd = (.done offset, { fd with offset := offset.toNat }) :=
  if_neg (not_lt.mpr h)

theorem handler_read (h : fd.offset + len ≤ fd.content.length) :
    handler (.read len) fd = (.done ((Disk.ofBytes fd.content).read fd.offset len),
      { fd with offset := fd.offset + len }) := by
  rw [handler, ← Disk.ofBytes_read h, Disk.read_length]

theorem overwrite_inside (h : fd.offset + bytes.length ≤ fd.content.length) :
    overwrite fd.content fd.offset bytes = Cstruct.splice fd.content fd.offset bytes := by
  unfold overwrite
  split_ifs with hb
  · subst hb
    simp [Cstruct.splice]
  · rw [Nat.sub_eq_zero_of_le (by omega), List.replicate_zero, List.append_nil]

theorem overwrite_length (h : fd.offset + bytes.length ≤ fd.content.length) :
    (overwrite fd.content fd.offset bytes).length = fd.content.length := by
  rw [overwrite_inside h, Cstruct.splice_length h]

theorem ofBytes_overwrite (h : fd.offset + bytes.length ≤ fd.content.length) :
    Disk.ofBytes (overwrite fd.content fd.offset bytes) =
      (Disk.ofBytes fd.content).write fd.offset bytes := by
  rw [overwrite_inside h, Disk.ofBytes_splice h]

end Steps

/-- The pieces of the disk that fill the buffers of a read. -/
def pieces (c : Disk) (pos : ℕ) : List ℕ → List Bytes
  | [] => []
  | len :: lens => c.read pos len :: pieces c (pos + len) lens

theorem pieces_append (c : Disk) (pos : ℕ) (lens lens' : List ℕ) :
    pieces c pos (lens ++ lens') = pieces c pos lens ++ pieces c (pos + lens.sum) lens' := by
  induction lens generalizing pos with
  | nil => rfl
  | cons len lens ih =>
    rw [List.cons_append, pieces, ih, pieces, List.sum_cons, Nat.add_assoc]
    rfl

theorem pieces_congr {c c' : Disk} {pos : ℕ} {lens : List ℕ}
    (h : ∀ x, pos ≤ x → x < pos + lens.sum → c x = c' x) :
    pieces c pos lens = pieces c' pos lens := by
  induction lens generalizing pos with
  | nil => rfl
  | cons len lens ih =>
    rw [List.sum_cons] at h
    rw [pieces, pieces, Disk.read_congr fun x hl hu => h x hl (by omega),
      ih fun x hl hu => h x (by omega) (by omega)]

/-- What a call returns on a disk, when it is alone. -/
def Call.answer (c : Disk) : Call → Result
  | .read sectorStart lens => .read (.ok (pieces c (sectorStart.toNat * 512) lens))
  | .write _ _ => .write (.ok ())

def Call.after (c : Disk) : Call → Disk
  | .read _ _ => c
  | .write sectorStart buffers => c.write (sectorStart.toNat * 512) buffers.flatten

section Alone

variable {info : Block.Info} {fd : Fd} {sectorStart : ℤ}

theorem run_read {len : ℕ} (h : fd.offset + len ≤ fd.content.length) :
    (Fd.read len).run handler () fd = (.done ((Disk.ofBytes fd.content).read fd.offset len), (),
      { fd with offset := fd.offset + len }) := Prog.run_perform (handler_read h)

theorem run_write (bytes : Bytes) : (Fd.write bytes).run handler () fd =
    (.done bytes.length, (), ⟨overwrite fd.content fd.offset bytes, fd.offset + bytes.length⟩) :=
  Prog.run_perform (q := Op.write bytes) rfl

theorem run_readLoop {filled : List Bytes} {lens : List ℕ}
    (h : fd.offset + lens.sum ≤ fd.content.length) :
    (readLoop sectorStart filled lens).run handler () fd =
      (.done (.ok (filled ++ pieces (Disk.ofBytes fd.content) fd.offset lens)), (),
        { fd with offset := fd.offset + lens.sum }) := by
  induction lens generalizing fd filled with
  | nil =>
    rw [readLoop, pieces, List.append_nil]
    rfl
  | cons len lens ih =>
    rw [List.sum_cons] at h
    rw [readLoop, Prog.run_bind_done (run_read (by omega)),
      if_neg (by rw [Disk.read_length]; exact lt_irrefl _), ih (by dsimp only; omega), pieces]
    simp only [List.append_assoc, List.singleton_append, List.sum_cons, Nat.add_assoc]

theorem run_writeLoop {buffers : List Bytes}
    (h : fd.offset + buffers.flatten.length ≤ fd.content.length) :
    ∃ fd', (writeLoop sectorStart buffers).run handler () fd = (.done (.ok ()), (), fd') ∧
      fd'.content.length = fd.content.length ∧
      Disk.ofBytes fd'.content = (Disk.ofBytes fd.content).write fd.offset buffers.flatten := by
  induction buffers generalizing fd with
  | nil =>
    refine ⟨fd, ?_, rfl, Disk.write_nil.symm⟩
    rw [writeLoop]
    rfl
  | cons buf rest ih =>
    rw [List.flatten_cons, List.length_append] at h
    have hlen := @overwrite_length fd buf (by omega)
    obtain ⟨fd', hrun, hl, hc⟩ :=
      @ih ⟨overwrite fd.content fd.offset buf, fd.offset + buf.length⟩ (by dsimp only; omega)
    refine ⟨fd', ?_, hl.trans hlen, ?_⟩
    · rw [writeLoop, Prog.run_bind_done (run_write buf), if_neg (lt_irrefl _)]
      exact hrun
    · rw [hc, ofBytes_overwrite (by omega), List.flatten_cons, Disk.write_append]

end Alone

end OCamlStudy.NanoOs.FileDisk
