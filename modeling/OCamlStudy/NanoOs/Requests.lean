import OCamlStudy.NanoOs.Shell
import OCamlStudy.Program.Run

/-! # Concurrent requests

The kernel starts every request at once, so requests take turns: one turn is an
operation of the block device and the code up to the next. For every request the
world also keeps what it has seen, which no request reads.
-/

namespace OCamlStudy.NanoOs

open OCaml Program Shell

/-- A request and what is left of it. -/
structure Request where
  cmdStr : Bytes
  started : Bool
  prog : FsProg Bytes
  /-- The cache when it started. -/
  cacheThen : Cache
  /-- The disk when it started. -/
  diskThen : Disk
  /-- The disk when it read the directory. -/
  directory : Disk
  /-- What it has written outside the directory, with the sectors. -/
  stored : List (ℤ × Bytes)

def Request.waiting (cmdStr : Bytes) (disk : Disk) : Request where
  cmdStr := cmdStr
  started := false
  prog := eval cmdStr
  cacheThen := ∅
  diskThen := disk
  directory := disk
  stored := []

/-- A request once it has started. -/
def Request.begun (r : Request) (prog : FsProg Bytes) (cacheThen : Cache) (diskThen : Disk) :
    Request :=
  { r with started := true, prog, cacheThen, diskThen }

/-- What a request has seen and left behind once the operation was answered. -/
def Request.observe (r : Request) (c : Disk) : Block.Op → Request
  | .getInfo => r
  | .read sectorStart _ => if sectorStart = 0 then { r with directory := c } else r
  | .write sectorStart buffer =>
    if sectorStart = 0 then r else { r with stored := r.stored ++ [(sectorStart, buffer)] }

structure World {n : ℕ} (dev : Device n) where
  fs : Fs
  disk : dev.State
  requests : List Request

namespace World

variable {n : ℕ} {dev : Device n}

def start (dev : Device n) (fs : Fs) (disk : dev.State) (cmds : List Bytes) : World dev where
  fs := fs
  disk := disk
  requests := cmds.map fun cmdStr => .waiting cmdStr (dev.contents disk)

/-- The turn of one request. -/
def step (w : World dev) (i : ℕ) : Option (World dev) := do
  let r ← w.requests[i]?
  if r.started then
    match r.prog with
    | .call q k =>
      match dev.handler q w.disk with
      | (.done reply, disk) =>
        let (prog, fs) := (k reply).settle w.fs
        some { fs, disk, requests :=
          w.requests.set i ({ r with prog }.observe (dev.contents w.disk) q) }
      | (.raised exn, disk) =>
        some { w with disk, requests := w.requests.set i { r with prog := .raise exn } }
      | (.stopped, _) => none
    | _ => none
  else
    let (prog, fs) := r.prog.settle w.fs
    some { w with fs, requests :=
      w.requests.set i (r.begun prog w.fs.cache (dev.contents w.disk)) }

/-- The reply of a request that has ended. -/
def Replied (w : World dev) (i : ℕ) (reply : Bytes) : Prop :=
  ∃ r, w.requests[i]? = some r ∧ r.started = true ∧ r.prog = .ret reply

def Done (w : World dev) : Prop :=
  ∀ r ∈ w.requests, r.started = true ∧ ∃ reply, r.prog = .ret reply

end World

/-- The files of two states are the same, by name and as they are read. -/
def SameFiles {n : ℕ} (dev : Device n) (fs fs' : Fs) (s s' : dev.State) : Prop :=
  (∀ name, name ∈ fs.cache ↔ name ∈ fs'.cache) ∧
    ∀ name, ∃ r t t', (readFile name).run dev.handler fs s = (.done r, fs, t) ∧
      (readFile name).run dev.handler fs' s' = (.done r, fs', t')

/-- The replies and the files are those of the requests one after another, in some order. -/
def Linearizable {n : ℕ} (dev : Device n) (cmds : List Bytes) (fs₀ : Fs) (s₀ : dev.State)
    (w : World dev) : Prop :=
  ∃ (log : List (ℕ × Bytes)) (fs : Fs) (s : dev.State),
    (log.map Prod.fst).Perm (List.range cmds.length) ∧
      (evalAll (log.map fun p => cmds.getD p.1 [])).run dev.handler fs₀ s₀ =
        (.done (log.map Prod.snd), fs, s) ∧
      (∀ p ∈ log, w.Replied p.1 p.2) ∧ SameFiles dev w.fs fs w.disk s

/-- What a request has seen and written is still as it was, where its next operation relies on
it; and its data goes over no file of the directory. -/
def Request.Undisturbed (r : Request) (fs : Fs) (c : Disk) : Block.Op → Prop
  | .getInfo => True
  | .read sectorStart len =>
    if sectorStart = 0 then ∀ filename, parse r.cmdStr = .touch filename → filename ∉ fs.cache
    else c.read (sectorStart.toNat * 512) len = r.diskThen.read (sectorStart.toNat * 512) len
  | .write sectorStart buffer =>
    if sectorStart = 0 then
      c.read 0 2560 = r.directory.read 0 2560 ∧
        (∀ p ∈ r.stored, c.read (p.1.toNat * 512) p.2.length = p.2) ∧
        ∀ filename words, parse r.cmdStr = .write filename words →
          (filename ∈ fs.cache ↔ filename ∈ r.cacheThen)
    else ∀ e ∈ parsedEntries fs c,
      content (c.write (sectorStart.toNat * 512) buffer) e = content c e

def World.Undisturbed {n : ℕ} {dev : Device n} (w : World dev) (i : ℕ) : Prop :=
  ∀ r, w.requests[i]? = some r → r.started = true → ∀ q k, r.prog = .call q k →
    r.Undisturbed w.fs (dev.contents w.disk) q

/-- The write or touch that a request makes, and its replies. -/
def Request.Stores (r : Request) (filename data : Bytes)
    (finish : Except FsError Unit → Bytes) : Prop :=
  (∃ words, parse r.cmdStr = .write filename words ∧ data = concatWords words ∧
    finish = writeReply (r.cacheThen.keys.any (· = filename))) ∨
  (parse r.cmdStr = .touch filename ∧ data = [] ∧ finish = touchReply filename)

def Request.Saw (n : ℕ) (r : Request) (entries : List Entry) : Prop :=
  Mounted n entries ⟨deviceInfo n, cacheOf entries⟩ r.directory

/-- Where a request stands, with its reply once that is settled. -/
inductive Stage (n : ℕ) (r : Request) : Option Bytes → Prop where
  | waiting (hs : r.started = false) (hp : r.prog = eval r.cmdStr) (hst : r.stored = []) :
      Stage n r none
  | replied (reply : Bytes) (hs : r.started = true) (hp : r.prog = .ret reply) :
      Stage n r (some reply)
  | reading (filename : Bytes) (e : Entry) (hs : r.started = true)
      (he : 5 ≤ e.start ∧ 0 ≤ e.size ∧ e.start + sectorsForSize e.size ≤ n)
      (hp : r.prog = .call (.read e.start ((sectorsForSize e.size).toNat * 512)) fun res =>
        received e.size res >>= fun res => pure (catReply filename res)) :
      Stage n r (some (content r.diskThen e))
  | loading (filename data : Bytes) (finish : Except FsError Unit → Bytes)
      (place : Except FsError (List Entry × ℤ × Bool) → FsProg (Except FsError Unit))
      (hs : r.started = true) (hst : r.stored = []) (hr : r.Stores filename data finish)
      (hplace : ∀ fs entries nextFree dirty, (place (.ok (entries, nextFree, dirty))).settle fs =
        if Refused fs entries nextFree filename data then (.ret (.error .noSpace), fs)
        else (storeFile entries nextFree filename data).settle fs)
      (hp : r.prog = .call (.read 0 2560) fun res =>
        (loaded res >>= place) >>= fun res => pure (finish res)) : Stage n r none
  | finding (filename : Bytes)
      (unlink : Except FsError (List Entry × ℤ × Bool) → FsProg (Except FsError Unit))
      (hs : r.started = true) (hst : r.stored = []) (hr : parse r.cmdStr = .rm filename)
      (hunlink : ∀ entries nextFree dirty, unlink (.ok (entries, nextFree, dirty)) =
        if filename ∈ entries.map Entry.name then
          writeSuperblock (entries.filter (·.name ≠ filename)) nextFree
        else pure (.error (.fileNotFound filename)))
      (hp : r.prog = .call (.read 0 2560) fun res =>
        (loaded res >>= unlink) >>= fun res => pure (rmReply filename res)) : Stage n r none
  | storing (filename data : Bytes) (finish : Except FsError Unit → Bytes) (entries : List Entry)
      (hs : r.started = true) (hst : r.stored = []) (hr : r.Stores filename data finish)
      (hsaw : r.Saw n entries)
      (hnew : parse r.cmdStr = .touch filename → filename ∉ entries.map Entry.name)
      (hfits : ¬ Refused ⟨deviceInfo n, cacheOf entries⟩ entries (nextFree entries) filename data)
      (hp : r.prog = .call (.write (nextFree entries) (dataBlock data)) fun res =>
        stored entries (nextFree entries) filename data res >>= fun res => pure (finish res)) :
      Stage n r none
  | committing (filename data : Bytes) (finish : Except FsError Unit → Bytes)
      (entries : List Entry) (nf : ℤ) (hs : r.started = true)
      (hst : r.stored = [(nextFree entries, dataBlock data)]) (hr : r.Stores filename data finish)
      (hsaw : r.Saw n entries)
      (hnew : parse r.cmdStr = .touch filename → filename ∉ entries.map Entry.name)
      (hfits : ¬ Refused ⟨deviceInfo n, cacheOf entries⟩ entries (nextFree entries) filename data)
      (hp : r.prog =
        .call (.write 0 (layout (replaceEntry entries (newEntry entries filename data)) nf))
          fun res => recorded (replaceEntry entries (newEntry entries filename data)) res >>=
            fun res => pure (finish res)) : Stage n r none
  | removing (filename : Bytes) (entries : List Entry) (hs : r.started = true)
      (hst : r.stored = []) (hr : parse r.cmdStr = .rm filename) (hsaw : r.Saw n entries)
      (hmem : filename ∈ entries.map Entry.name)
      (hp : r.prog =
        .call (.write 0 (layout (entries.filter (·.name ≠ filename)) (nextFree entries)))
          fun res => recorded (entries.filter (·.name ≠ filename)) res >>=
            fun res => pure (rmReply filename res)) : Stage n r none

end OCamlStudy.NanoOs
