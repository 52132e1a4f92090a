import OCamlStudy.NanoOs.Block

/-! # The file system

A superblock of five sectors holds the magic, the number of entries, the next
free sector and up to 32 entries of 64 bytes; file contents follow in whole
sectors. A mounted file system keeps the entries in a cache. An `int32` is kept
in its signed range; the sums of an `int` stay below 2^62 and are not wrapped.
-/

namespace OCamlStudy.NanoOs

open OCaml Program

inductive FsError where
  | blockError (e : Block.Error)
  | fileNotFound (filename : Bytes)
  | fileExists (filename : Bytes)
  | noSpace
  | corruptFilesystem
  deriving DecidableEq, Repr

structure Entry where
  name : Bytes
  start : ℤ
  size : ℤ
  deriving DecidableEq, Repr

abbrev Cache := Hashtbl Bytes (ℤ × ℤ)

/-- A mounted file system; the disk is the device the program runs on. -/
structure Fs where
  info : Block.Info
  cache : Cache

abbrev FsProg := Prog Exn Fs Block.Op Block.Op.Reply

def magicStr : Bytes := bytes "NANO_FS" ++ [0]

def headerSize : ℕ := 16

def entrySize : ℕ := 64

def maxFiles : ℕ := 32

def directoryBytes : ℕ := headerSize + maxFiles * entrySize

def directorySectors : ℕ := (directoryBytes + 511) / 512

def sectorsForSize (size : ℤ) : ℤ := if size ≤ 0 then 0 else (size + 511) / 512

def parseName (rawName : Bytes) : Bytes :=
  match stringIndexOpt rawName 0 with
  | some i => rawName.take i
  | none => rawName

def readSuperblock : FsProg (Except FsError Bytes) := do
  match ← Block.read 0 (directorySectors * 512) with
  | .ok buf => return .ok buf
  | .error e => return .error (.blockError e)

def cacheOf (entries : List Entry) : Cache :=
  entries.foldl (fun cache entry => cache.insert entry.name (entry.start, entry.size)) ∅

def updateCache (entries : List Entry) : FsProg Unit := do
  let fs ← Prog.read
  Prog.write { fs with cache := cacheOf entries }

def putEntry (buf : Bytes) (i : ℕ) (entry : Entry) : Raises Bytes := do
  let offset := headerSize + i * entrySize
  let limitedName := if entry.name.length > 56 then entry.name.take 56 else entry.name
  let nameBuf ← Cstruct.create 56
  let nameBuf ← Cstruct.blit limitedName 0 nameBuf 0 limitedName.length
  let buf ← Cstruct.blit nameBuf 0 buf offset 56
  let buf ← Cstruct.setUint32 buf (offset + 56) entry.start
  Cstruct.setUint32 buf (offset + 60) entry.size

/-- `List.iteri` over the entries, from slot `i` on. -/
def putEntries (buf : Bytes) (i : ℕ) : List Entry → Raises Bytes
  | [] => return buf
  | entry :: entries => do
    let buf ← putEntry buf i entry
    putEntries buf (i + 1) entries

/-- The buffer that `write_superblock` writes. -/
def superblock (entries : List Entry) (nextFree : ℤ) : Raises Bytes := do
  let buf ← Cstruct.create (directorySectors * 512)
  let buf ← Cstruct.blit magicStr 0 buf 0 8
  let buf ← Cstruct.setUint32 buf 8 (wrap32 entries.length)
  let buf ← Cstruct.setUint32 buf 12 nextFree
  putEntries buf 0 entries

def writeSuperblock (entries : List Entry) (nextFree : ℤ) : FsProg (Except FsError Unit) := do
  let buf ← Prog.ofExcept (superblock entries nextFree)
  match ← Block.write 0 buf with
  | .ok () =>
    updateCache entries
    return .ok ()
  | .error e => return .error (.blockError e)

def validateEntry (fs : Fs) (entry : Entry) : Bool :=
  let diskSectors := wrap63 fs.info.sizeSectors
  let finish := entry.start + sectorsForSize entry.size
  let nameOk := entry.name ≠ []
  let startOk := directorySectors ≤ entry.start ∧ entry.start ≤ diskSectors
  let sizeOk := 0 ≤ entry.size
  let finishOk := finish ≤ diskSectors
  nameOk ∧ startOk ∧ sizeOk ∧ finishOk

structure Scan where
  dedupe : Hashtbl Bytes Unit
  entriesRev : List Entry
  dirty : Bool

/-- The entry that a slot holds, valid or not. -/
def slotEntry (buf : Bytes) (i : ℕ) : Raises Entry := do
  let offset := headerSize + i * entrySize
  let name := parseName (← Cstruct.sub buf offset 56)
  let start ← Cstruct.getUint32 buf (offset + 56)
  let size ← Cstruct.getUint32 buf (offset + 60)
  return { name, start, size }

/-- The body of the loop of `parse_superblock`. -/
def scanSlot (fs : Fs) (buf : Bytes) (scan : Scan) (i : ℕ) : Raises Scan := do
  let entry ← slotEntry buf i
  if validateEntry fs entry then
    if entry.name ∈ scan.dedupe then return { scan with dirty := true }
    else
      return { scan with
        dedupe := scan.dedupe.insert entry.name ()
        entriesRev := entry :: scan.entriesRev }
  else return { scan with dirty := true }

def computedNextFree (entries : List Entry) : ℤ :=
  entries.foldl (fun acc entry =>
    max acc (wrap32 (entry.start + wrap32 (sectorsForSize entry.size)))) directorySectors

def repairedNextFree (fs : Fs) (entries : List Entry) : ℤ :=
  let minNext := max (directorySectors : ℤ) (computedNextFree entries)
  let diskLimit := wrap32 (wrap63 fs.info.sizeSectors)
  if minNext > diskLimit then diskLimit else minNext

/-- The valid entries, the next free sector, and whether the superblock needs a repair. -/
def parseSuperblock (fs : Fs) (buf : Bytes) :
    Raises (Except FsError (List Entry × ℤ × Bool)) := do
  let magic ← Cstruct.sub buf 0 8
  if magic ≠ magicStr then return .error .corruptFilesystem
  else
    let rawCount ← Cstruct.getUint32 buf 8
    let rawNextFree ← Cstruct.getUint32 buf 12
    let count := min rawCount maxFiles
    let scan ← (List.range count.toNat).foldlM (scanSlot fs buf) ⟨∅, [], maxFiles < rawCount⟩
    let entries := scan.entriesRev.reverse
    let nextFree := repairedNextFree fs entries
    return .ok (entries, nextFree, scan.dirty || rawNextFree ≠ nextFree)

def isFormatted : FsProg Bool := do
  match ← readSuperblock with
  | .error _ => return false
  | .ok buf =>
    let magic ← Prog.ofExcept (Cstruct.sub buf 0 8)
    return magic = magicStr

/-- Mount the disk; the new file system replaces the one in the memory. -/
def connect (repair : Bool) : FsProg Unit := do
  let info ← Block.getInfo
  Prog.write { info, cache := ∅ }
  match ← readSuperblock with
  | .error _ => return ()
  | .ok buf =>
    let magic ← Prog.ofExcept (Cstruct.sub buf 0 8)
    if magic ≠ magicStr then return ()
    else
      let fs ← Prog.read
      match ← Prog.ofExcept (parseSuperblock fs buf) with
      | .error _ => return ()
      | .ok (entries, nextFree, dirty) =>
        updateCache entries
        if repair && dirty then
          let _ ← writeSuperblock entries nextFree
          return ()
        else return ()

def format : FsProg (Except FsError Unit) := writeSuperblock [] directorySectors

def ls : FsProg (List Bytes) := do
  let fs ← Prog.read
  return fs.cache.keys

def loadEntries : FsProg (Except FsError (List Entry × ℤ × Bool)) := do
  match ← readSuperblock with
  | .error e => return .error e
  | .ok buf =>
    let fs ← Prog.read
    Prog.ofExcept (parseSuperblock fs buf)

/-- The entries with the new one in the place of its name, or at the end. -/
def replaceEntry (entries : List Entry) (newEntry : Entry) : List Entry :=
  if entries.any (·.name = newEntry.name) then
    entries.map fun entry => if entry.name = newEntry.name then newEntry else entry
  else entries ++ [newEntry]

def writeFile (filename content : Bytes) : FsProg (Except FsError Unit) := do
  let contentLen : ℤ := content.length
  let sectorsNeeded := sectorsForSize contentLen
  match ← loadEntries with
  | .error e => return .error e
  | .ok (entries, nextFree, _) =>
    let existing := entries.any (·.name = filename)
    if !existing ∧ maxFiles ≤ entries.length then return .error .noSpace
    else
      let fs ← Prog.read
      let diskSectors := wrap63 fs.info.sizeSectors
      if nextFree + sectorsNeeded > diskSectors then return .error .noSpace
      else
        let dataBuf ← Prog.ofExcept (Cstruct.create (sectorsNeeded * 512))
        let dataBuf ← Prog.ofExcept (Cstruct.blit content 0 dataBuf 0 contentLen)
        match ← Block.write nextFree dataBuf with
        | .error e => return .error (.blockError e)
        | .ok () =>
          let newEntry := { name := filename, start := nextFree, size := wrap32 contentLen }
          let nextFree' := wrap32 (nextFree + wrap32 sectorsNeeded)
          writeSuperblock (replaceEntry entries newEntry) nextFree'

def createFile (filename content : Bytes) : FsProg (Except FsError Unit) := do
  let fs ← Prog.read
  if filename ∈ fs.cache then return .error (.fileExists filename)
  else writeFile filename content

def readFile (filename : Bytes) : FsProg (Except FsError Bytes) := do
  let fs ← Prog.read
  match fs.cache.lookup filename with
  | none => return .error (.fileNotFound filename)
  | some (start, size) =>
    let sectorsNeeded := sectorsForSize size
    let dataBuf ← Prog.ofExcept (Cstruct.create (sectorsNeeded * 512))
    match ← Block.read start dataBuf.length with
    | .error e => return .error (.blockError e)
    | .ok dataBuf =>
      let content ← Prog.ofExcept (Cstruct.sub dataBuf 0 size)
      return .ok content

def deleteFile (filename : Bytes) : FsProg (Except FsError Unit) := do
  match ← loadEntries with
  | .error e => return .error e
  | .ok (entries, nextFree, _) =>
    let kept := entries.filter (·.name ≠ filename)
    if kept.length = entries.length then return .error (.fileNotFound filename)
    else writeSuperblock kept nextFree

end OCamlStudy.NanoOs
