import OCamlStudy.NanoOs.MapView

/-! # Mounting any image

Whatever bytes a disk holds, a mount ends normally. If the magic is right it
establishes the invariant, which has no disjointness in it, so every later state
can be read in bounds and a change of one file leaves the other files alone.
-/

namespace OCamlStudy.NanoOs

open OCaml Program

def FsOp.target : FsOp → Option Bytes
  | writeFile filename _ | createFile filename _ | deleteFile filename => some filename
  | _ => none

theorem FileMap.after_of_ne {files : FileMap} {op : FsOp} {reply : FsReply} {name : Bytes}
    (h : op.target ≠ some name) : files.after op reply name = files name := by
  unfold FileMap.after
  split
  · exact Function.update_of_ne (fun he => h (congrArg some he.symm)) _ _
  · exact Function.update_of_ne (fun he => h (congrArg some he.symm)) _ _
  · exact Function.update_of_ne (fun he => h (congrArg some he.symm)) _ _
  · rfl

/-- Every listed file is readable in bounds, and files change only by their own name. -/
structure SafeView {n : ℕ} (dev : Device n) (fs : Fs) (s : dev.State) : Prop where
  ls : ∃ names, dev.Completes ls fs s names fs s ∧
    ∀ name, name ∈ names ↔ (fs.cache.lookup name).isSome
  readFile : ∀ name start size, fs.cache.lookup name = some (start, size) →
    ∃ data s', dev.Completes (readFile name) fs s (.ok data) fs s' ∧ (data.length : ℤ) = size
  others : ∀ op : FsOp, op.Admissible → ∀ reply fs' s',
    op.perform.run dev.handler fs s = (.done reply, fs', s') → ∀ name, op.target ≠ some name →
      ((NanoOs.readFile name).run dev.handler fs' s').1 =
        ((NanoOs.readFile name).run dev.handler fs s).1

section Safe

variable {n : ℕ} {entries : List Entry} {fs : Fs} {c : Disk} (h5 : 5 ≤ n) (hn : n < 2 ^ 31)

theorem Mounted.exists_entry (hm : Mounted n entries fs c) {name : Bytes} {start size : ℤ}
    (hl : fs.cache.lookup name = some (start, size)) :
    ∃ e ∈ entries, e.name = name ∧ e.size = size := by
  have hname : name ∈ entries.map Entry.name := by
    rw [← fileMap_isSome (c := c), ← hm.mem_cache, ← AList.lookup_isSome, hl]
    rfl
  obtain ⟨e, he, rfl⟩ := List.mem_map.mp hname
  rw [hm.fs_eq, lookup_cacheOf hm.wellFormed.nodup he] at hl
  exact ⟨e, he, rfl, (Prod.mk.inj (Option.some.inj hl)).2⟩

include h5 hn

theorem Mounted.safeView {dev : Device n} {s : dev.State}
    (hm : Mounted n entries fs (dev.contents s)) : SafeView dev fs s where
  ls := by
    refine ⟨fs.cache.keys, ⟨rfl, rfl⟩, fun name => ?_⟩
    exact AList.lookup_isSome.symm
  readFile name start size hl := by
    obtain ⟨e, he, rfl, rfl⟩ := hm.exists_entry hl
    obtain ⟨s', hrun, _⟩ := dev.completes (hm.run_readFile hn he)
    refine ⟨_, s', hrun, ?_⟩
    rw [content, Disk.read_length, Int.toNat_of_nonneg ((hm.entryOk he).end_le hn).2.1]
  others op ha reply fs' s' hrun name htarget := by
    obtain ⟨reply₀, entries₀, fs₀, c₀, hrun₀, hm₀, hf, _⟩ := hm.step h5 hn ha
    obtain ⟨s₀, ⟨h, _⟩, rfl⟩ := dev.completes hrun₀
    rw [h] at hrun
    cases hrun
    obtain ⟨_, ⟨hbefore, _⟩, _⟩ := dev.completes (hm.run_readFile_reply hn name)
    obtain ⟨_, ⟨hafter, _⟩, _⟩ := dev.completes (hm₀.run_readFile_reply hn name)
    rw [hbefore, hafter, hf, FileMap.after_of_ne htarget]

end Safe

/-- Mount a disk and perform the operations. -/
def fromMount (repair : Bool) (ops : List FsOp) : FsProg (List FsReply) := do
  connect repair
  FsOp.performAll ops

/-- **Mounting any image is safe.** A mount never raises; after a mount with the right magic,
every state that operations reach is safe. -/
theorem mount_safe {n : ℕ} (h5 : 5 ≤ n) (hn : n < 2 ^ 31) (dev : Device n) (repair : Bool)
    (fs₀ : Fs) (s₀ : dev.State) :
    (∃ fs s, dev.Completes (connect repair) fs₀ s₀ () fs s) ∧
      ((dev.contents s₀).read 0 8 = magicStr → ∀ ops : List FsOp, (∀ op ∈ ops, op.Admissible) →
        ∃ replies fs s, dev.Completes (fromMount repair ops) fs₀ s₀ replies fs s ∧
          SafeView dev fs s) := by
  constructor
  · obtain ⟨fs, c, hrun, _⟩ := run_connect_done h5 fs₀ (dev.contents s₀) repair
    obtain ⟨s, h, _⟩ := dev.completes hrun
    exact ⟨fs, s, h⟩
  · intro hmagic ops ha
    obtain ⟨c₁, hrun, hm₁, _⟩ := run_connect_formatted h5 repair _ hmagic rfl
    obtain ⟨replies, entries, fs, c, hruns, _, hm, _⟩ := hm₁.steps h5 hn ha
    have hall : (fromMount repair ops).run (Disk.handler n) fs₀ (dev.contents s₀) =
        (.done replies, fs, c) := (Prog.run_bind_done hrun _).trans hruns
    obtain ⟨s, h, rfl⟩ := dev.completes hall
    exact ⟨replies, fs, s, h, hm.safeView h5 hn⟩

/-- A write to a disk whose bytes are all 255 but for the magic. -/
theorem mount_safe_hostile : ∃ replies fs s, (Disk.device 64).Completes
    (fromMount true [.writeFile (bytes "a") (bytes "x")]) ⟨deviceInfo 0, ∅⟩
      (Disk.write (fun _ => 255) 0 magicStr) replies fs s ∧ SafeView (Disk.device 64) fs s := by
  refine (mount_safe (by decide) (by decide) (Disk.device 64) true _ _).2
    (Disk.read_write_same _ _ magicStr) _ fun op hop => ?_
  obtain rfl := List.mem_singleton.mp hop
  exact ⟨by decide, by decide⟩

end OCamlStudy.NanoOs
