import OCamlStudy.NanoOs.Mounted

/-! # The file system as a finite map

The purpose of the file system: a finite map from names to contents that changes
only by the operations that succeed. One operation on a mounted disk keeps the
invariant and acts on the files as its reply says, so every run does.
-/

namespace OCamlStudy.NanoOs

open OCaml Program

abbrev FileMap := Bytes → Option Bytes

inductive FsOp where
  | writeFile (filename content : Bytes)
  | createFile (filename content : Bytes)
  | readFile (filename : Bytes)
  | deleteFile (filename : Bytes)
  | ls
  | connect (repair : Bool)

inductive FsReply where
  | outcome (r : Except FsError Unit)
  | content (r : Except FsError Bytes)
  | names (files : List Bytes)
  | mounted

namespace FsOp

def perform : FsOp → FsProg FsReply
  | writeFile filename content => do return .outcome (← NanoOs.writeFile filename content)
  | createFile filename content => do return .outcome (← NanoOs.createFile filename content)
  | readFile filename => do return .content (← NanoOs.readFile filename)
  | deleteFile filename => do return .outcome (← NanoOs.deleteFile filename)
  | ls => do return .names (← NanoOs.ls)
  | connect repair => do
    NanoOs.connect repair
    return .mounted

def performAll : List FsOp → FsProg (List FsReply)
  | [] => return []
  | op :: ops => do
    let reply ← op.perform
    let replies ← performAll ops
    return reply :: replies

/-- Names that a slot can hold and contents whose length is an `int32`. -/
def Admissible : FsOp → Prop
  | writeFile filename content | createFile filename content =>
    GoodName filename ∧ content.length < 2 ^ 31
  | _ => True

end FsOp

/-- A reply that refuses an operation. -/
def FsReply.Refuses : FsReply → Prop
  | outcome (.error _) | content (.error _) => True
  | _ => False

/-- The files after an operation that was answered by the given reply. -/
def FileMap.after (files : FileMap) : FsOp → FsReply → FileMap
  | .writeFile filename content, .outcome (.ok ()) => Function.update files filename (some content)
  | .createFile filename content, .outcome (.ok ()) => Function.update files filename (some content)
  | .deleteFile filename, .outcome (.ok ()) => Function.update files filename none
  | _, _ => files

/-- The files after a run of operations and replies. -/
def FileMap.replay (files : FileMap) : List (FsOp × FsReply) → FileMap
  | [] => files
  | (op, reply) :: trace => (files.after op reply).replay trace

def fileMap (entries : List Entry) (c : Disk) : FileMap := fun name =>
  (entries.find? fun e => e.name = name).map (content c)

section FileMap

variable {entries : List Entry} {c c' : Disk} {name : Bytes}

theorem find?_name (hn : (entries.map Entry.name).Nodup) {e : Entry} (he : e ∈ entries) :
    entries.find? (fun x => decide (x.name = e.name)) = some e := by
  induction entries with
  | nil => cases he
  | cons x entries ih =>
    obtain ⟨hx, hn⟩ := List.nodup_cons.mp hn
    rcases List.mem_cons.mp he with rfl | he
    · simp
    · have hne : x.name ≠ e.name := fun h => hx (h ▸ List.mem_map_of_mem he)
      rw [List.find?_cons_of_neg (by simpa using hne)]
      exact ih hn he

theorem fileMap_of_mem (hn : (entries.map Entry.name).Nodup) {e : Entry} (he : e ∈ entries) :
    fileMap entries c e.name = some (content c e) := by
  rw [fileMap, find?_name hn he]
  rfl

theorem fileMap_eq_none : fileMap entries c name = none ↔ name ∉ entries.map Entry.name := by
  rw [fileMap, Option.map_eq_none_iff, List.find?_eq_none]
  simp

theorem fileMap_isSome : (fileMap entries c name).isSome ↔ name ∈ entries.map Entry.name := by
  rw [← not_iff_not, ← fileMap_eq_none (c := c), Option.not_isSome_iff_eq_none]

theorem fileMap_congr (h : ∀ e ∈ entries, content c' e = content c e) :
    fileMap entries c' = fileMap entries c := by
  funext name
  unfold fileMap
  cases hf : entries.find? fun e => decide (e.name = name) with
  | none => rfl
  | some e => exact congrArg some (h e (List.mem_of_find?_eq_some hf))

theorem fileMap_eq_of_mem_iff {entries' : List Entry} (hn : (entries.map Entry.name).Nodup)
    (hn' : (entries'.map Entry.name).Nodup)
    (h : ∀ e, e.name = name → (e ∈ entries' ↔ e ∈ entries))
    (hc : ∀ e ∈ entries, content c' e = content c e) :
    fileMap entries' c' name = fileMap entries c name := by
  by_cases hm : name ∈ entries.map Entry.name
  · obtain ⟨e, he, rfl⟩ := List.mem_map.mp hm
    rw [fileMap_of_mem hn he, fileMap_of_mem hn' ((h e rfl).mpr he), hc e he]
  · rw [fileMap_eq_none.mpr hm, fileMap_eq_none]
    intro hm'
    obtain ⟨e, he, rfl⟩ := List.mem_map.mp hm'
    exact hm (List.mem_map_of_mem ((h e rfl).mp he))

theorem fileMap_replaceEntry {fs : Fs} {new : Entry} (hw : WellFormed fs entries)
    (hw' : WellFormed fs (replaceEntry entries new))
    (hc : ∀ e ∈ entries, content c' e = content c e) :
    fileMap (replaceEntry entries new) c' =
      Function.update (fileMap entries c) new.name (some (content c' new)) := by
  funext name
  by_cases h : name = new.name
  · subst h
    rw [Function.update_self, fileMap_of_mem hw'.nodup (mem_replaceEntry.mpr (Or.inr rfl))]
  · rw [Function.update_of_ne h]
    refine fileMap_eq_of_mem_iff hw.nodup hw'.nodup (fun e he => ?_) hc
    rw [mem_replaceEntry]
    constructor
    · rintro (⟨hm, _⟩ | rfl)
      · exact hm
      · exact absurd he.symm h
    · exact fun hm => Or.inl ⟨hm, he.trans_ne h⟩

theorem fileMap_filter {fs : Fs} (hw : WellFormed fs entries) {filename : Bytes}
    (hc : ∀ e ∈ entries, content c' e = content c e) :
    fileMap (entries.filter (·.name ≠ filename)) c' =
      Function.update (fileMap entries c) filename none := by
  funext name
  by_cases h : name = filename
  · subst h
    rw [Function.update_self, fileMap_eq_none]
    simp
  · rw [Function.update_of_ne h]
    refine fileMap_eq_of_mem_iff hw.nodup (hw.filter _).nodup (fun e he => ?_) hc
    rw [List.mem_filter]
    exact and_iff_left (decide_eq_true (he.trans_ne h))

end FileMap

/-- The superblock is one that `write_superblock` wrote. -/
def Stored (entries : List Entry) (c : Disk) : Prop :=
  ∃ nextFree, c.read 0 2560 = layout entries nextFree

theorem stored_layout {entries : List Entry} {c : Disk} (hl : entries.length ≤ maxFiles)
    (nf : ℤ) : Stored entries (c.write 0 (layout entries nf)) := by
  refine ⟨nf, ?_⟩
  have := Disk.read_write_same c 0 (layout entries nf)
  rwa [layout_length hl] at this

theorem Stored.write_data {entries : List Entry} {c : Disk} (hst : Stored entries c)
    (data : Bytes) : Stored entries (c.write ((nextFree entries).toNat * 512) data) := by
  obtain ⟨nf, hread⟩ := hst
  have hnf := five_le_nextFree entries
  exact ⟨nf, by rw [Disk.read_write_disjoint (Or.inl (by omega)), hread]⟩

section Step

variable {n : ℕ} {entries : List Entry} {fs : Fs} {c : Disk}
variable (h5 : 5 ≤ n) (hn : n < 2 ^ 31)

theorem Mounted.start_ge (hn : n < 2 ^ 31) (hm : Mounted n entries fs c) {e : Entry}
    (he : e ∈ entries) : 5 ≤ e.start :=
  ((hm.entryOk he).end_le hn).1

include h5 hn

theorem Mounted.writeFile_replaces (hm : Mounted n entries fs c) {filename data : Bytes}
    (hname : GoodName filename) (hdata : data.length < 2 ^ 31)
    (hr : ¬ Refused fs entries (nextFree entries) filename data) :
    ∃ fs' c', (writeFile filename data).run (Disk.handler n) fs c = (.done (.ok ()), fs', c') ∧
      Mounted n (replaceEntry entries (newEntry entries filename data)) fs' c' ∧
      Stored (replaceEntry entries (newEntry entries filename data)) c' ∧
      (∀ e ∈ entries, content c' e = content c e) ∧
      content c' (newEntry entries filename data) = data := by
  obtain ⟨nf, -, hrun⟩ := hm.run_writeFile h5 hn hdata hr
  have hw := hm.replaceEntry_wellFormed hn hname hdata hr
  have hl := layout_length hw.length_le nf
  refine ⟨_, _, hrun, mounted_layout (hm.fs_eq ▸ hw) nf, stored_layout hw.length_le nf, ?_, ?_⟩
  · intro e he
    rw [content_write_directory hl (hm.start_ge hn he),
      content_write_data (hm.start_ge hn he) (le_nextFree he)]
  · rw [content_write_directory hl (five_le_nextFree _)]
    exact content_stored

theorem Mounted.writeFile_stores (hm : Mounted n entries fs c) {filename data : Bytes}
    (hname : GoodName filename) (hdata : data.length < 2 ^ 31)
    (hr : ¬ Refused fs entries (nextFree entries) filename data) :
    ∃ entries' fs' c', (writeFile filename data).run (Disk.handler n) fs c =
        (.done (.ok ()), fs', c') ∧ Mounted n entries' fs' c' ∧ Stored entries' c' ∧
      fileMap entries' c' = Function.update (fileMap entries c) filename (some data) := by
  obtain ⟨fs', c', hrun, hm', hst, hkeep, hnew⟩ := hm.writeFile_replaces h5 hn hname hdata hr
  refine ⟨_, fs', c', hrun, hm', hst, ?_⟩
  rw [fileMap_replaceEntry hm.wellFormed (hm.replaceEntry_wellFormed hn hname hdata hr) hkeep, hnew]
  rfl

theorem Mounted.deleteFile_filters (hm : Mounted n entries fs c) {filename : Bytes}
    (hname : filename ∈ entries.map Entry.name) :
    ∃ fs' c', (deleteFile filename).run (Disk.handler n) fs c = (.done (.ok ()), fs', c') ∧
      Mounted n (entries.filter (·.name ≠ filename)) fs' c' ∧
      Stored (entries.filter (·.name ≠ filename)) c' ∧
      ∀ e ∈ entries, content c' e = content c e := by
  have hw := hm.wellFormed.filter (fun e => e.name ≠ filename)
  refine ⟨_, _, hm.run_deleteFile h5 hn hname, mounted_layout (hm.fs_eq ▸ hw) _,
    stored_layout hw.length_le _, fun e he => ?_⟩
  exact content_write_directory (layout_length hw.length_le _) (hm.start_ge hn he)

theorem Mounted.deleteFile_removes (hm : Mounted n entries fs c) {filename : Bytes}
    (hname : filename ∈ entries.map Entry.name) :
    ∃ entries' fs' c', (deleteFile filename).run (Disk.handler n) fs c =
        (.done (.ok ()), fs', c') ∧ Mounted n entries' fs' c' ∧ Stored entries' c' ∧
      fileMap entries' c' = Function.update (fileMap entries c) filename none := by
  obtain ⟨fs', c', hrun, hm', hst, hkeep⟩ := hm.deleteFile_filters h5 hn hname
  exact ⟨_, fs', c', hrun, hm', hst, fileMap_filter hm.wellFormed hkeep⟩

theorem Mounted.connect_keeps (hm : Mounted n entries fs c) (repair : Bool) :
    ∃ fs' c', (connect repair).run (Disk.handler n) fs c = (.done (), fs', c') ∧
      Mounted n entries fs' c' ∧ (Stored entries c → Stored entries c') ∧
      fileMap entries c' = fileMap entries c := by
  have hparsed : parsedEntries ⟨deviceInfo n, ∅⟩ c = entries := by
    rw [← hm.parsed, hm.fs_eq]
    rfl
  obtain ⟨c', hrun, hm', hc⟩ := run_connect_formatted h5 repair fs hm.magic hparsed
  rcases hc with rfl | ⟨nf, rfl⟩
  · exact ⟨_, c', hrun, hm', id, rfl⟩
  · refine ⟨_, _, hrun, hm', fun _ => stored_layout hm.wellFormed.length_le nf,
      fileMap_congr fun e he => ?_⟩
    exact content_write_directory (layout_length hm.wellFormed.length_le nf) (hm.start_ge hn he)

/-- **One operation keeps the invariant and acts on the files as its reply says.** -/
theorem Mounted.step (hm : Mounted n entries fs c) {op : FsOp} (ha : op.Admissible) :
    ∃ reply entries' fs' c', op.perform.run (Disk.handler n) fs c = (.done reply, fs', c') ∧
      Mounted n entries' fs' c' ∧ fileMap entries' c' = (fileMap entries c).after op reply ∧
      (reply.Refuses → fs' = fs ∧ c' = c) ∧ (Stored entries c → Stored entries' c') := by
  have same : fs = fs ∧ c = c := ⟨rfl, rfl⟩
  cases op with
  | writeFile filename data =>
    by_cases hr : Refused fs entries (nextFree entries) filename data
    · exact ⟨_, _, _, _, Prog.run_bind_done (hm.run_writeFile_refused h5 hn hr) _, hm, rfl,
        fun _ => same, id⟩
    · obtain ⟨entries', fs', c', hrun, hm', hst, hf⟩ := hm.writeFile_stores h5 hn ha.1 ha.2 hr
      exact ⟨_, entries', fs', c', Prog.run_bind_done hrun _, hm', hf, False.elim, fun _ => hst⟩
  | createFile filename data =>
    have hcreate := run_createFile (Disk.handler n) fs c filename data
    by_cases hmem : filename ∈ fs.cache
    · rw [if_pos hmem] at hcreate
      exact ⟨_, _, _, _, Prog.run_bind_done hcreate _, hm, rfl, fun _ => same, id⟩
    · rw [if_neg hmem] at hcreate
      by_cases hr : Refused fs entries (nextFree entries) filename data
      · rw [hm.run_writeFile_refused h5 hn hr] at hcreate
        exact ⟨_, _, _, _, Prog.run_bind_done hcreate _, hm, rfl, fun _ => same, id⟩
      · obtain ⟨entries', fs', c', hrun, hm', hst, hf⟩ := hm.writeFile_stores h5 hn ha.1 ha.2 hr
        exact ⟨_, entries', fs', c', Prog.run_bind_done (hcreate.trans hrun) _, hm', hf, False.elim,
          fun _ => hst⟩
  | readFile filename =>
    by_cases hmem : filename ∈ entries.map Entry.name
    · obtain ⟨e, he, rfl⟩ := List.mem_map.mp hmem
      exact ⟨_, _, _, _, Prog.run_bind_done (hm.run_readFile hn he) _, hm, rfl, fun _ => same, id⟩
    · exact ⟨_, _, _, _, Prog.run_bind_done (hm.run_readFile_absent hmem) _, hm, rfl,
        fun _ => same, id⟩
  | deleteFile filename =>
    by_cases hmem : filename ∈ entries.map Entry.name
    · obtain ⟨entries', fs', c', hrun, hm', hst, hf⟩ := hm.deleteFile_removes h5 hn hmem
      exact ⟨_, entries', fs', c', Prog.run_bind_done hrun _, hm', hf, False.elim, fun _ => hst⟩
    · exact ⟨_, _, _, _, Prog.run_bind_done (hm.run_deleteFile_absent h5 hn hmem) _, hm, rfl,
        fun _ => same, id⟩
  | ls => exact ⟨_, _, _, _, rfl, hm, rfl, False.elim, id⟩
  | connect repair =>
    obtain ⟨fs', c', hrun, hm', hst, hf⟩ := hm.connect_keeps h5 hn repair
    exact ⟨_, entries, fs', c', Prog.run_bind_done hrun _, hm', hf, False.elim, hst⟩

/-- A run of operations from a mounted disk. -/
theorem Mounted.steps (hm : Mounted n entries fs c) {ops : List FsOp}
    (ha : ∀ op ∈ ops, op.Admissible) :
    ∃ replies entries' fs' c', (FsOp.performAll ops).run (Disk.handler n) fs c =
        (.done replies, fs', c') ∧ replies.length = ops.length ∧ Mounted n entries' fs' c' ∧
      fileMap entries' c' = (fileMap entries c).replay (ops.zip replies) ∧
      (Stored entries c → Stored entries' c') := by
  induction ops generalizing entries fs c with
  | nil => exact ⟨[], entries, fs, c, rfl, rfl, hm, rfl, id⟩
  | cons op ops ih =>
    obtain ⟨reply, entries₁, fs₁, c₁, hrun, hm₁, hf₁, _, hst₁⟩ :=
      hm.step h5 hn (ha op List.mem_cons_self)
    obtain ⟨replies, entries₂, fs₂, c₂, hruns, hl, hm₂, hf₂, hst₂⟩ :=
      ih hm₁ fun op' h => ha op' (List.mem_cons_of_mem _ h)
    refine ⟨reply :: replies, entries₂, fs₂, c₂, ?_, by simp [hl], hm₂, ?_, hst₂ ∘ hst₁⟩
    · rw [FsOp.performAll, Prog.run_bind_done hrun, Prog.run_bind_done hruns]
      rfl
    · rw [hf₂, hf₁]
      rfl

end Step

end OCamlStudy.NanoOs
