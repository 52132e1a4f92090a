import OCamlStudy.NanoOs.Turns

/-! # Lost updates

Two writes that both read the directory before either of them writes it: the
later directory no longer has the file of the earlier one, and both are told
that they succeeded.
-/

namespace OCamlStudy.NanoOs

open OCaml Program Shell

variable {n : ℕ} {entries : List Entry} {fs : Fs} {c : Disk} (h5 : 5 ≤ n) (hn : n < 2 ^ 31)

include h5 hn

section TwoWrites

variable (hm : Mounted n entries fs c) {cmdStr cmdStr' filename filename' : Bytes}
  {words words' : List Bytes} (hparse : parse cmdStr = .write filename words)
  (hparse' : parse cmdStr' = .write filename' words')
  (hdata : (concatWords words).length < 2 ^ 31) (hdata' : (concatWords words').length < 2 ^ 31)
  (hr : ¬ Refused fs entries (nextFree entries) filename (concatWords words))
  (hr' : ¬ Refused fs entries (nextFree entries) filename' (concatWords words'))

include hm hparse hparse' hdata hdata' hr hr'

theorem lost_update : ∃ w : World (Disk.device n),
    Reaches World.step (fun _ _ => True) (World.start (Disk.device n) fs c [cmdStr, cmdStr']) w ∧
      w.Replied 0 (writeReply (fs.cache.keys.any (· = filename)) (.ok ())) ∧
      w.Replied 1 (writeReply (fs.cache.keys.any (· = filename')) (.ok ())) ∧ w.Done ∧
      w.fs.cache = cacheOf (replaceEntry entries
        (newEntry entries filename' (concatWords words'))) := by
  obtain ⟨p, q, k, nf, hbegin, hplace, hstore, hcommit⟩ :=
    hm.settle_write h5 hn fs hparse hdata hr
  obtain ⟨p', q', k', nf', hbegin', hplace', hstore', hcommit'⟩ :=
    hm.settle_write h5 hn fs hparse' hdata' hr'
  have hrange := (hm.inRange_data hn hdata hr).1
  have hrange' := (hm.inRange_data hn hdata' hr').1
  have hl := hm.length_replaceEntry_le hn hr
  have hl' := hm.length_replaceEntry_le hn hr'
  have hread := handler_read_superblock (c := c) h5
  obtain ⟨x₁, hx₁, hp₁, t₁⟩ := World.start_disk (n := n) (c := c) (i := 0)
    (l := [.waiting cmdStr c, .waiting cmdStr' c]) rfl hbegin
  obtain ⟨y₁, hy₁, hq₁, u₁⟩ := World.start_disk (n := n) (c := c) (i := 1)
    (l := [x₁, .waiting cmdStr' c]) rfl hbegin'
  obtain ⟨x₂, hx₂, hp₂, t₂⟩ := World.step_disk (i := 0) (l := [x₁, y₁]) rfl hx₁ hp₁
    (handler_read_superblock h5) hplace
  obtain ⟨y₂, hy₂, hq₂, u₂⟩ := World.step_disk (i := 1) (l := [x₂, y₁]) rfl hy₁ hq₁
    (handler_read_superblock h5) hplace'
  obtain ⟨x₃, hx₃, hp₃, t₃⟩ := World.step_disk (i := 0) (l := [x₂, y₂]) rfl hx₂ hp₂
    (if_pos hrange) (hstore fs)
  obtain ⟨y₃, hy₃, hq₃, u₃⟩ := World.step_disk (i := 1) (l := [x₃, y₂]) rfl hy₂ hq₂
    (if_pos hrange') (hstore' fs)
  obtain ⟨x₄, hx₄, hp₄, t₄⟩ := World.step_disk (i := 0) (l := [x₃, y₃]) rfl hx₃ hp₃
    (handler_write_superblock h5 (layout_length hl nf)) (hcommit fs)
  obtain ⟨y₄, hy₄, hq₄, u₄⟩ := World.step_disk (i := 1) (l := [x₄, y₃]) rfl hy₃ hq₃
    (handler_write_superblock h5 (layout_length hl' nf')) (hcommit' _)
  refine ⟨_, .head 0 trivial t₁ <| .head 1 trivial u₁ <| .head 0 trivial t₂ <|
    .head 1 trivial u₂ <| .head 0 trivial t₃ <| .head 1 trivial u₃ <| .head 0 trivial t₄ <|
    .head 1 trivial u₄ <| .refl _, ⟨x₄, rfl, hx₄, hp₄⟩, ⟨y₄, rfl, hy₄, hq₄⟩, ?_, rfl⟩
  intro r hr
  rcases List.mem_pair.mp hr with rfl | rfl
  · exact ⟨hx₄, _, hp₄⟩
  · exact ⟨hy₄, _, hq₄⟩

end TwoWrites

omit h5 hn in
theorem eval_write {cmdStr filename : Bytes} {words : List Bytes}
    (hparse : parse cmdStr = .write filename words) {fs' : Fs} {c' : Disk}
    {res : Except FsError Unit}
    (hrun : (writeFile filename (concatWords words)).run (Disk.handler n) fs c =
      (.done res, fs', c')) :
    (eval cmdStr).run (Disk.handler n) fs c =
      (.done (writeReply (fs.cache.keys.any (· = filename)) res), fs', c') := by
  rw [eval, hparse]
  exact Prog.run_bind_done hrun _

theorem Mounted.eval_write_stores (hm : Mounted n entries fs c) {cmdStr filename : Bytes}
    {words : List Bytes} (hparse : parse cmdStr = .write filename words) (hname : GoodName filename)
    (hdata : (concatWords words).length < 2 ^ 31)
    (hr : ¬ Refused fs entries (nextFree entries) filename (concatWords words)) :
    ∃ reply fs' c', (eval cmdStr).run (Disk.handler n) fs c = (.done reply, fs', c') ∧
      Mounted n (replaceEntry entries (newEntry entries filename (concatWords words))) fs' c' := by
  obtain ⟨nf, -, hrun⟩ := hm.run_writeFile h5 hn hdata hr
  have hw := hm.replaceEntry_wellFormed hn hname hdata hr
  rw [hm.fs_eq] at hw
  exact ⟨_, _, _, eval_write hparse hrun, mounted_layout hw nf⟩

theorem Mounted.evalAll_writes (hm : Mounted n entries fs c)
    {cmdStr cmdStr' filename filename' : Bytes}
    {words words' : List Bytes} (hparse : parse cmdStr = .write filename words)
    (hparse' : parse cmdStr' = .write filename' words') (hname : GoodName filename)
    (hname' : GoodName filename') (hdata : (concatWords words).length < 2 ^ 31)
    (hdata' : (concatWords words').length < 2 ^ 31)
    (hr : ¬ Refused fs entries (nextFree entries) filename (concatWords words))
    (hr' : ∀ fs', fs'.info = deviceInfo n →
      ¬ Refused fs' (replaceEntry entries (newEntry entries filename (concatWords words)))
        (nextFree (replaceEntry entries (newEntry entries filename (concatWords words))))
        filename' (concatWords words')) {replies : List Bytes} {fs' : Fs} {c' : Disk}
    (hrun : (evalAll [cmdStr, cmdStr']).run (Disk.handler n) fs c = (.done replies, fs', c')) :
    filename ∈ fs'.cache ∧ filename' ∈ fs'.cache := by
  obtain ⟨reply, fs₁, c₁, hone, hm₁⟩ := hm.eval_write_stores h5 hn hparse hname hdata hr
  obtain ⟨reply', fs₂, c₂, htwo, hm₂⟩ := hm₁.eval_write_stores h5 hn hparse' hname' hdata'
    (hr' fs₁ (by rw [hm₁.fs_eq]))
  have hall : (evalAll [cmdStr, cmdStr']).run (Disk.handler n) fs c =
      (.done [reply, reply'], fs₂, c₂) := by
    rw [evalAll, Prog.run_bind_done hone, evalAll,
      Prog.run_bind_done (Prog.run_bind_done htwo _)]
    rfl
  rw [hall] at hrun
  cases hrun
  rw [hm₂.fs_eq]
  simp only [mem_cacheOf hm₂.wellFormed.nodup, List.mem_map, mem_replaceEntry]
  constructor
  · by_cases hsame : filename = filename'
    · exact ⟨_, Or.inr rfl, hsame.symm⟩
    · exact ⟨_, Or.inl ⟨Or.inr rfl, hsame⟩, rfl⟩
  · exact ⟨_, Or.inr rfl, rfl⟩

omit h5 hn in
/-- Two clients create a file each; both are told so, and one file is gone. -/
theorem write_lost : ∃ (c₀ : Disk) (w : World (Disk.device 64)),
    Mounted 64 [] ⟨deviceInfo 64, cacheOf []⟩ c₀ ∧
      Reaches World.step (fun _ _ => True) (World.start (Disk.device 64)
        ⟨deviceInfo 64, cacheOf []⟩ c₀ [bytes "write a x", bytes "write b y"]) w ∧
      w.Replied 0 (bytes "File created successfully.") ∧
      w.Replied 1 (bytes "File created successfully.") ∧ w.Done ∧ bytes "a" ∉ w.fs.cache ∧
      ¬ Linearizable (Disk.device 64) [bytes "write a x", bytes "write b y"]
        ⟨deviceInfo 64, cacheOf []⟩ c₀ w := by
  have hm : Mounted 64 [] ⟨deviceInfo 64, cacheOf []⟩ (Disk.write (fun _ => 0) 0 (layout [] 5)) :=
    mounted_layout (WellFormed.nil : WellFormed ⟨deviceInfo 64, ∅⟩ []) 5
  have ha : parse (bytes "write a x") = .write (bytes "a") [bytes "x"] := by decide
  have hb : parse (bytes "write b y") = .write (bytes "b") [bytes "y"] := by decide
  have hgood : GoodName (bytes "a") := by decide
  have hgood' : GoodName (bytes "b") := by decide
  obtain ⟨w, hrun, h0, h1, hd, hc⟩ := lost_update (by decide) (by decide) hm ha hb (by decide)
    (by decide) (by decide) (by decide)
  have hgone : bytes "a" ∉ w.fs.cache := by
    rw [hc]
    decide
  refine ⟨_, w, hm, hrun, h0, h1, hd, hgone, ?_⟩
  rintro ⟨log, fs, s, hperm, hall, _, hsame, _⟩
  refine hgone ((hsame _).mpr ?_)
  have horder : log.map Prod.fst = [0, 1] ∨ log.map Prod.fst = [1, 0] := by
    obtain ⟨i, j, hij⟩ := List.length_eq_two.mp hperm.length_eq
    rw [hij] at hperm ⊢
    have h0 : 0 ∈ [i, j] := hperm.mem_iff.mpr (by decide)
    have h1 : 1 ∈ [i, j] := hperm.mem_iff.mpr (by decide)
    simp only [List.mem_cons, List.not_mem_nil, or_false] at h0 h1
    simp only [List.cons.injEq, and_true]
    omega
  have hcmds : (log.map fun p => [bytes "write a x", bytes "write b y"].getD p.1 []) =
      (log.map Prod.fst).map fun i => [bytes "write a x", bytes "write b y"].getD i [] := by
    rw [List.map_map]
    rfl
  rw [hcmds] at hall
  rcases horder with horder | horder
  · rw [horder] at hall
    refine (hm.evalAll_writes (by decide) (by decide) ha hb hgood hgood' (by decide) (by decide)
      (by decide) ?_ hall).1
    intro fs' hinfo
    rw [Refused, hinfo]
    decide
  · rw [horder] at hall
    refine (hm.evalAll_writes (by decide) (by decide) hb ha hgood' hgood (by decide) (by decide)
      (by decide) ?_ hall).2
    intro fs' hinfo
    rw [Refused, hinfo]
    decide

end OCamlStudy.NanoOs
