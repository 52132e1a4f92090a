import OCamlStudy.NanoOs.LostUpdate
import OCamlStudy.NanoOs.MapView
import OCamlStudy.NanoOs.ReferenceShell

/-! # Transcripts of the shell

On the RAM disk the shell answers as the reference does, line by line: the map of
the reference holds the files of the directory with their contents and first
sectors, and every command takes both to the same files again.
-/

namespace OCamlStudy.NanoOs

open OCaml Program Shell Reference

/-- The map of the reference holds the files of the directory. -/
def Shows (files : Files) (entries : List Entry) (c : Disk) : Prop := ∀ name file,
  files.lookup name = some file ↔
    ∃ e ∈ entries, e.name = name ∧ file = ⟨e.start.toNat, content c e⟩

theorem Reference.top_le_iff {files : Files} {m : ℕ} : top files ≤ m ↔
    5 ≤ m ∧ ∀ file ∈ files.entries, file.2.start + sectors file.2.data ≤ m := by
  unfold top
  induction files.entries with
  | nil => simp
  | cons file entries ih =>
      rw [List.foldr_cons, max_le_iff, ih, List.forall_mem_cons, and_left_comm]

theorem Reference.sectors_eq (data : Bytes) : (sectors data : ℤ) = sectorsForSize data.length := by
  unfold sectors sectorsForSize
  split_ifs <;> omega

theorem content_length (c : Disk) (e : Entry) : (content c e).length = e.size.toNat :=
  Disk.read_length

theorem Reference.sectors_content {c : Disk} {e : Entry} (h0 : 0 ≤ e.size) :
    (sectors (content c e) : ℤ) = sectorsForSize e.size := by
  rw [sectors_eq, content_length, Int.toNat_of_nonneg h0]

section Shows

variable {files : Files} {entries : List Entry} {fs : Fs} {c c' : Disk} {name filename data : Bytes}

theorem shows_nil : Shows ∅ [] c := by
  intro name file
  constructor
  · intro h
    cases h
  · rintro ⟨e, he, _⟩
    cases he

variable (hs : Shows files entries c)

include hs

theorem Shows.lookup_eq {e : Entry} (he : e ∈ entries) :
    files.lookup e.name = some ⟨e.start.toNat, content c e⟩ := (hs _ _).mpr ⟨e, he, rfl, rfl⟩

theorem Shows.mem_iff : name ∈ files ↔ name ∈ entries.map Entry.name := by
  rw [← AList.lookup_isSome, Option.isSome_iff_exists, List.mem_map]
  constructor
  · rintro ⟨file, hl⟩
    obtain ⟨e, he, hname, _⟩ := (hs _ _).mp hl
    exact ⟨e, he, hname⟩
  · rintro ⟨e, he, rfl⟩
    exact ⟨_, hs.lookup_eq he⟩

theorem Shows.lookup_none (h : name ∉ entries.map Entry.name) : files.lookup name = none := by
  rw [← Option.not_isSome_iff_eq_none, AList.lookup_isSome, hs.mem_iff]
  exact h

theorem Shows.fileMap_eq (hn : (entries.map Entry.name).Nodup) :
    fileMap entries c = fun name => (files.lookup name).map File.data := by
  funext name
  by_cases h : name ∈ entries.map Entry.name
  · obtain ⟨e, he, rfl⟩ := List.mem_map.mp h
    rw [fileMap_of_mem hn he, hs.lookup_eq he]
    rfl
  · rw [fileMap_eq_none.mpr h, hs.lookup_none h]
    rfl

theorem Shows.erase : Shows (files.erase filename) (entries.filter (·.name ≠ filename)) c := by
  intro name file
  by_cases h : name = filename
  · subst h
    rw [AList.lookup_erase]
    constructor
    · intro hl
      cases hl
    · rintro ⟨e, he, hname, _⟩
      exact absurd hname (of_decide_eq_true (List.mem_filter.mp he).2)
  · rw [AList.lookup_erase_ne h, hs]
    constructor
    · rintro ⟨e, he, rfl, hfile⟩
      exact ⟨e, List.mem_filter.mpr ⟨he, decide_eq_true h⟩, rfl, hfile⟩
    · rintro ⟨e, he, hname, hfile⟩
      exact ⟨e, (List.mem_filter.mp he).1, hname, hfile⟩

theorem Shows.congr (h : ∀ e ∈ entries, content c' e = content c e) : Shows files entries c' := by
  intro name file
  rw [hs]
  constructor
  · rintro ⟨e, he, hname, rfl⟩
    exact ⟨e, he, hname, by rw [h e he]⟩
  · rintro ⟨e, he, hname, rfl⟩
    exact ⟨e, he, hname, by rw [h e he]⟩

variable (hm : Mounted 2048 entries fs c)

include hm

theorem Shows.length_keys : files.keys.length = entries.length := by
  have hperm : files.keys.Perm (entries.map Entry.name) := by
    rw [List.perm_ext_iff_of_nodup files.keys_nodup hm.wellFormed.nodup]
    intro name
    rw [← AList.mem_keys, hs.mem_iff]
  rw [hperm.length_eq, List.length_map]

/-- The reference allocates where the file system does. -/
theorem Shows.top_eq : (top files : ℤ) = nextFree entries := by
  have hsize {e : Entry} (he : e ∈ entries) := (hm.entryOk he).end_le (n := 2048) (by decide)
  apply le_antisymm
  · have h5 := five_le_nextFree entries
    obtain ⟨m, hm'⟩ := Int.eq_ofNat_of_zero_le (show 0 ≤ nextFree entries by omega)
    rw [hm', Nat.cast_le, top_le_iff]
    constructor
    · omega
    · intro file hfile
      obtain ⟨e, he, _, hdata⟩ := (hs _ _).mp (AList.mem_lookup_iff.mpr hfile)
      obtain ⟨hstart, h0, _⟩ := hsize he
      have hle := le_nextFree he
      rw [hdata]
      dsimp only
      have := sectors_content (c := c) h0
      omega
  · rw [nextFree_le_iff]
    constructor
    · exact_mod_cast (top_le_iff.mp le_rfl).1
    · intro e he
      obtain ⟨hstart, h0, _⟩ := hsize he
      have hle := (top_le_iff.mp le_rfl).2 _ (AList.mem_lookup_iff.mp (hs.lookup_eq he))
      dsimp only at hle
      have := sectors_content (c := c) h0
      omega

theorem Shows.full_iff : Full files filename data ↔
    Refused fs entries (nextFree entries) filename data := by
  rw [hm.refused_iff (by decide), Full, hs.mem_iff, hs.length_keys hm, ← hs.top_eq hm,
    ← sectors_eq]
  norm_cast

theorem Shows.store (hkeep : ∀ e ∈ entries, content c' e = content c e)
    (hnew : content c' (newEntry entries filename data) = data) :
    Shows (store files filename data)
      (replaceEntry entries (newEntry entries filename data)) c' := by
  have hstart : (newEntry entries filename data).start.toNat = top files := by
    rw [newEntry, ← hs.top_eq hm, Int.toNat_natCast]
  intro name file
  rw [Reference.store]
  by_cases h : name = filename
  · subst h
    rw [AList.lookup_insert, Option.some.injEq]
    constructor
    · rintro rfl
      exact ⟨_, mem_replaceEntry.mpr (Or.inr rfl), rfl, by rw [hstart, hnew]⟩
    · rintro ⟨e, he, hname, rfl⟩
      rcases mem_replaceEntry.mp he with ⟨_, hne⟩ | rfl
      · exact absurd hname hne
      · rw [hstart, hnew]
  · rw [AList.lookup_insert_ne h, hs.congr hkeep]
    constructor
    · rintro ⟨e, he, rfl, hfile⟩
      exact ⟨e, mem_replaceEntry.mpr (Or.inl ⟨he, h⟩), rfl, hfile⟩
    · rintro ⟨e, he, rfl, hfile⟩
      rcases mem_replaceEntry.mp he with ⟨he, _⟩ | rfl
      · exact ⟨e, he, rfl, hfile⟩
      · exact absurd rfl h

end Shows

/-- The shell performs the command as the reference does, in the given state. -/
def Agrees (files : Files) (fs : Fs) (c : Disk) (cmd : Command) : Prop :=
  ∃ reply entries' fs' c', cmd.perform.run (Disk.handler 2048) fs c = (.done reply, fs', c') ∧
    Mounted 2048 entries' fs' c' ∧ Shows (act files cmd).2 entries' c' ∧
    (act files cmd).1.Matches reply

section Perform

variable {S : Type} {h : BlockHandler S} {fs fs' : Fs} {s s' : S} {filename : Bytes}

theorem run_perform_write {rest : List Bytes} {res : Except FsError Unit}
    (hrun : (writeFile filename (concatWords rest)).run h fs s = (.done res, fs', s')) :
    (Command.write filename rest).perform.run h fs s =
      (.done (writeReply (fs.cache.keys.any (· = filename)) res), fs', s') :=
  Prog.run_bind_done hrun _

theorem run_perform_touch {res : Except FsError Unit}
    (hrun : (createFile filename []).run h fs s = (.done res, fs', s')) :
    (Command.touch filename).perform.run h fs s = (.done (touchReply filename res), fs', s') :=
  Prog.run_bind_done hrun _

theorem run_perform_rm {res : Except FsError Unit}
    (hrun : (deleteFile filename).run h fs s = (.done res, fs', s')) :
    (Command.rm filename).perform.run h fs s = (.done (rmReply filename res), fs', s') :=
  Prog.run_bind_done hrun _

theorem run_perform_cat {res : Except FsError Bytes}
    (hrun : (readFile filename).run h fs s = (.done res, fs', s')) :
    (Command.cat filename).perform.run h fs s = (.done (catReply filename res), fs', s') :=
  Prog.run_bind_done hrun _

end Perform

section Commands

variable {files : Files} {entries : List Entry} {fs : Fs} {c : Disk} {filename : Bytes}
  (hm : Mounted 2048 entries fs c) (hs : Shows files entries c)

include hm hs

theorem agrees_of_unchanged {cmd : Command} {reply : Bytes} {a : Answer}
    (hrun : cmd.perform.run (Disk.handler 2048) fs c = (.done reply, fs, c))
    (hact : act files cmd = (a, files)) (hmatch : a.Matches reply) :
    Agrees files fs c cmd := by
  refine ⟨reply, entries, fs, c, hrun, hm, ?_, ?_⟩
  · rw [hact]
    exact hs
  · rw [hact]
    exact hmatch

theorem mem_cache_iff : filename ∈ fs.cache ↔ filename ∈ files := by
  rw [hm.fs_eq, mem_cacheOf hm.wellFormed.nodup, hs.mem_iff]

theorem agrees_ls : Agrees files fs c .ls := by
  have hkeys : fs.cache.keys = [] ↔ files.keys = [] := by
    simp only [List.eq_nil_iff_forall_not_mem, ← AList.mem_keys, mem_cache_iff hm hs]
  by_cases hempty : files.keys = []
  · apply agrees_of_unchanged hm hs (a := .text (bytes "Directory is empty.")) rfl
    · rw [act, if_pos hempty]
    · exact if_pos (hkeys.mpr hempty)
  · apply agrees_of_unchanged hm hs (a := .listing files.keys) rfl
    · rw [act, if_neg hempty]
    · intro line
      have hne : fs.cache.keys ≠ [] := mt hkeys.mp hempty
      rw [lsReply, if_neg hne, show bytes "\n" = [10] from rfl, mem_splitOn_intercalate hne]
      simp only [← AList.mem_keys, mem_cache_iff hm hs]

theorem agrees_cat : Agrees files fs c (.cat filename) := by
  by_cases hmem : filename ∈ entries.map Entry.name
  · obtain ⟨e, he, rfl⟩ := List.mem_map.mp hmem
    have hread := hm.run_readFile (by decide) he
    apply agrees_of_unchanged hm hs (a := .text (content c e)) (run_perform_cat hread)
    · rw [act, hs.lookup_eq he]
    · rfl
  · have hread := hm.run_readFile_absent hmem
    apply agrees_of_unchanged hm hs (run_perform_cat hread)
    · rw [act, hs.lookup_none hmem]
    · rfl

omit hm hs in
theorem length_lt_of_not_full {data : Bytes} (h : ¬ Full files filename data) :
    data.length < 2 ^ 31 := by
  have hfits := (not_or.mp h).2
  unfold sectors at hfits
  omega

theorem agrees_write {rest : List Bytes} (hname : GoodName filename) :
    Agrees files fs c (.write filename rest) := by
  have hexisted : fs.cache.keys.any (· = filename) = decide (filename ∈ files) := by
    rw [Bool.eq_iff_iff, List.any_eq_true, decide_eq_true_eq, ← mem_cache_iff hm hs, AList.mem_keys]
    simp
  by_cases hfull : Full files filename (concatWords rest)
  · have hr := (hs.full_iff hm).mp hfull
    have hwrite := hm.run_writeFile_refused (by decide) (by decide) hr
    apply agrees_of_unchanged hm hs (run_perform_write hwrite)
    · rw [act]
      exact if_pos hfull
    · rfl
  · have hr := mt (hs.full_iff hm).mpr hfull
    obtain ⟨fs', c', hwrite, hm', _, hkeep, hnew⟩ := hm.writeFile_replaces (by decide) (by decide)
      hname (length_lt_of_not_full hfull) hr
    have hact : act files (.write filename rest) =
        (.text (if filename ∈ files then bytes "File overwritten successfully."
          else bytes "File created successfully."), store files filename (concatWords rest)) := by
      rw [act]
      refine (if_neg hfull).trans ?_
      split_ifs <;> rfl
    refine ⟨_, _, fs', c', run_perform_write hwrite, hm', ?_, ?_⟩
    · rw [hact]
      exact hs.store hm hkeep hnew
    · rw [hact]
      rw [hexisted, writeReply]
      simp only [decide_eq_true_eq]
      rfl

theorem agrees_touch (hname : GoodName filename) : Agrees files fs c (.touch filename) := by
  have hcreate := run_createFile (Disk.handler 2048) fs c filename []
  by_cases hmem : filename ∈ files
  · rw [if_pos ((mem_cache_iff hm hs).mpr hmem)] at hcreate
    apply agrees_of_unchanged hm hs (run_perform_touch hcreate)
    · rw [act, if_pos hmem]
    · rfl
  · rw [if_neg (mt (mem_cache_iff hm hs).mp hmem)] at hcreate
    by_cases hfull : Full files filename []
    · have hr := (hs.full_iff hm).mp hfull
      rw [hm.run_writeFile_refused (by decide) (by decide) hr] at hcreate
      apply agrees_of_unchanged hm hs (run_perform_touch hcreate)
      · rw [act, if_neg hmem, if_pos hfull]
      · rfl
    · have hr := mt (hs.full_iff hm).mpr hfull
      obtain ⟨fs', c', hwrite, hm', _, hkeep, hnew⟩ := hm.writeFile_replaces (by decide)
        (by decide) hname (length_lt_of_not_full hfull) hr
      have hact : act files (.touch filename) =
          (.text (bytes "File created."), store files filename []) := by
        rw [act, if_neg hmem, if_neg hfull]
      refine ⟨_, _, fs', c', run_perform_touch (hcreate.trans hwrite), hm', ?_, ?_⟩
      · rw [hact]
        exact hs.store hm hkeep hnew
      · rw [hact]
        rfl

theorem agrees_rm : Agrees files fs c (.rm filename) := by
  by_cases hmem : filename ∈ entries.map Entry.name
  · obtain ⟨fs', c', hdelete, hm', _, hkeep⟩ := hm.deleteFile_filters (by decide) (by decide) hmem
    have hact : act files (.rm filename) =
        (.text (bytes "File deleted."), files.erase filename) := by
      rw [act, if_pos (hs.mem_iff.mpr hmem)]
    refine ⟨_, _, fs', c', run_perform_rm hdelete, hm', ?_, ?_⟩
    · rw [hact]
      exact (hs.congr hkeep).erase
    · rw [hact]
      rfl
  · have hdelete := hm.run_deleteFile_absent (by decide) (by decide) hmem
    apply agrees_of_unchanged hm hs (run_perform_rm hdelete)
    · rw [act, if_neg (mt hs.mem_iff.mp hmem)]
    · rfl

end Commands

/-- The names in the line fit a slot of the directory. -/
def NamesFit (line : Bytes) : Prop :=
  ∀ filename, fileToken line = some filename → filename.length ≤ 56 ∧ 0 ∉ filename

instance (line : Bytes) : Decidable (NamesFit line) :=
  inferInstanceAs (Decidable (∀ filename ∈ fileToken line, filename.length ≤ 56 ∧ 0 ∉ filename))

theorem ne_nil_of_fileToken {line filename : Bytes} (h : fileToken line = some filename) :
    filename ≠ [] := by
  have hwords : ∀ word ∈ words 32 line, word ≠ [] := by
    intro word hword
    rw [← filter_splitOn_eq_words] at hword
    exact of_decide_eq_true (List.mem_filter.mp hword).2
  unfold fileToken command at h
  cases hw : words 32 line with
  | nil => simp [hw] at h
  | cons word args =>
    rw [hw] at h hwords
    have hargs : ∀ arg ∈ args, arg ≠ [] := fun arg harg => hwords arg (List.mem_cons_of_mem _ harg)
    dsimp only at h
    generalize verb word = verb at h
    rcases args with _ | ⟨first, _ | ⟨second, rest⟩⟩ <;>
      rcases verb with _ | (_ | _ | _ | _ | _ | _) <;>
      cases h
    all_goals exact hargs _ List.mem_cons_self

section Run

variable {files : Files} {entries : List Entry} {fs : Fs} {c : Disk}

/-- **One line.** -/
theorem Mounted.eval_agrees (hm : Mounted 2048 entries fs c) (hs : Shows files entries c)
    {line : Bytes} (hfit : NamesFit line) : Agrees files fs c (command line) := by
  have hgood : ∀ filename, fileToken line = some filename → GoodName filename :=
    fun filename h => ⟨ne_nil_of_fileToken h, (hfit filename h).1, (hfit filename h).2⟩
  unfold fileToken at hgood
  cases hcommand : command line with
  | empty => exact agrees_of_unchanged hm hs rfl rfl rfl
  | ls => exact agrees_ls hm hs
  | cat filename => exact agrees_cat hm hs
  | write filename rest => exact agrees_write hm hs (hgood filename (by rw [hcommand]))
  | touch filename => exact agrees_touch hm hs (hgood filename (by rw [hcommand]))
  | rm filename => exact agrees_rm hm hs
  | help => exact agrees_of_unchanged hm hs rfl rfl rfl
  | unknown line => exact agrees_of_unchanged hm hs rfl rfl rfl

/-- **A run of lines.** -/
theorem Mounted.evalAll_agrees (hm : Mounted 2048 entries fs c) (hs : Shows files entries c)
    {lines : List Bytes} (hfit : ∀ line ∈ lines, NamesFit line) :
    ∃ replies entries' fs' c', (Shell.evalAll lines).run (Disk.handler 2048) fs c =
        (.done replies, fs', c') ∧ Mounted 2048 entries' fs' c' ∧
      Shows (Reference.evalAll files lines).2 entries' c' ∧
      List.Forall₂ Answer.Matches (Reference.evalAll files lines).1 replies := by
  induction lines generalizing files entries fs c with
  | nil => exact ⟨[], entries, fs, c, rfl, hm, hs, .nil⟩
  | cons line lines ih =>
    obtain ⟨reply, entries₁, fs₁, c₁, hrun, hm₁, hs₁, hmatch⟩ :=
      hm.eval_agrees hs (hfit line List.mem_cons_self)
    obtain ⟨replies, entries₂, fs₂, c₂, hruns, hm₂, hs₂, hall⟩ :=
      ih hm₁ hs₁ fun line' h => hfit line' (List.mem_cons_of_mem _ h)
    rw [← parse_eq_command] at hrun
    refine ⟨reply :: replies, entries₂, fs₂, c₂, ?_, hm₂, hs₂, .cons hmatch hall⟩
    rw [Shell.evalAll, Shell.eval, Prog.run_bind_done hrun, Prog.run_bind_done hruns]
    rfl

end Run

/-- Mount the disk, format it and evaluate the lines. -/
def transcript (repair : Bool) (lines : List Bytes) : FsProg (List Bytes) := do
  let _ ← formatDisk repair
  Shell.evalAll lines

/-- **The shell is the reference shell.** Every reply of a transcript on a freshly formatted RAM
disk is the answer of the reference, and the files afterwards are its files. -/
theorem transcript_matches (repair : Bool) (fs₀ : Fs) (s₀ : RamDisk.device.State)
    (lines : List Bytes) (hfit : ∀ line ∈ lines, NamesFit line) :
    ∃ replies fs s, RamDisk.device.Completes (transcript repair lines) fs₀ s₀ replies fs s ∧
      List.Forall₂ Answer.Matches (Reference.evalAll ∅ lines).1 replies ∧
      MapView RamDisk.device
        (fun name => ((Reference.evalAll ∅ lines).2.lookup name).map File.data) fs s := by
  obtain ⟨fs₁, c₁, hformat, hm₁, _⟩ := run_formatDisk (n := 2048) (by decide) fs₀
    (RamDisk.device.contents s₀) repair
  obtain ⟨replies, entries, fs, c, hruns, hm, hs, hall⟩ := hm₁.evalAll_agrees shows_nil hfit
  have hrun := hruns
  rw [← Prog.run_bind_done hformat fun _ => Shell.evalAll lines] at hrun
  obtain ⟨s, hcompletes, rfl⟩ := RamDisk.device.completes hrun
  have hview := hm.mapView (by decide) (by decide)
  rw [hs.fileMap_eq hm.wellFormed.nodup] at hview
  exact ⟨replies, fs, s, hcompletes, hall, hview⟩

theorem forall₂_matches_text {texts replies : List Bytes}
    (h : List.Forall₂ Answer.Matches (texts.map .text) replies) : replies = texts := by
  induction texts generalizing replies with
  | nil => exact List.forall₂_nil_left_iff.mp h
  | cons text texts ih =>
    obtain ⟨reply, rest, rfl, hrest, rfl⟩ := List.forall₂_cons_left_iff.mp h
    rw [ih hrest]

/-- A file is written, read and touched; another one is not found. -/
theorem transcript_matches_session :
    let lines := [bytes "WRITE a  x y", bytes "cat a", bytes "Touch a", bytes "rm b", bytes "dir"]
    ∃ fs s, RamDisk.device.Completes (transcript true lines) ⟨deviceInfo 0, ∅⟩ RamDisk.fresh
        [bytes "File created successfully.", bytes "x y", bytes "Error: File a already exists.",
          bytes "Error: File not found: b",
          bytes "Unknown command: dir\nType 'help' for usage."] fs s ∧
      MapView RamDisk.device
        (fun name => ((Reference.evalAll ∅ lines).2.lookup name).map File.data) fs s ∧
      ((Reference.evalAll ∅ lines).2.lookup (bytes "a")).map File.data = some (bytes "x y") := by
  intro lines
  obtain ⟨replies, fs, s, hruns, hall, hview⟩ :=
    transcript_matches true ⟨deviceInfo 0, ∅⟩ RamDisk.fresh lines (by decide)
  have hanswers : (Reference.evalAll ∅ lines).1 = [bytes "File created successfully.",
      bytes "x y", bytes "Error: File a already exists.", bytes "Error: File not found: b",
      bytes "Unknown command: dir\nType 'help' for usage."].map .text := rfl
  rw [hanswers] at hall
  obtain rfl := forall₂_matches_text hall
  exact ⟨fs, s, hruns, hview, rfl⟩

end OCamlStudy.NanoOs
