import OCamlStudy.NanoOs.FieldWidth
import OCamlStudy.NanoOs.Transcript

/-! # What `cat` gives back of a message

A message is stored as its words with single spaces between them. These come back
byte for byte: the content is padded to whole sectors when it is written, and is cut
to its size when it is read.
-/

namespace OCamlStudy.NanoOs.Shell

open OCaml Program

section Parse

variable {filename : Bytes}

theorem parse_write (hne : filename ≠ []) (hspace : 32 ∉ filename) (msg : Bytes) :
    parse (bytes "write " ++ filename ++ bytes " " ++ msg) = .write filename (words 32 msg) := by
  have hline : bytes "write " ++ filename ++ bytes " " ++ msg =
      bytes "write" ++ 32 :: (filename ++ 32 :: msg) := by
    simp [bytes]
  have hwords : words 32 (bytes "write " ++ filename ++ bytes " " ++ msg) =
      bytes "write" :: filename :: words 32 msg := by
    rw [hline, words_append_sep, words_append_sep, words_of_not_mem (by decide) (by decide),
      words_of_not_mem hne hspace]
    rfl
  rw [parse, filter_splitOn_eq_words, hwords]
  rfl

theorem parse_cat (hne : filename ≠ []) (hspace : 32 ∉ filename) :
    parse (bytes "cat " ++ filename) = .cat filename := by
  have hline : bytes "cat " ++ filename = bytes "cat" ++ 32 :: filename := rfl
  have hwords : words 32 (bytes "cat " ++ filename) = [bytes "cat", filename] := by
    rw [hline, words_append_sep, words_of_not_mem (by decide) (by decide),
      words_of_not_mem hne hspace]
    rfl
  rw [parse, filter_splitOn_eq_words, hwords]
  rfl

end Parse

def WriteSucceeds (reply : Bytes) : Prop :=
  reply = bytes "File created successfully." ∨ reply = bytes "File overwritten successfully."

theorem writeSucceeds_iff {existedBefore : Bool} {res : Except FsError Unit} :
    WriteSucceeds (writeReply existedBefore res) ↔ res = .ok () := by
  cases res with
  | ok u => cases existedBefore <;> simp [WriteSucceeds, writeReply]
  | error e => cases e <;> simp [WriteSucceeds, writeReply, bytes]

section RoundTrip

variable {n : ℕ} {dev : Device n} {fs fs' : Fs} {s s' : dev.State} {filename msg reply : Bytes}

theorem run_writeFile_of_eval (hne : filename ≠ []) (hspace : 32 ∉ filename)
    (hrun : (eval (bytes "write " ++ filename ++ bytes " " ++ msg)).run dev.handler fs s =
      (.done reply, fs', s')) (hreply : WriteSucceeds reply) :
    (writeFile filename (concatWords (words 32 msg))).run dev.handler fs s =
      (.done (.ok ()), fs', s') := by
  have hperform : (Command.write filename (words 32 msg)).perform.run dev.handler fs s =
      (writeFile filename (concatWords (words 32 msg)) >>= fun res =>
        pure (writeReply (fs.cache.keys.any (· = filename)) res)).run dev.handler fs s := rfl
  rw [eval, parse_write hne hspace, hperform, Prog.run_bind] at hrun
  rcases hwrite : (writeFile filename (concatWords (words 32 msg))).run dev.handler fs s with
    ⟨o, fs₁, s₁⟩
  rw [hwrite] at hrun
  cases o with
  | done res =>
    cases hrun
    rw [writeSucceeds_iff.mp hreply]
  | raised exn => cases hrun
  | stopped => cases hrun

theorem run_cat_after_write (h5 : 5 ≤ n) (hn : n < 2 ^ 62) (hstrict : dev.Strict)
    (hinfo : fs.info = deviceInfo n) (hmagic : (dev.contents s).read 0 8 = magicStr)
    (hlimit : 5 ≤ wrap32 n) (hne : filename ≠ []) (hspace : 32 ∉ filename)
    (hlength : (concatWords (words 32 msg)).length < 2 ^ 31)
    (hrun : (eval (bytes "write " ++ filename ++ bytes " " ++ msg)).run dev.handler fs s =
      (.done reply, fs', s')) (hreply : WriteSucceeds reply) :
    ∃ s'', (eval (bytes "cat " ++ filename)).run dev.handler fs' s' =
      (.done (concatWords (words 32 msg)), fs', s'') ∧ dev.contents s'' = dev.contents s' := by
  have hwrite := run_writeFile_of_eval hne hspace hrun hreply
  have hwrote := wroteFile_of_run h5 hstrict hmagic hwrite
  obtain ⟨-, -, hregion⟩ := @repairedNextFree_bounds fs (parsedEntries fs (dev.contents s))
  rw [hinfo, wrap63_deviceInfo_of_lt hn] at hregion
  obtain ⟨s'', hread, hs''⟩ := hwrote.run_readFile (hregion.mpr hlimit) hlength
  refine ⟨s'', ?_, hs''⟩
  rw [eval, parse_cat hne hspace]
  exact run_perform_cat hread

end RoundTrip

theorem run_write_twoSpaces : ∃ fs s,
    RamDisk.device.Completes (formatDisk true) ⟨deviceInfo 0, ∅⟩ RamDisk.fresh (.ok ()) fs s ∧
      fs.info = deviceInfo 2048 ∧ (RamDisk.device.contents s).read 0 8 = magicStr ∧
      ∃ reply fs' s', WriteSucceeds reply ∧
        (eval (bytes "write " ++ bytes "a" ++ bytes " " ++ bytes "x  y")).run
          RamDisk.device.handler fs s = (.done reply, fs', s') := by
  obtain ⟨fs, c, hformat, hm, -⟩ := run_formatDisk (n := 2048) (by decide) ⟨deviceInfo 0, ∅⟩
    (RamDisk.device.contents RamDisk.fresh) true
  obtain ⟨s, hs, rfl⟩ := RamDisk.device.completes hformat
  have haccepted : ¬ Refused fs [] (nextFree []) (bytes "a")
      (concatWords [bytes "x", bytes "y"]) := by
    rw [hm.refused_iff (by decide)]
    decide
  obtain ⟨nf, -, hwrite⟩ := hm.run_writeFile (by decide) (by decide) (by decide) haccepted
  obtain ⟨s', hs', -⟩ := RamDisk.device.completes hwrite
  have hinfo : fs.info = deviceInfo 2048 := by
    rw [hm.fs_eq]
  have hwords : words 32 (bytes "x  y") = [bytes "x", bytes "y"] := by decide
  have hprog : eval (bytes "write " ++ bytes "a" ++ bytes " " ++ bytes "x  y") =
      (Command.write (bytes "a") [bytes "x", bytes "y"]).perform := by
    rw [eval, parse_write (by decide) (by decide), hwords]
  have hrun := run_perform_write hs'.1
  rw [← hprog] at hrun
  exact ⟨fs, s, hs, hinfo, hm.magic, _, _, s', writeSucceeds_iff.mpr rfl, hrun⟩

end OCamlStudy.NanoOs.Shell
