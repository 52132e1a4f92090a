import OCamlStudy.NanoOs.MapView
import OCamlStudy.NanoOs.Turns
import OCamlStudy.Program.Sequence

/-! # The sequential run behind concurrent requests

The requests that have taken effect, in that order, are a sequential run that
ends with the same directory and the same contents of its files. A turn either
takes no effect, or it adds its request to that run.
-/

namespace OCamlStudy.NanoOs

open OCaml Program Shell

/-- Names that a slot can hold and contents whose length is an `int32`. -/
def Shell.Command.Admissible : Command → Prop
  | .write filename words => GoodName filename ∧ (concatWords words).length < 2 ^ 31
  | .touch filename => GoodName filename
  | _ => True

/-- Disks that agree on the files of a directory. -/
def Agree (entries : List Entry) (c c' : Disk) : Prop := ∀ e ∈ entries, content c e = content c' e

/-- What a command does at once on a disk, up to the bytes that belong to no file. -/
def Performs (n : ℕ) (cmdStr : Bytes) (fs : Fs) (c : Disk) (reply : Bytes) (entries' : List Entry)
    (fs' : Fs) (c' : Disk) : Prop :=
  ∃ c₁, (eval cmdStr).run (Disk.handler n) fs c = (.done reply, fs', c₁) ∧
    Mounted n entries' fs' c₁ ∧ Agree entries' c₁ c'

theorem any_keys (cache : Cache) (filename : Bytes) :
    cache.keys.any (· = filename) = decide (filename ∈ cache) := by
  rw [Bool.eq_iff_iff]
  simp [AList.mem_keys]

theorem Request.Stores.run {r : Request} {filename data : Bytes}
    {finish : Except FsError Unit → Bytes} (hr : r.Stores filename data finish) {n : ℕ}
    {fs fs' : Fs} {c c' : Disk} {res : Except FsError Unit}
    (hexisted : ∀ words, parse r.cmdStr = .write filename words → res = .ok () →
      (filename ∈ fs.cache ↔ filename ∈ r.cacheThen))
    (htouch : parse r.cmdStr = .touch filename → filename ∉ fs.cache)
    (hrun : (writeFile filename data).run (Disk.handler n) fs c = (.done res, fs', c')) :
    (eval r.cmdStr).run (Disk.handler n) fs c = (.done (finish res), fs', c') := by
  rcases hr with ⟨words, hparse, rfl, rfl⟩ | ⟨hparse, rfl, rfl⟩
  · have hreply : writeReply (r.cacheThen.keys.any (· = filename)) res =
        writeReply (fs.cache.keys.any (· = filename)) res := by
      cases res with
      | error e => cases e <;> rfl
      | ok =>
        rw [any_keys, any_keys, decide_eq_decide.mpr (hexisted words hparse rfl)]
    rw [eval, hparse, hreply]
    exact Prog.run_bind_done hrun _
  · have hcreate := run_createFile (Disk.handler n) fs c filename []
    rw [if_neg (htouch hparse), hrun] at hcreate
    rw [eval, hparse]
    exact Prog.run_bind_done hcreate _

variable {n : ℕ} {dev : Device n} {cmds : List Bytes} {fs₀ : Fs} {s₀ : dev.State}
  {entries entries' : List Entry} {w w' : World dev} {log : List (ℕ × Bytes)}

theorem evalAll_eq_sequence (cmds : List Bytes) : evalAll cmds = Prog.sequence (cmds.map eval) := by
  induction cmds with
  | nil => rfl
  | cons cmdStr cmds ih => rw [evalAll, ih, List.map_cons, Prog.sequence]

theorem run_evalAll_concat {S : Type} {h : BlockHandler S} {fs fs₁ fs₂ : Fs} {s s₁ s₂ : S}
    {cmds : List Bytes} {replies : List Bytes} {cmdStr reply : Bytes}
    (hall : (evalAll cmds).run h fs s = (.done replies, fs₁, s₁))
    (hone : (eval cmdStr).run h fs₁ s₁ = (.done reply, fs₂, s₂)) :
    (evalAll (cmds ++ [cmdStr])).run h fs s = (.done (replies ++ [reply]), fs₂, s₂) := by
  rw [evalAll_eq_sequence] at hall ⊢
  rw [List.map_append]
  exact Prog.run_sequence_concat hall hone

/-- The requests that have taken effect are a sequential run with the same files. -/
structure Serial (cmds : List Bytes) (fs₀ : Fs) (s₀ : dev.State) (w : World dev)
    (entries : List Entry) (log : List (ℕ × Bytes)) : Prop where
  mounted : Mounted n entries w.fs (dev.contents w.disk)
  commands : w.requests.map Request.cmdStr = cmds
  nodup : (log.map Prod.fst).Nodup
  stage : ∀ (i : ℕ) (r : Request), w.requests[i]? = some r → ∃ promise, Stage n r promise ∧
    ∀ reply, promise = some reply ↔ (i, reply) ∈ log
  logged : ∀ p ∈ log, p.1 < cmds.length
  serial : ∃ s, (evalAll (log.map fun p => cmds.getD p.1 [])).run dev.handler fs₀ s₀ =
      (.done (log.map Prod.snd), w.fs, s) ∧ Mounted n entries w.fs (dev.contents s) ∧
    Agree entries (dev.contents s) (dev.contents w.disk)

section Turn

variable {i : ℕ} {r r' : Request} {promise : Option Bytes}

theorem Serial.command (h : Serial cmds fs₀ s₀ w entries log) (hr : w.requests[i]? = some r) :
    cmds.getD i [] = r.cmdStr ∧ i < cmds.length := by
  have hlt : i < w.requests.length := (List.getElem?_eq_some_iff.mp hr).1
  have hget : (w.requests.map Request.cmdStr)[i]? = some r.cmdStr := by
    rw [List.getElem?_map, hr]
    rfl
  rw [h.commands] at hget
  refine ⟨?_, (List.getElem?_eq_some_iff.mp hget).1⟩
  rw [List.getD_eq_getElem?_getD, hget]
  rfl

theorem map_cmdStr_set (hr : w.requests[i]? = some r) (hcmd : r'.cmdStr = r.cmdStr) :
    (w.requests.set i r').map Request.cmdStr = w.requests.map Request.cmdStr := by
  apply List.ext_getElem?
  intro j
  rw [List.getElem?_map, List.getElem?_map, List.getElem?_set]
  split_ifs with hj hlt
  · rw [← hj, hr, Option.map_some, Option.map_some, hcmd]
  · rw [← hj, List.getElem?_eq_none (not_lt.mp hlt)]
  · rfl

/-- A turn that takes no effect. -/
theorem Serial.silent (h : Serial cmds fs₀ s₀ w entries log) (hr : w.requests[i]? = some r)
    (hstage : Stage n r' promise) (hcmd : r'.cmdStr = r.cmdStr)
    (hlog : ∀ reply, promise = some reply ↔ (i, reply) ∈ log) {disk : dev.State}
    (hm : Mounted n entries w.fs (dev.contents disk))
    (ha : Agree entries (dev.contents w.disk) (dev.contents disk)) :
    Serial cmds fs₀ s₀ ⟨w.fs, disk, w.requests.set i r'⟩ entries log where
  mounted := hm
  commands := (map_cmdStr_set hr hcmd).trans h.commands
  nodup := h.nodup
  stage j x hx := by
    rw [List.getElem?_set] at hx
    split_ifs at hx with hj hlt
    · obtain rfl := Option.some.inj hx
      subst hj
      exact ⟨promise, hstage, hlog⟩
    · exact h.stage j x hx
  logged := h.logged
  serial := by
    obtain ⟨s, hrun, hms, hagree⟩ := h.serial
    exact ⟨s, hrun, hms, fun e he => (hagree e he).trans (ha e he)⟩

/-- The turn at which a request takes effect. -/
theorem Serial.effect (h : Serial cmds fs₀ s₀ w entries log) (hr : w.requests[i]? = some r)
    {reply : Bytes} (hstage : Stage n r' (some reply)) (hcmd : r'.cmdStr = r.cmdStr)
    (hlog : ∀ reply, (i, reply) ∉ log) {fs : Fs} {disk : dev.State}
    (hm : Mounted n entries' fs (dev.contents disk))
    (hperform : ∀ c, Mounted n entries w.fs c → Agree entries c (dev.contents w.disk) →
      Performs n r.cmdStr w.fs c reply entries' fs (dev.contents disk)) :
    Serial cmds fs₀ s₀ ⟨fs, disk, w.requests.set i r'⟩ entries' (log ++ [(i, reply)]) where
  mounted := hm
  commands := (map_cmdStr_set hr hcmd).trans h.commands
  nodup := by
    rw [List.map_append, List.nodup_append]
    refine ⟨h.nodup, List.nodup_singleton _, ?_⟩
    intro a ha b hb hab
    obtain ⟨⟨_, x⟩, hx, rfl⟩ := List.mem_map.mp ha
    obtain rfl := List.mem_singleton.mp hb
    subst hab
    exact hlog x hx
  stage j x hx := by
    rw [List.getElem?_set] at hx
    split_ifs at hx with hj hlt
    · obtain rfl := Option.some.inj hx
      subst hj
      refine ⟨some reply, hstage, fun y => ?_⟩
      simp only [List.mem_append, hlog, List.mem_singleton, false_or, Option.some.injEq,
        Prod.mk.injEq, true_and]
      exact eq_comm
    · obtain ⟨promise, hs, hl⟩ := h.stage j x hx
      refine ⟨promise, hs, fun y => (hl y).trans ?_⟩
      simp [Ne.symm hj]
  logged p hp := by
    rcases List.mem_append.mp hp with hold | hnew
    · exact h.logged p hold
    · rw [List.mem_singleton.mp hnew]
      exact (h.command hr).2
  serial := by
    obtain ⟨s, hrun, hms, hagree⟩ := h.serial
    obtain ⟨c₁, hone, hm₁, hagree₁⟩ := hperform _ hms hagree
    obtain ⟨s₁, ⟨hdev, _⟩, rfl⟩ := dev.completes hone
    refine ⟨s₁, ?_, hm₁, hagree₁⟩
    rw [List.map_append, List.map_append]
    simp only [List.map_cons, List.map_nil, (h.command hr).1]
    exact run_evalAll_concat hrun hdev

end Turn

end OCamlStudy.NanoOs
