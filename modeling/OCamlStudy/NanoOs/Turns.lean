import OCamlStudy.NanoOs.Requests

/-! # The turn of a request

What the turn of a request does to the world, in terms of what is left of the
request at its next operation.
-/

namespace OCamlStudy.NanoOs

open OCaml Program Shell

section Observe

variable (r : Request) (c : Disk) (len : ℕ) (buffer : Bytes) {sectorStart : ℤ}

theorem Request.observe_read (h : sectorStart ≠ 0) : r.observe c (.read sectorStart len) = r :=
  if_neg h

theorem Request.observe_write_directory : r.observe c (.write 0 buffer) = r := rfl

theorem Request.observe_write (h : sectorStart ≠ 0) : r.observe c (.write sectorStart buffer) =
    { r with stored := r.stored ++ [(sectorStart, buffer)] } := if_neg h

theorem Request.observe_prog (q : Block.Op) : (r.observe c q).prog = r.prog := by
  cases q with
  | getInfo => rfl
  | read | write =>
    dsimp only [Request.observe]
    split_ifs <;> rfl

theorem Request.observe_started (q : Block.Op) : (r.observe c q).started = r.started := by
  cases q with
  | getInfo => rfl
  | read | write =>
    dsimp only [Request.observe]
    split_ifs <;> rfl

end Observe

section Step

variable {n : ℕ} {dev : Device n} {w w' : World dev} {i : ℕ} {r : Request} {prog : FsProg Bytes}
  {fs : Fs}

theorem World.step_start (hr : w.requests[i]? = some r) (hs : r.started = false)
    (hp : r.prog = eval r.cmdStr) (hset : (eval r.cmdStr).settle w.fs = (prog, fs)) :
    w.step i = some ⟨fs, w.disk,
      w.requests.set i (r.begun prog w.fs.cache (dev.contents w.disk))⟩ := by
  rw [World.step, hr]
  simp only [Option.bind_eq_bind, Option.bind_some, hs, hp, hset]
  rfl

section Call

variable {q : Block.Op} {k : q.Reply → FsProg Bytes} {res : q.Reply} {c : Disk}
  (hr : w.requests[i]? = some r) (hs : r.started = true) (hp : r.prog = .call q k)
  (hd : Disk.handler n q (dev.contents w.disk) = (.done res, c))
  (hset : (k res).settle w.fs = (prog, fs))

include hr hs hp hd hset

theorem World.step_call : ∃ disk, dev.contents disk = c ∧ w.step i = some ⟨fs, disk,
    w.requests.set i ({ r with prog := prog }.observe (dev.contents w.disk) q)⟩ := by
  obtain ⟨disk, hdev, hc⟩ := dev.refines q w.disk res c hd
  refine ⟨disk, hc, ?_⟩
  rw [World.step, hr, Option.bind_eq_bind, Option.bind_some, if_pos hs]
  simp only [hp, hdev, hset]

theorem World.of_step_call (hw : w.step i = some w') : ∃ disk, dev.contents disk = c ∧
    w' = ⟨fs, disk,
      w.requests.set i ({ r with prog := prog }.observe (dev.contents w.disk) q)⟩ := by
  obtain ⟨disk, hc, hstep⟩ := World.step_call hr hs hp hd hset
  exact ⟨disk, hc, Option.some.inj (hw.symm.trans hstep)⟩

end Call

theorem World.start_disk {fs' : Fs} {c d : Disk} {l : List Request} {cmdStr : Bytes}
    (hr : l[i]? = some (.waiting cmdStr d)) (hset : (eval cmdStr).settle fs' = (prog, fs)) :
    ∃ r' : Request, r'.started = true ∧ r'.prog = prog ∧
      (⟨fs', c, l⟩ : World (Disk.device n)).step i =
        some ⟨fs, c, l.set i r'⟩ :=
  ⟨_, rfl, rfl, World.step_start (w := (⟨fs', c, l⟩ : World (Disk.device n))) hr rfl rfl hset⟩

theorem World.step_disk {fs' : Fs} {c c' : Disk} {l : List Request} {q : Block.Op}
    {k : q.Reply → FsProg Bytes} {res : q.Reply} (hr : l[i]? = some r)
    (hs : r.started = true) (hp : r.prog = .call q k) (hd : Disk.handler n q c = (.done res, c'))
    (hset : (k res).settle fs' = (prog, fs)) : ∃ r' : Request, r'.started = true ∧ r'.prog = prog ∧
      (⟨fs', c, l⟩ : World (Disk.device n)).step i =
        some ⟨fs, c', l.set i r'⟩ := by
  obtain ⟨disk, rfl, hstep⟩ := World.step_call (w := (⟨fs', c, l⟩ : World (Disk.device n)))
    hr hs hp hd hset
  refine ⟨({ r with prog := prog } : Request).observe c q, ?_, ?_, hstep⟩
  · exact (Request.observe_started _ _ _).trans hs
  · exact Request.observe_prog _ _ _

end Step

section Write

variable {n : ℕ} {entries : List Entry} {fs : Fs} {c : Disk}

theorem Mounted.settle_write (h5 : 5 ≤ n) (hn : n < 2 ^ 31) (hm : Mounted n entries fs c)
    (fs₀ : Fs) {cmdStr filename : Bytes} {words : List Bytes}
    (hparse : parse cmdStr = .write filename words)
    (hdata : (concatWords words).length < 2 ^ 31)
    (hr : ¬ Refused fs entries (nextFree entries) filename (concatWords words)) :
    ∃ (placing : Except Block.Error Bytes → FsProg Bytes)
      (storing committing : Except Block.Error Unit → FsProg Bytes) (nf : ℤ),
      (eval cmdStr).settle fs₀ = (.call (.read 0 2560) placing, fs₀) ∧
      (placing (.ok (c.read 0 2560))).settle fs =
        (.call (.write (nextFree entries) (dataBlock (concatWords words))) storing, fs) ∧
      (∀ fs', (storing (.ok ())).settle fs' =
        (.call (.write 0
          (layout (replaceEntry entries (newEntry entries filename (concatWords words))) nf))
            committing, fs')) ∧
      ∀ fs', (committing (.ok ())).settle fs' =
        (.ret (writeReply (fs₀.cache.keys.any (· = filename)) (.ok ())),
          ⟨fs'.info,
            cacheOf (replaceEntry entries (newEntry entries filename (concatWords words)))⟩) := by
  obtain ⟨place, hplace, hset⟩ := settle_writeFile filename (concatWords words)
    fun res => pure (writeReply (fs₀.cache.keys.any (· = filename)) res)
  obtain ⟨dirty, hload⟩ := hm.settle_loaded h5 hn
  have hplaced := Prog.settle_bind_ret hload place
  rw [hplace, if_neg hr, settle_storeFile] at hplaced
  have heval : (eval cmdStr).settle fs₀ = _ := (by rw [eval, hparse]; rfl : _ = _).trans (hset fs₀)
  refine ⟨_, _, fun res => recorded (replaceEntry entries
      (newEntry entries filename (concatWords words))) res >>= fun res =>
        pure (writeReply (fs₀.cache.keys.any (· = filename)) res),
    wrap32 (nextFree entries + wrap32 (sectorsForSize (concatWords words).length)),
    heval, Prog.settle_bind_call hplaced _, fun fs' => ?_, fun fs' => ?_⟩
  · exact Prog.settle_bind_call (hm.settle_stored hn hdata hr fs') _
  · exact Prog.settle_bind_ret settle_recorded _

end Write

end OCamlStudy.NanoOs
