import OCamlStudy.NanoOs.FileDisk

/-! # Overlapping calls on a file disk

Calls that share the descriptor are serializable as long as no other call moves the
offset between a seek and the last transfer that it is for, and the transfers that
touch the same bytes follow one order of the calls. The state is then always that
of the calls one after another in this order, each cut off where it has got to.
A seek in between sends a transfer to the sectors of another call.
-/

namespace OCamlStudy.NanoOs.FileDisk

open OCaml Program

theorem sizeSectors_connect {file : Bytes} (h : file.length < 2 ^ 62) :
    (connect file).1.sizeSectors * 512 ≤ (connect file).2.content.length ∧
      (connect file).2.content.length < 2 ^ 62 := by
  have hlt : (connect file).2.content.length < 2 ^ 62 := by
    unfold connect
    dsimp only
    split_ifs
    · rw [List.length_replicate]
      norm_num
    · exact h
  refine ⟨?_, hlt⟩
  change wrap64 (((connect file).2.content.length : ℤ) / 512) * 512 ≤ _
  rw [wrap64_eq (by omega) (by omega)]
  omega

/-- The sectors of the call lie in the file, at positions that an `int` can hold. -/
structure Call.Inside (info : Block.Info) (size : ℕ) (call : Call) : Prop where
  seek : wrap63 (wrap64 (call.sectorStart * wrap64 info.sectorSize)) = call.start
  fits : call.start + call.length ≤ size

theorem Call.InRange.inside {file : Bytes} (h : file.length < 2 ^ 62) {call : Call}
    (hr : call.InRange (connect file).1) :
    call.Inside (connect file).1 (connect file).2.content.length := by
  obtain ⟨hs, hl⟩ := sizeSectors_connect h
  obtain ⟨h0, hr⟩ := hr
  constructor
  · change wrap63 (wrap64 (call.sectorStart * wrap64 512)) = (call.sectorStart.toNat * 512 : ℕ)
    rw [wrap64_eq (n := 512) (by norm_num) (by norm_num), wrap64_eq (by omega) (by omega),
      wrap63_eq (by omega) (by omega)]
    omega
  · unfold Call.start
    omega

section Alone

variable {info : Block.Info} {call : Call} {fd : Fd}

theorem run_perform (h : call.Inside info fd.content.length) :
    ∃ fd', (call.perform info).run handler () fd =
        (.done (call.answer (Disk.ofBytes fd.content)), (), fd') ∧
      fd'.content.length = fd.content.length ∧
      Disk.ofBytes fd'.content = call.after (Disk.ofBytes fd.content) := by
  have hseek : (Fd.lseek (wrap63 (wrap64 (call.sectorStart * wrap64 info.sectorSize)))).run
      handler () fd = (.done call.start, (), { fd with offset := call.start }) := by
    rw [h.seek]
    exact Prog.run_perform (handler_lseek (Int.natCast_nonneg _))
  have hfits := h.fits
  cases call with
  | read sectorStart lens =>
    refine ⟨{ fd with offset := sectorStart.toNat * 512 + lens.sum }, ?_, rfl, rfl⟩
    have hloop :=
      @run_readLoop { fd with offset := sectorStart.toNat * 512 } sectorStart [] lens hfits
    exact Prog.run_bind_done ((Prog.run_bind_done hseek _).trans hloop) _
  | write sectorStart buffers =>
    obtain ⟨fd', hloop, hl, hc⟩ :=
      @run_writeLoop { fd with offset := sectorStart.toNat * 512 } sectorStart buffers hfits
    exact ⟨fd', Prog.run_bind_done ((Prog.run_bind_done hseek _).trans hloop) _, hl, hc⟩

def answers : List Call → Disk → List Result
  | [], _ => []
  | call :: calls, c => call.answer c :: answers calls (call.after c)

theorem run_sequence {calls : List Call} (h : ∀ call ∈ calls, call.Inside info fd.content.length) :
    ∃ fd', (Prog.sequence (calls.map (Call.perform info))).run handler () fd =
        (.done (answers calls (Disk.ofBytes fd.content)), (), fd') ∧
      fd'.content.length = fd.content.length ∧
      Disk.ofBytes fd'.content = calls.foldl (fun c call => call.after c)
        (Disk.ofBytes fd.content) := by
  induction calls generalizing fd with
  | nil => exact ⟨fd, rfl, rfl, rfl⟩
  | cons call calls ih =>
    obtain ⟨fd₁, hrun, hl, hc⟩ := run_perform (h call List.mem_cons_self)
    obtain ⟨fd', hruns, hl', hc'⟩ := @ih fd₁ fun call hcall => by
      rw [hl]
      exact h call (List.mem_cons_of_mem _ hcall)
    refine ⟨fd', ?_, hl'.trans hl, ?_⟩
    · rw [List.map_cons, Prog.sequence, Prog.run_bind_done hrun, Prog.run_bind_done hruns, hc]
      rfl
    · rw [hc', hc, List.foldl_cons]

end Alone

def Running.after (r : Running) (c : Disk) : Disk :=
  match r.call with
  | .read _ _ => c
  | .write _ buffers => c.write r.call.start (buffers.flatten.take r.moved)

/-- The disk after what the calls have transferred so far, one after another. -/
def overlay (calls : List Running) (base : Disk) (order : List ℕ) : Disk :=
  order.foldl (fun c i => (calls[i]?.map fun r => r.after c).getD c) base

section Order

variable {pre post order : List ℕ} {i j : ℕ}

theorem notMem_pre (hn : (pre ++ i :: post).Nodup) : i ∉ pre := fun hi =>
  (List.nodup_append.mp hn).2.2 i hi i List.mem_cons_self rfl

theorem ne_of_mem_post (hn : (pre ++ i :: post).Nodup) (hj : j ∈ post) : j ≠ i := by
  rintro rfl
  exact (List.nodup_cons.mp (List.nodup_append.mp hn).2.1).1 hj

theorem idxOf_split (hn : (pre ++ i :: post).Nodup) :
    (pre ++ i :: post).idxOf i = pre.length := by
  rw [List.idxOf_append_of_notMem (notMem_pre hn), List.idxOf_cons_self, Nat.add_zero]

theorem split_unique {pre' post' : List ℕ} (hn : (pre ++ i :: post).Nodup)
    (h : pre ++ i :: post = pre' ++ i :: post') : pre = pre' := by
  apply List.append_inj_left h
  rw [← idxOf_split hn, h, idxOf_split (h ▸ hn)]

theorem notMem_of_idxOf_lt (hn : (pre ++ i :: post).Nodup)
    (h : (pre ++ i :: post).idxOf i < (pre ++ i :: post).idxOf j) : j ∉ pre := by
  intro hj
  rw [idxOf_split hn, List.idxOf_append_of_mem hj] at h
  exact lt_asymm h (List.idxOf_lt_length_of_mem hj)

theorem notMem_of_lt_idxOf (hn : (pre ++ i :: post).Nodup)
    (h : (pre ++ i :: post).idxOf j < (pre ++ i :: post).idxOf i) : j ∉ post := by
  intro hj
  have hpre : j ∉ pre := fun hi =>
    (List.nodup_append.mp hn).2.2 j hi j (List.mem_cons_of_mem _ hj) rfl
  rw [idxOf_split hn, List.idxOf_append_of_notMem hpre] at h
  omega

end Order

section Overlay

variable {r r' : Running} {calls : List Running} {base c c' : Disk} {order pre post : List ℕ}
  {i j x : ℕ}

theorem Running.after_congr (h : c x = c' x) : r.after c x = r.after c' x := by
  rcases r with ⟨_ | _, _, _⟩
  · exact h
  · simp only [Running.after, Disk.write, h]

theorem Running.after_outside (h : r.call.IsWrite → ¬ r.Moved x) : r.after c x = c x := by
  rcases r with ⟨_ | ⟨s, buffers⟩, prog, moved⟩
  · rfl
  · have hx : ¬ Running.Moved ⟨.write s buffers, prog, moved⟩ x := h trivial
    apply Disk.write_apply_outside
    rw [List.length_take]
    unfold Running.Moved at hx
    omega

theorem overlay_cons : overlay calls base (i :: order) =
    overlay calls ((calls[i]?.map fun r => r.after base).getD base) order := rfl

theorem overlay_append :
    overlay calls base (order ++ post) = overlay calls (overlay calls base order) post :=
  List.foldl_append

/-- The disk after the calls up to the call `i` and those that follow it. -/
theorem overlay_split (hr : calls[i]? = some r) : overlay calls base (pre ++ i :: post) =
    overlay calls (r.after (overlay calls base pre)) post := by
  rw [overlay_append, overlay_cons, hr]
  rfl

theorem overlay_outside
    (h : ∀ i ∈ order, ∀ r, calls[i]? = some r → r.call.IsWrite → ¬ r.Moved x) :
    overlay calls base order x = base x := by
  induction order generalizing base with
  | nil => rfl
  | cons i order ih =>
    rw [overlay_cons, ih fun j hj => h j (List.mem_cons_of_mem _ hj)]
    cases hr : calls[i]? with
    | none => rfl
    | some r => exact Running.after_outside (h i List.mem_cons_self r hr)

theorem overlay_set_congr (hr : calls[i]? = some r) (hb : c x = c' x)
    (h : ∀ c, r'.after c x = r.after c x) :
    overlay (calls.set i r') c order x = overlay calls c' order x := by
  induction order generalizing c c' with
  | nil => exact hb
  | cons j order ih =>
    rw [overlay_cons, overlay_cons]
    apply ih
    rcases eq_or_ne i j with rfl | hne
    · rw [List.getElem?_set_self (List.getElem?_eq_some_iff.mp hr).1, hr]
      exact (h c).trans (Running.after_congr hb)
    · rw [List.getElem?_set_ne hne]
      cases calls[j]? with
      | none => exact hb
      | some r => exact Running.after_congr hb

theorem overlay_set_of_notMem (h : i ∉ order) :
    overlay (calls.set i r') base order = overlay calls base order := by
  induction order generalizing base with
  | nil => rfl
  | cons j order ih =>
    rw [List.mem_cons, not_or] at h
    rw [overlay_cons, overlay_cons, List.getElem?_set_ne h.1, ih h.2]

/-- A call writes bytes that none of those after it has written. -/
theorem overlay_write {pos : ℕ} {data : Bytes} (hn : (pre ++ i :: post).Nodup)
    (hr : calls[i]? = some r) (hafter : ∀ c, r'.after c = (r.after c).write pos data)
    (hpost : ∀ j ∈ post, ∀ rj, calls[j]? = some rj → ∀ x, pos ≤ x → x < pos + data.length →
      ¬ rj.Moved x) :
    overlay (calls.set i r') base (pre ++ i :: post) =
      (overlay calls base (pre ++ i :: post)).write pos data := by
  funext x
  by_cases hx : pos ≤ x ∧ x < pos + data.length
  · rw [overlay_split (List.getElem?_set_self (List.getElem?_eq_some_iff.mp hr).1), overlay_outside,
      hafter, Disk.write_apply_inside hx.1 hx.2, Disk.write_apply_inside hx.1 hx.2]
    rintro j hj rj hrj -
    rw [List.getElem?_set_ne (ne_of_mem_post hn hj).symm] at hrj
    exact hpost j hj rj hrj x hx.1 hx.2
  · have hout : x < pos ∨ pos + data.length ≤ x := by omega
    rw [Disk.write_apply_outside hout]
    apply overlay_set_congr hr rfl
    intro c
    rw [hafter, Disk.write_apply_outside hout]

end Overlay

/-- Where a call is that has found the disk `c` in all that it has transferred. -/
inductive Stage (info : Block.Info) (c : Disk) : Running → Prop
  | waiting (call : Call) : Stage info c ⟨call, call.perform info, 0⟩
  | reading (sectorStart : ℤ) (filled rest : List ℕ) : Stage info c
      ⟨.read sectorStart (filled ++ rest),
        do return .read (← readLoop sectorStart (pieces c (sectorStart.toNat * 512) filled) rest),
        filled.sum⟩
  | writing (sectorStart : ℤ) (written rest : List Bytes) : Stage info c
      ⟨.write sectorStart (written ++ rest), do return .write (← writeLoop sectorStart rest),
        written.flatten.length⟩

section Stage

variable {info : Block.Info} {c c' : Disk} {r : Running} {sectorStart : ℤ}

theorem Stage.congr (hs : Stage info c r) (h : ∀ x, r.Moved x → c x = c' x) : Stage info c' r := by
  cases hs with
  | waiting call => exact .waiting call
  | reading sectorStart filled rest =>
    have hp : pieces c (sectorStart.toNat * 512) filled =
        pieces c' (sectorStart.toNat * 512) filled :=
      pieces_congr fun x hl hu => h x ⟨hl, hu⟩
    rw [hp]
    exact .reading sectorStart filled rest
  | writing sectorStart written rest => exact .writing sectorStart written rest

theorem Stage.read_next {filled rest : List ℕ} {len : ℕ} :
    Stage info c ⟨.read sectorStart (filled ++ len :: rest), do
      return .read (← readLoop sectorStart (pieces c (sectorStart.toNat * 512) filled ++
        [c.read (sectorStart.toNat * 512 + filled.sum) len]) rest), filled.sum + len⟩ := by
  have hs : Stage info c _ := .reading sectorStart (filled ++ [len]) rest
  rw [pieces_append, List.sum_append, List.sum_singleton, List.append_assoc] at hs
  exact hs

theorem Stage.write_next {written rest : List Bytes} {buf : Bytes} :
    Stage info c ⟨.write sectorStart (written ++ buf :: rest), do
      return .write (← writeLoop sectorStart rest), written.flatten.length + buf.length⟩ := by
  have hs : Stage info c _ := .writing sectorStart (written ++ [buf]) rest
  rw [List.flatten_append, List.flatten_singleton, List.length_append, List.append_assoc] at hs
  exact hs

theorem after_write_next {written rest : List Bytes} {buf : Bytes} {prog prog' : FdProg Result} :
    Running.after ⟨.write sectorStart (written ++ buf :: rest), prog',
        written.flatten.length + buf.length⟩ c =
      (Running.after ⟨.write sectorStart (written ++ buf :: rest), prog, written.flatten.length⟩
        c).write (sectorStart.toNat * 512 + written.flatten.length) buf := by
  change c.write (sectorStart.toNat * 512) _ = (c.write (sectorStart.toNat * 512) _).write _ _
  rw [List.flatten_append, List.flatten_cons, List.take_left, ← List.append_assoc,
    ← List.length_append, List.take_left, Disk.write_append]

theorem Stage.returned {result : Result} (hs : Stage info c r) (hr : r.prog = .ret result) :
    result = r.call.answer c ∧ r.after c = r.call.after c := by
  cases hs with
  | waiting call => cases call <;> cases hr
  | reading sectorStart filled rest =>
    cases rest with
    | nil =>
      cases hr
      rw [List.append_nil]
      exact ⟨rfl, rfl⟩
    | cons len rest => cases hr
  | writing sectorStart written rest =>
    cases rest with
    | nil =>
      cases hr
      rw [List.append_nil]
      refine ⟨rfl, ?_⟩
      change c.write _ (List.take _ _) = _
      rw [List.take_length]
      rfl
    | cons buf rest => cases hr

end Stage

/-- The calls have done what they do one after another, each as far as it has got. -/
structure Ordered (info : Block.Info) (fd : Fd) (calls : List Call) (order : List ℕ) (w : World) :
    Prop where
  calls_eq : w.calls.map Running.call = calls
  length : w.fd.content.length = fd.content.length
  content : Disk.ofBytes w.fd.content = overlay w.calls (Disk.ofBytes fd.content) order
  stage : ∀ pre i post r, order = pre ++ i :: post → w.calls[i]? = some r →
    Stage info (overlay w.calls (Disk.ofBytes fd.content) pre) r

section Step

variable {info : Block.Info} {fd fd' : Fd} {calls : List Call} {order : List ℕ} {w w' : World}
  {r r' : Running} {i : ℕ}

theorem ordered_start : Ordered info fd calls order (World.start info fd calls) := by
  have hw : ∀ (i : ℕ) (r : Running), (World.start info fd calls).calls[i]? = some r →
      ∃ call, r = ⟨call, call.perform info, 0⟩ := by
    intro i r hr
    change (calls.map _)[i]? = some r at hr
    rw [List.getElem?_map, Option.map_eq_some_iff] at hr
    obtain ⟨call, -, rfl⟩ := hr
    exact ⟨call, rfl⟩
  constructor
  · change (calls.map _).map _ = calls
    rw [List.map_map]
    exact List.map_id _
  · rfl
  · funext x
    symm
    apply overlay_outside
    rintro i - r hr - ⟨hl, hu⟩
    obtain ⟨call, rfl⟩ := hw i r hr
    dsimp only at hl hu
    omega
  · rintro pre i post r - hr
    obtain ⟨call, rfl⟩ := hw i r hr
    exact .waiting call

theorem Ordered.put (inv : Ordered info fd calls order w) (hn : order.Nodup)
    (hr : w.calls[i]? = some r) (hc : r'.call = r.call)
    (hl : fd'.content.length = w.fd.content.length)
    (hcontent : Disk.ofBytes fd'.content =
      overlay (w.calls.set i r') (Disk.ofBytes fd.content) order)
    (hstage : ∀ pre post, order = pre ++ i :: post →
      Stage info (overlay w.calls (Disk.ofBytes fd.content) pre) r')
    (hothers : ∀ j rj x, j ≠ i → w.calls[j]? = some rj → rj.Moved x →
      (∀ c, r'.after c x = r.after c x) ∨ order.idxOf j < order.idxOf i) :
    Ordered info fd calls order ⟨fd', w.calls.set i r'⟩ := by
  obtain ⟨hi, hget⟩ := List.getElem?_eq_some_iff.mp hr
  constructor
  · change (w.calls.set i r').map _ = calls
    rw [List.map_set, hc, ← hget, ← List.map_set, List.set_getElem_self, inv.calls_eq]
  · exact hl.trans inv.length
  · exact hcontent
  · rintro pre j post rj hsplit hj
    dsimp only at hj ⊢
    rcases eq_or_ne j i with rfl | hne
    · rw [List.getElem?_set_self hi, Option.some.injEq] at hj
      rw [overlay_set_of_notMem (notMem_pre (hsplit ▸ hn)), ← hj]
      exact hstage pre post hsplit
    · rw [List.getElem?_set_ne hne.symm] at hj
      apply (inv.stage pre j post rj hsplit hj).congr
      intro x hx
      symm
      rcases hothers j rj x hne hj hx with hsame | hlt
      · exact overlay_set_congr hr rfl hsame
      · rw [hsplit] at hlt hn
        rw [overlay_set_of_notMem (notMem_of_idxOf_lt hn hlt)]

theorem World.step_call {q : Op} {k : q.Reply → FdProg Result} {reply : q.Reply}
    (hr : w.calls[i]? = some r) (hp : r.prog = .call q k)
    (hq : handler q w.fd = (.done reply, fd')) :
    w.step i = some ⟨fd', w.calls.set i ({ r with prog := k reply }.observe q reply)⟩ := by
  simp only [World.step, hr, hp, hq, Option.bind_eq_bind, Option.bind_some]

theorem World.step_returned {result : Result} (hr : w.calls[i]? = some r)
    (hp : r.prog = .ret result) : w.step i = none := by
  simp only [World.step, hr, hp, Option.bind_eq_bind, Option.bind_some]

def Call.loop : Call → FdProg Result
  | .read sectorStart lens => do return .read (← readLoop sectorStart [] lens)
  | .write sectorStart buffers => do return .write (← writeLoop sectorStart buffers)

theorem World.step_seek {call : Call}
    (hc : wrap63 (wrap64 (call.sectorStart * wrap64 info.sectorSize)) = call.start)
    (hr : w.calls[i]? = some ⟨call, call.perform info, 0⟩) :
    w.step i = some ⟨{ w.fd with offset := call.start }, w.calls.set i ⟨call, call.loop, 0⟩⟩ := by
  have hq : handler (.lseek (wrap63 (wrap64 (call.sectorStart * wrap64 info.sectorSize)))) w.fd =
      (.done call.start, { w.fd with offset := call.start }) := by
    rw [hc]
    exact handler_lseek (Int.natCast_nonneg _)
  cases call with
  | read sectorStart lens => exact World.step_call hr rfl hq
  | write sectorStart buffers => exact World.step_call hr rfl hq

theorem World.step_read {call : Call} {sectorStart : ℤ} {filled : List Bytes} {len moved : ℕ}
    {rest : List ℕ} {bytes : Bytes} (hr : w.calls[i]? =
      some ⟨call, do return .read (← readLoop sectorStart filled (len :: rest)), moved⟩)
    (hq : handler (.read len) w.fd = (.done bytes, fd')) (hl : bytes.length = len) :
    w.step i = some ⟨fd', w.calls.set i
      ⟨call, do return .read (← readLoop sectorStart (filled ++ [bytes]) rest), moved + len⟩⟩ := by
  rw [World.step_call hr rfl hq]
  dsimp only [Running.observe, Prog.bind]
  rw [hl, if_neg (lt_irrefl len)]
  rfl

theorem World.step_write {call : Call} {sectorStart : ℤ} {buf : Bytes} {moved : ℕ}
    {rest : List Bytes} (hr : w.calls[i]? =
      some ⟨call, do return .write (← writeLoop sectorStart (buf :: rest)), moved⟩) :
    w.step i = some ⟨⟨overwrite w.fd.content w.fd.offset buf, w.fd.offset + buf.length⟩,
      w.calls.set i
        ⟨call, do return .write (← writeLoop sectorStart rest), moved + buf.length⟩⟩ := by
  have hq : handler (.write buf) w.fd = (.done buf.length,
    ⟨overwrite w.fd.content w.fd.offset buf, w.fd.offset + buf.length⟩) := rfl
  rw [World.step_call hr rfl hq]
  dsimp only [Running.observe, Prog.bind]
  rw [if_neg (lt_irrefl _)]
  rfl

theorem World.Undisturbed.offset {q : Op} {k : q.Reply → FdProg Result}
    (hu : w.Undisturbed order i) (hr : w.calls[i]? = some r) (hp : r.prog = .call q k) :
    q.length = 0 ∨ w.fd.offset = r.call.start + r.moved := by
  rcases Nat.eq_zero_or_pos q.length with h | h
  · exact Or.inl h
  · exact Or.inr (hu r hr q k hp h).1

/-- A call that has transferred a byte of the transfer comes before it in the order. -/
theorem World.Undisturbed.before {q : Op} {k : q.Reply → FdProg Result} {j x : ℕ}
    (hu : w.Undisturbed order i) (hr : w.calls[i]? = some r) (hp : r.prog = .call q k)
    (hne : j ≠ i) (hj : w.calls[j]? = some r') (hw : r.call.IsWrite ∨ r'.call.IsWrite)
    (hl : r.call.start + r.moved ≤ x) (hx : x < r.call.start + r.moved + q.length)
    (hm : r'.Moved x) : order.idxOf j < order.idxOf i := by
  obtain ⟨hoff, hbefore⟩ := hu r hr q k hp (by omega)
  rw [← hoff] at hl hx
  exact hbefore j r' hne hj hw x hl hx hm

theorem handler_read_at {len pos : ℕ} (h : len = 0 ∨ fd.offset = pos)
    (hfits : pos + len ≤ fd.content.length) :
    handler (.read len) fd = (.done ((Disk.ofBytes fd.content).read pos len),
      { fd with offset := fd.offset + len }) := by
  rcases h with rfl | rfl
  · simp [handler, Disk.read]
  · exact handler_read hfits

theorem ofBytes_overwrite_at {bytes : Bytes} {pos : ℕ} (h : bytes.length = 0 ∨ fd.offset = pos)
    (hfits : pos + bytes.length ≤ fd.content.length) :
    (overwrite fd.content fd.offset bytes).length = fd.content.length ∧
      Disk.ofBytes (overwrite fd.content fd.offset bytes) =
        (Disk.ofBytes fd.content).write pos bytes := by
  rcases h with h | rfl
  · rw [List.length_eq_zero_iff] at h
    rw [h, overwrite, if_pos rfl, Disk.write_nil]
    exact ⟨rfl, rfl⟩
  · exact ⟨overwrite_length hfits, ofBytes_overwrite hfits⟩

theorem Ordered.keep (inv : Ordered info fd calls order w) (hn : order.Nodup)
    (hr : w.calls[i]? = some r) (hc : r'.call = r.call) (hf : fd'.content = w.fd.content)
    (hafter : ∀ c, r'.after c = r.after c)
    (hstage : ∀ pre post, order = pre ++ i :: post →
      Stage info (overlay w.calls (Disk.ofBytes fd.content) pre) r') :
    Ordered info fd calls order ⟨fd', w.calls.set i r'⟩ := by
  apply inv.put hn hr hc
  · rw [hf]
  · rw [hf, inv.content]
    funext x
    exact (overlay_set_congr hr rfl fun c => congrFun (hafter c) x).symm
  · exact hstage
  · rintro j rj x - - -
    exact Or.inl fun c => congrFun (hafter c) x

theorem Ordered.seek (inv : Ordered info fd calls order w) (hn : order.Nodup) {call : Call}
    (hc : call.Inside info w.fd.content.length)
    (hr : w.calls[i]? = some ⟨call, call.perform info, 0⟩) (hs : w.step i = some w') :
    Ordered info fd calls order w' := by
  rw [World.step_seek hc.seek hr] at hs
  cases hs
  apply inv.keep hn hr
  · rfl
  · rfl
  · exact fun _ => rfl
  · rintro pre post -
    cases call with
    | read sectorStart lens => exact .reading sectorStart [] lens
    | write sectorStart buffers => exact .writing sectorStart [] buffers

theorem Ordered.read (inv : Ordered info fd calls order w) (hn : order.Nodup)
    (hu : w.Undisturbed order i)
    {sectorStart : ℤ} {filled : List Bytes} {done rest : List ℕ} {len : ℕ}
    (hc : (Call.read sectorStart (done ++ len :: rest)).Inside info w.fd.content.length)
    (hfilled : ∀ pre post, order = pre ++ i :: post →
      filled =
        pieces (overlay w.calls (Disk.ofBytes fd.content) pre) (sectorStart.toNat * 512) done)
    (hr : w.calls[i]? = some ⟨.read sectorStart (done ++ len :: rest),
      do return .read (← readLoop sectorStart filled (len :: rest)), done.sum⟩)
    (hs : w.step i = some w') : Ordered info fd calls order w' := by
  have hfits : sectorStart.toNat * 512 + (done ++ len :: rest).sum ≤ _ := hc.fits
  rw [List.sum_append, List.sum_cons, ← Nat.add_assoc, ← Nat.add_assoc] at hfits
  have hoff := hu.offset (q := .read len) hr rfl
  have hq : handler (.read len) w.fd =
      (.done ((Disk.ofBytes w.fd.content).read (sectorStart.toNat * 512 + done.sum) len),
        { w.fd with offset := w.fd.offset + len }) :=
    handler_read_at hoff ((Nat.le_add_right _ _).trans hfits)
  rw [World.step_read hr hq Disk.read_length] at hs
  cases hs
  apply inv.keep hn hr
  · rfl
  · rfl
  · exact fun _ => rfl
  · rintro pre post hsplit
    have hfind : (Disk.ofBytes w.fd.content).read (sectorStart.toNat * 512 + done.sum) len =
        (overlay w.calls (Disk.ofBytes fd.content) pre).read
          (sectorStart.toNat * 512 + done.sum) len := by
      apply Disk.read_congr
      intro x hl hx
      rw [inv.content, hsplit, overlay_split hr]
      apply overlay_outside
      rintro j hj rj hrj hw hm
      have hlt := hu.before hr rfl (ne_of_mem_post (hsplit ▸ hn) hj) hrj (Or.inr hw) hl hx hm
      rw [hsplit] at hlt hn
      exact notMem_of_lt_idxOf hn hlt hj
    rw [hfind, hfilled pre post hsplit]
    exact .read_next

theorem Ordered.write (inv : Ordered info fd calls order w) (hn : order.Nodup) (hi : i ∈ order)
    (hu : w.Undisturbed order i) {sectorStart : ℤ} {done rest : List Bytes} {buf : Bytes}
    (hc : (Call.write sectorStart (done ++ buf :: rest)).Inside info w.fd.content.length)
    (hr : w.calls[i]? = some ⟨.write sectorStart (done ++ buf :: rest),
      do return .write (← writeLoop sectorStart (buf :: rest)), done.flatten.length⟩)
    (hs : w.step i = some w') : Ordered info fd calls order w' := by
  have hfits : sectorStart.toNat * 512 + (done ++ buf :: rest).flatten.length ≤ _ := hc.fits
  rw [List.flatten_append, List.flatten_cons, List.length_append, List.length_append,
    ← Nat.add_assoc, ← Nat.add_assoc] at hfits
  have hoff := hu.offset (q := .write buf) hr rfl
  obtain ⟨hl, hwritten⟩ := ofBytes_overwrite_at hoff ((Nat.le_add_right _ _).trans hfits)
  rw [World.step_write hr] at hs
  cases hs
  apply inv.put hn hr
  · rfl
  · exact hl
  · obtain ⟨pre, post, hsplit⟩ := List.append_of_mem hi
    rw [hwritten, inv.content, hsplit]
    symm
    apply overlay_write (hsplit ▸ hn) hr
    · exact fun c => after_write_next
    · rintro j hj rj hrj x hx hx' hm
      have hlt := hu.before hr rfl (ne_of_mem_post (hsplit ▸ hn) hj) hrj (Or.inl trivial) hx hx' hm
      rw [hsplit] at hlt hn
      exact notMem_of_lt_idxOf hn hlt hj
  · rintro pre post -
    exact .write_next
  · rintro j rj x hne hj hm
    by_cases hx : sectorStart.toNat * 512 + done.flatten.length ≤ x ∧
        x < sectorStart.toNat * 512 + done.flatten.length + buf.length
    · exact Or.inr (hu.before hr rfl hne hj (Or.inl trivial) hx.1 hx.2 hm)
    · refine Or.inl fun c => ?_
      rw [after_write_next, Disk.write_apply_outside (by omega)]

theorem Ordered.step (inv : Ordered info fd calls order w)
    (hin : ∀ call ∈ calls, call.Inside info fd.content.length)
    (hord : order.Perm (List.range calls.length)) (hu : w.Undisturbed order i)
    (hs : w.step i = some w') : Ordered info fd calls order w' := by
  have hn : order.Nodup := hord.nodup_iff.mpr List.nodup_range
  cases hr : w.calls[i]? with
  | none => simp [World.step, hr] at hs
  | some r =>
    have hi : i ∈ order := by
      rw [hord.mem_iff, List.mem_range, ← inv.calls_eq, List.length_map]
      exact (List.getElem?_eq_some_iff.mp hr).1
    have hc : r.call.Inside info w.fd.content.length := by
      rw [inv.length]
      apply hin
      rw [← inv.calls_eq]
      exact List.mem_map_of_mem (List.mem_of_getElem? hr)
    obtain ⟨pre, post, hsplit⟩ := List.append_of_mem hi
    have hst := inv.stage pre i post r hsplit hr
    cases hst with
    | waiting call => exact inv.seek hn hc hr hs
    | reading sectorStart filled rest =>
      cases rest with
      | nil =>
        rw [World.step_returned hr rfl] at hs
        cases hs
      | cons len rest =>
        apply inv.read hn hu hc ?_ hr hs
        rintro pre' post' hsplit'
        rw [hsplit] at hn hsplit'
        rw [split_unique hn hsplit']
    | writing sectorStart written rest =>
      cases rest with
      | nil =>
        rw [World.step_returned hr rfl] at hs
        cases hs
      | cons buf rest => exact inv.write hn hi hu hc hr hs

/-- Calls that have all returned have done what they do one after another. -/
theorem Ordered.returned (inv : Ordered info fd calls order w) (hd : w.Done)
    {pre post : List ℕ} (hsplit : order = pre ++ post) (hpost : ∀ i ∈ post, i < calls.length) :
    let c := overlay w.calls (Disk.ofBytes fd.content) pre
    let called := post.map fun i => calls.getD i default
    List.Forall₂ w.Returned post (answers called c) ∧
      overlay w.calls (Disk.ofBytes fd.content) order =
        called.foldl (fun c call => call.after c) c := by
  induction post generalizing pre with
  | nil =>
    rw [hsplit, List.append_nil]
    exact ⟨.nil, rfl⟩
  | cons i post ih =>
    have hi := hpost i List.mem_cons_self
    obtain ⟨result, r, hr, hp⟩ :=
      hd i (by rw [← List.length_map Running.call, inv.calls_eq]; exact hi)
    have hcall : calls.getD i default = r.call := by
      rw [List.getD_eq_getElem?_getD, ← inv.calls_eq, List.getElem?_map, hr]
      rfl
    obtain ⟨hresult, hafter⟩ := (inv.stage pre i post r hsplit hr).returned hp
    have hpre : overlay w.calls (Disk.ofBytes fd.content) (pre ++ [i]) =
        r.call.after (overlay w.calls (Disk.ofBytes fd.content) pre) := by
      rw [overlay_split hr, ← hafter]
      rfl
    have hsplit' : order = (pre ++ [i]) ++ post := by rw [hsplit, List.append_assoc]; rfl
    obtain ⟨hall, hover⟩ := ih hsplit' fun j hj => hpost j (List.mem_cons_of_mem _ hj)
    dsimp only at hall hover ⊢
    rw [hpre] at hall hover
    rw [List.map_cons, hcall]
    refine ⟨.cons ⟨r, hr, ?_⟩ hall, hover⟩
    rw [hp, hresult]

end Step

section Runs

variable {info : Block.Info} {size : ℕ} {order : List ℕ} {w : World} {i : ℕ} {a b c d : Bytes}

theorem undisturbed_seek {call : Call} (hr : w.calls[i]? = some ⟨call, call.perform info, 0⟩) :
    w.Undisturbed order i := by
  intro r hr' q k hq hpos
  rw [hr, Option.some.injEq] at hr'
  subst hr'
  cases call <;> cases hq <;> exact absurd hpos (lt_irrefl 0)

theorem undisturbed_transfer {r : Running} (hr : w.calls[i]? = some r)
    (hoff : w.fd.offset = r.call.start + r.moved)
    (hmoved : ∀ j r', j ≠ i → w.calls[j]? = some r' → r'.call.start + r'.moved ≤ w.fd.offset ∨
      r'.moved = 0) : w.Undisturbed order i := by
  intro r' hr' q k hq hpos
  rw [hr, Option.some.injEq] at hr'
  subst hr'
  constructor
  · exact hoff
  · rintro j r' hne hj - x hx hx' ⟨hl, hu⟩
    rcases hmoved j r' hne hj with h | h <;> omega

theorem start_one {call : Call} (hs : call.sectorStart = 1) (ha : a.length = 512) :
    call.start = a.length := by
  rw [Call.start, hs, ha]
  norm_num

theorem handler_read_middle {pos : ℕ} (h : pos = a.length) :
    handler (.read b.length) ⟨a ++ b ++ c, pos⟩ = (.done b, ⟨a ++ b ++ c, pos + b.length⟩) := by
  subst h
  simp [handler]

theorem handler_read_last {pos : ℕ} (h : pos = a.length) :
    handler (.read b.length) ⟨a ++ b, pos⟩ = (.done b, ⟨a ++ b, pos + b.length⟩) := by
  subst h
  simp [handler]

theorem apart_run {n : ℕ} (ha : a.length = 512) (hb : b.length = n) (hd : d.length = 512)
    (h₀ : (Call.write 0 [d]).Inside info size) (h₁ : (Call.read 1 [n]).Inside info size) :
    ∃ w, Reaches World.step (World.Undisturbed [0, 1]) (World.start info ⟨a ++ b, 0⟩
        [.write 0 [d], .read 1 [n]]) w ∧ w.Done := by
  subst hb
  have hstart : (Call.read 1 [b.length]).start = d.length := start_one rfl hd
  have hzero : (Call.write 0 [d]).start = 0 := Nat.zero_mul 512
  have hover : overwrite (a ++ b) (Call.write 0 [d]).start d = d ++ b := by
    have hne : d ≠ [] := List.ne_nil_of_length_pos (by omega)
    rw [hzero, overwrite, if_neg hne]
    simp [Cstruct.splice, hd, ← ha]
  have hread := @handler_read_last d b ((Call.write 0 [d]).start + d.length)
    (by rw [hzero, Nat.zero_add])
  refine ⟨⟨⟨d ++ b, (Call.write 0 [d]).start + d.length + b.length⟩,
    [⟨.write 0 [d], .ret (.write (.ok ())), 0 + d.length⟩,
      ⟨.read 1 [b.length], .ret (.read (.ok [b])), 0 + b.length⟩]⟩, ?_, ?_⟩
  · apply Reaches.head 1 (undisturbed_seek rfl) (World.step_seek h₁.seek rfl)
    apply Reaches.head 0 (undisturbed_seek rfl) (World.step_seek h₀.seek rfl)
    apply Reaches.head 0 (undisturbed_transfer rfl (Nat.add_zero _).symm ?_) (World.step_write rfl)
    · dsimp only [World.start]
      rw [hover]
      apply Reaches.head 1 (undisturbed_transfer rfl ?_ ?_) (World.step_read rfl hread rfl)
      · exact Reaches.refl _
      · dsimp only
        rw [hzero, hstart, Nat.zero_add, Nat.add_zero]
      · rintro (_ | _ | j) r' hne hj
        · cases hj
          left
          dsimp only
          rw [Nat.zero_add]
        · exact absurd rfl hne
        · cases hj
    · rintro (_ | _ | j) r' hne hj
      · exact absurd rfl hne
      · cases hj
        exact Or.inr rfl
      · cases hj
  · rintro (_ | _ | i) hi
    · exact ⟨_, _, rfl, rfl⟩
    · exact ⟨_, _, rfl, rfl⟩
    · exact absurd hi (by simp)

theorem stolen_run {n n' : ℕ} (ha : a.length = 512) (hb : b.length = n) (hc : c.length = n')
    (h₀ : (Call.read 0 [n]).Inside info size) (h₁ : (Call.read 1 [n']).Inside info size) :
    ∃ w, Reaches World.step (fun _ _ => True) (World.start info ⟨a ++ b ++ c, 0⟩
        [.read 0 [n], .read 1 [n']]) w ∧ w.Done ∧ w.Returned 0 (.read (.ok [b])) := by
  subst hb hc
  have hstart : (Call.read 1 [c.length]).start = a.length := start_one rfl ha
  have hmiddle := @handler_read_middle a b c _ hstart
  have hlast := @handler_read_last (a ++ b) c ((Call.read 1 [c.length]).start + b.length)
    (by rw [hstart, List.length_append])
  refine ⟨⟨⟨a ++ b ++ c, (Call.read 1 [c.length]).start + b.length + c.length⟩,
    [⟨.read 0 [b.length], .ret (.read (.ok [b])), 0 + b.length⟩,
      ⟨.read 1 [c.length], .ret (.read (.ok [c])), 0 + c.length⟩]⟩, ?_, ?_, ?_⟩
  · apply Reaches.head 0 trivial (World.step_seek h₀.seek rfl)
    apply Reaches.head 1 trivial (World.step_seek h₁.seek rfl)
    apply Reaches.head 0 trivial (World.step_read rfl hmiddle rfl)
    apply Reaches.head 1 trivial (World.step_read rfl hlast rfl)
    exact Reaches.refl _
  · rintro (_ | _ | i) hi
    · exact ⟨_, _, rfl, rfl⟩
    · exact ⟨_, _, rfl, rfl⟩
    · exact absurd hi (by simp)
  · exact ⟨_, rfl, rfl⟩

theorem read_first {n : ℕ} (ha : a.length = n) : (Disk.ofBytes (a ++ b)).read 0 n = a := by
  subst ha
  rw [Disk.ofBytes_read (by simp), List.drop_zero, List.take_left]

end Runs

section Main

variable {info : Block.Info} {fd : Fd} {file : Bytes} {calls : List Call} {order : List ℕ}
  {w : World} {i : ℕ}

theorem mem_of_mem_order (hord : order.Perm (List.range calls.length)) :
    ∀ call ∈ order.map fun i => calls.getD i default, call ∈ calls := by
  rintro call hcall
  obtain ⟨i, hi, rfl⟩ := List.mem_map.mp hcall
  have hlt := List.mem_range.mp (hord.mem_iff.mp hi)
  rw [List.getD_eq_getElem?_getD, List.getElem?_eq_getElem hlt]
  exact List.getElem_mem _

theorem answers_reads (h : ∀ call ∈ calls, ¬ call.IsWrite) (base : Disk) :
    answers calls base = calls.map fun call => call.answer base := by
  induction calls with
  | nil => rfl
  | cons call calls ih =>
    have hafter : call.after base = base := by
      cases call with
      | read => rfl
      | write => exact absurd trivial (h _ List.mem_cons_self)
    rw [answers, hafter, ih fun call hcall => h call (List.mem_cons_of_mem _ hcall), List.map_cons]

theorem Serializable.reads (hs : Serializable info fd calls w)
    (hin : ∀ call ∈ calls, call.Inside info fd.content.length)
    (hreads : ∀ call ∈ calls, ¬ call.IsWrite) (hi : i < calls.length) :
    w.Returned i ((calls.getD i default).answer (Disk.ofBytes fd.content)) := by
  obtain ⟨order, results, fd', hord, hseq, hall, -⟩ := hs
  have hmem := mem_of_mem_order hord
  obtain ⟨fd'', hseq', -, -⟩ := run_sequence fun call hcall => hin call (hmem call hcall)
  rw [List.map_map] at hseq'
  have hresults := hseq.symm.trans hseq'
  rw [answers_reads fun call hcall => hreads call (hmem call hcall), List.map_map] at hresults
  cases hresults
  rw [List.forall₂_map_right_iff, List.forall₂_same] at hall
  exact hall i (hord.mem_iff.mpr (List.mem_range.mpr hi))

theorem connect_of_sectors {n : ℕ} (h : file.length = n * 512) (h0 : 0 < n) (hn : n < 2 ^ 50) :
    connect file = (⟨n, 512, true⟩, ⟨file, 0⟩) := by
  have hne : ¬ file.length = 0 := by omega
  unfold connect
  rw [if_neg hne]
  dsimp only
  rw [wrap64_eq (by omega) (by omega), h]
  simp

/-- Calls of which no step is disturbed return what they return one after another in the
order, and leave the same file. -/
theorem calls_serializable (hsize : file.length < 2 ^ 62)
    (hrange : ∀ call ∈ calls, call.InRange (connect file).1)
    (hord : order.Perm (List.range calls.length))
    (hrun : Reaches World.step (World.Undisturbed order)
      (World.start (connect file).1 (connect file).2 calls) w) (hd : w.Done) :
    Serializable (connect file).1 (connect file).2 calls w := by
  have hin : ∀ call ∈ calls, call.Inside (connect file).1 (connect file).2.content.length :=
    fun call hcall => (hrange call hcall).inside hsize
  have inv : Ordered (connect file).1 (connect file).2 calls order w :=
    hrun.invariant (fun _ _ _ inv hu hs => inv.step hin hord hu hs) ordered_start
  obtain ⟨hall, hover⟩ := inv.returned hd (List.nil_append order).symm fun i hi =>
    List.mem_range.mp (hord.mem_iff.mp hi)
  obtain ⟨fd', hseq, hl, hc⟩ :=
    run_sequence fun call hcall => hin call (mem_of_mem_order hord call hcall)
  refine ⟨order, _, fd', hord, ?_, hall, ?_⟩
  · rw [List.map_map] at hseq
    exact hseq
  · apply Disk.ofBytes_inj (inv.length.trans hl.symm)
    rw [inv.content, hc, hover]
    rfl

/-- A write of sector 0 that falls between the seek and the transfer of a read of sector 1. -/
theorem calls_serializable_write_read :
    let device := connect (List.replicate 512 0 ++ List.replicate 512 1)
    let calls := [Call.write 0 [List.replicate 512 2], Call.read 1 [512]]
    ∃ w, Reaches World.step (World.Undisturbed [0, 1]) (World.start device.1 device.2 calls) w ∧
      w.Done ∧ Serializable device.1 device.2 calls w := by
  intro device calls
  have hlen : (List.replicate 512 0 ++ List.replicate 512 1 : Bytes).length = 2 * 512 := by
    rw [List.length_append, List.length_replicate, List.length_replicate]
  have hsize : (List.replicate 512 0 ++ List.replicate 512 1 : Bytes).length < 2 ^ 62 := by
    rw [hlen]
    norm_num
  have hdevice : device = _ := connect_of_sectors hlen (by norm_num) (by norm_num)
  have hrange : ∀ call ∈ calls, call.InRange device.1 := by
    rintro call hcall
    rw [List.mem_cons, List.mem_singleton] at hcall
    rw [hdevice]
    rcases hcall with rfl | rfl <;> norm_num [Call.InRange, Call.sectorStart, Call.length]
  have hin : ∀ call ∈ calls, call.Inside device.1 device.2.content.length := fun call hcall =>
    (hrange call hcall).inside hsize
  obtain ⟨w, hrun, hd⟩ := @apart_run device.1 _ (List.replicate 512 0) (List.replicate 512 1) _ 512
    List.length_replicate List.length_replicate List.length_replicate
    (hin _ List.mem_cons_self) (hin _ (List.mem_cons_of_mem _ List.mem_cons_self))
  rw [← show device.2 = ⟨List.replicate 512 0 ++ List.replicate 512 1, 0⟩ from
    congrArg Prod.snd hdevice] at hrun
  exact ⟨w, hrun, hd, calls_serializable hsize hrange (.refl _) hrun hd⟩

/-- Two reads that both seek before the first transfer: the read of sector 0 gets sector 1. -/
theorem overlapping_reads_disturbed :
    let device := connect (List.replicate 512 0 ++ List.replicate 512 1 ++ List.replicate 512 2)
    let calls := [Call.read 0 [512], Call.read 1 [512]]
    (∀ call ∈ calls, call.InRange device.1) ∧
      ∃ w, Reaches World.step (fun _ _ => True) (World.start device.1 device.2 calls) w ∧
        w.Done ∧ ¬ Serializable device.1 device.2 calls w := by
  intro device calls
  have hlen :
      (List.replicate 512 0 ++ List.replicate 512 1 ++ List.replicate 512 2 : Bytes).length =
        3 * 512 := by
    simp only [List.length_append, List.length_replicate]
  have hsize :
      (List.replicate 512 0 ++ List.replicate 512 1 ++ List.replicate 512 2 : Bytes).length <
        2 ^ 62 := by
    rw [hlen]
    norm_num
  have hdevice : device = _ := connect_of_sectors hlen (by norm_num) (by norm_num)
  have hrange : ∀ call ∈ calls, call.InRange device.1 := by
    rw [hdevice]
    simp [calls, Call.InRange, Call.sectorStart, Call.length]
  have hin : ∀ call ∈ calls, call.Inside device.1 device.2.content.length := fun call hcall =>
    (hrange call hcall).inside hsize
  obtain ⟨w, hrun, hd, hzero⟩ := @stolen_run device.1 _ (List.replicate 512 0)
    (List.replicate 512 1) (List.replicate 512 2) 512 512
    List.length_replicate List.length_replicate List.length_replicate
    (hin _ List.mem_cons_self) (hin _ (List.mem_cons_of_mem _ List.mem_cons_self))
  have hfd : device.2 =
      ⟨List.replicate 512 0 ++ List.replicate 512 1 ++ List.replicate 512 2, 0⟩ :=
    congrArg Prod.snd hdevice
  rw [← hfd] at hrun
  refine ⟨hrange, w, hrun, hd, fun hs => ?_⟩
  have hreads : ∀ call ∈ calls, ¬ call.IsWrite := by simp [calls, Call.IsWrite]
  obtain ⟨r, hr, hp⟩ := hzero
  obtain ⟨r', hr', hp'⟩ := hs.reads hin hreads (Nat.zero_lt_succ 1)
  cases hr.symm.trans hr'
  have hresult := Prog.ret.inj (hp.symm.trans hp')
  have hbytes : List.replicate 512 1 = (Disk.ofBytes device.2.content).read (0 * 512) 512 :=
    List.head_eq_of_cons_eq (Except.ok.inj (Result.read.inj hresult))
  rw [hfd, Nat.zero_mul, List.append_assoc, read_first List.length_replicate] at hbytes
  have hbyte := List.replicate_inj.mp hbytes
  revert hbyte
  decide

end Main

end OCamlStudy.NanoOs.FileDisk
