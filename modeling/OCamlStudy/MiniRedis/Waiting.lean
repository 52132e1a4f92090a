import OCamlStudy.MiniRedis.WellFormed

/-! # Waiting for more bytes

The server reads on where a value is unfinished. It does so in vain if the line
of the value holds a stray carriage return or can no longer become a number, if
an array around it announces a negative count, or if what is missing does not fit
into a string.
-/

namespace OCamlStudy.MiniRedis

open OCaml

def ServerWaits (b : Bytes) : Prop := ∃ msg, decode b = .ok (.error msg) ∧ Waits msg

/-- The buffer holds no value, and more bytes can make it hold one. -/
def Completable (b : Bytes) : Prop :=
  (∀ p, decode b ≠ .ok (.ok p)) ∧ ∃ q, IsString (b ++ q) ∧ ∃ p, decode (b ++ q) = .ok (.ok p)

/-- The server waits exactly if more bytes can help, and else answers with an error. -/
def Judged (b : Bytes) : Prop :=
  (ServerWaits b ↔ Completable b) ∧
    ((∀ p, decode b ≠ .ok (.ok p)) → ¬ ServerWaits b → ∃ msg, decode b = .ok (.error msg))

/-- The shortest value whose line announces the number takes so many bytes behind the line. -/
inductive Announces : UInt8 → ℤ → ℕ → Prop
  | integer {n : ℤ} : Announces 58 n 0
  | nullString : Announces 36 (-1) 0
  | bulkString {n : ℕ} : Announces 36 n (n + 2)
  | nullArray : Announces 42 (-1) 0
  | array {n : ℕ} : Announces 42 n (3 * n)

/-- So many bytes complete the unfinished value. -/
inductive Lacks : Bytes → ℕ → Prop
  | empty : Lacks [] 3
  | text {c : UInt8} {s : Bytes} : (c = 43 ∨ c = 45) → 13 ∉ s → Lacks (c :: s) 2
  | textEnd {c : UInt8} {s : Bytes} : (c = 43 ∨ c = 45) → 13 ∉ s → Lacks (c :: (s ++ [13])) 1
  | number {c : UInt8} {text more : Bytes} {n : ℤ} {d : ℕ} : 13 ∉ text ++ more →
    intOfString (text ++ more) = some n → Announces c n d → Lacks (c :: text) (more.length + 2 + d)
  | numberEnd {c : UInt8} {text : Bytes} {n : ℤ} {d : ℕ} : 13 ∉ text → intOfString text = some n →
    Announces c n d → Lacks (c :: (text ++ [13])) (1 + d)
  | payload {text t : Bytes} {n : ℕ} : 13 ∉ text → intOfString text = some (n : ℤ) →
    t.length < n + 2 → Lacks (line 36 text ++ t) (n + 2 - t.length)

/-- The bytes of the elements that are still to come in the open arrays, besides the one in each
that is being read. -/
def owed (counts : List ℤ) : ℤ := (counts.map fun r => 3 * (r - 1)).sum

/-- Where the decoder stops it stops at no bad length, and what it waits for fits into a string. -/
def CanFinish (b : Bytes) : Prop :=
  ∀ counts b', Arrives counts b b' → ¬ BadLength b' ∧
    (Unfinished b' → (∀ r ∈ counts, 0 < r) ∧
      ∃ d, Lacks b' d ∧ b.length + d + owed counts ≤ maxStringLength)

section Complete

variable {text b b' q : Bytes} {v : Resp} {counts : List ℤ}

def shortest (k : ℕ) : Bytes := (List.replicate k (line 43 [])).flatten

theorem length_shortest (k : ℕ) : (shortest k).length = 3 * k := by
  simp [shortest, mul_comm]

theorem acceptsAll_shortest (k : ℕ) :
    AcceptsAll (List.replicate k (.simpleString [])) (shortest k) := by
  induction k with
  | zero => exact acceptsAll_nil
  | succ k ih => exact .cons (.simpleString List.not_mem_nil) ih

theorem accepts_payload {t : Bytes} {n : ℕ} (h : 13 ∉ text) (hn : intOfString text = some (n : ℤ))
    (ht : t.length = n + 2) : Accepts (.bulkString (some (t.take n))) (line 36 text ++ t) := by
  have hlen : (t.take n).length = n := by
    rw [List.length_take]
    omega
  have hlast : (t.drop n).length = 2 := by
    rw [List.length_drop]
    omega
  have hcount : intOfString text = some ((t.take n).length : ℤ) := by rw [hn, hlen]
  have haccepts := Accepts.bulkString h hcount hlast
  rwa [List.take_append_drop] at haccepts

theorem Announces.complete {c : UInt8} {n : ℤ} {d : ℕ} (ha : Announces c n d) (h : 13 ∉ text)
    (hn : intOfString text = some n) : ∃ t v, t.length = d ∧ Accepts v (line c text ++ t) := by
  cases ha with
  | integer => exact ⟨[], _, rfl, by simpa using Accepts.integer h hn⟩
  | nullString => exact ⟨[], _, rfl, by simpa using Accepts.nullString h hn⟩
  | @bulkString n =>
    exact ⟨List.replicate (n + 2) 0, _, by simp, accepts_payload h hn (by simp)⟩
  | nullArray => exact ⟨[], _, rfl, by simpa using Accepts.nullArray h hn⟩
  | @array n =>
    exact ⟨shortest n, _, length_shortest n, .array h (hn.trans (by simp)) (acceptsAll_shortest n)⟩

theorem Lacks.complete {d : ℕ} (h : Lacks b d) : ∃ q v, q.length = d ∧ Accepts v (b ++ q) := by
  cases h with
  | empty => exact ⟨line 43 [], _, rfl, .simpleString List.not_mem_nil⟩
  | text hc hs =>
    rcases hc with rfl | rfl
    · exact ⟨[13, 10], _, rfl, .simpleString hs⟩
    · exact ⟨[13, 10], _, rfl, .error hs⟩
  | @textEnd c s hc hs =>
    have hline : c :: (s ++ [13]) ++ [10] = line c s := by simp [line]
    rcases hc with rfl | rfl
    · exact ⟨[10], .simpleString s, rfl, by rw [hline]; exact .simpleString hs⟩
    · exact ⟨[10], .error s, rfl, by rw [hline]; exact .error hs⟩
  | @number c text more n d h hn ha =>
    obtain ⟨t, v, hlen, hv⟩ := ha.complete h hn
    refine ⟨more ++ 13 :: 10 :: t, v, ?_, ?_⟩
    · simp only [List.length_append, List.length_cons, hlen]
      omega
    · rw [line_append] at hv
      simpa using hv
  | @numberEnd c text n d h hn ha =>
    obtain ⟨t, v, hlen, hv⟩ := ha.complete h hn
    refine ⟨10 :: t, v, ?_, ?_⟩
    · rw [List.length_cons, hlen, add_comm]
    · rw [line_append] at hv
      simpa using hv
  | @payload text t n h hn hshort =>
    have hlen : (t ++ List.replicate (n + 2 - t.length) 0).length = n + 2 := by
      simp only [List.length_append, List.length_replicate]
      omega
    have hv := accepts_payload h hn hlen
    rw [← List.append_assoc] at hv
    exact ⟨_, _, List.length_replicate, hv⟩

theorem Arrives.complete (h : Arrives counts b b') (hpos : ∀ r ∈ counts, 0 < r)
    (hv : Accepts v (b' ++ q)) :
    ∃ q' v', (q'.length : ℤ) = owed counts ∧ Accepts v' (b ++ q ++ q') := by
  induction h with
  | here => exact ⟨[], v, rfl, by rwa [List.append_nil]⟩
  | @array text ws b b' n vs counts h hn hopen hvs _ ih =>
    obtain ⟨q₁, v₁, hlen, hv₁⟩ := ih (fun r hr => hpos r (List.mem_cons_of_mem _ hr)) hv
    have hr := hpos _ List.mem_cons_self
    obtain ⟨k, hk⟩ : ∃ k : ℕ, n = vs.length + 1 + k := ⟨(n - vs.length - 1).toNat, by omega⟩
    have helems := hvs.append (.cons hv₁ (acceptsAll_shortest k))
    have hcount : n = (vs ++ v₁ :: List.replicate k (.simpleString [])).length := by
      rw [hk]
      simp
      ring
    refine ⟨q₁ ++ shortest k, .array (some (vs ++ v₁ :: List.replicate k (.simpleString []))),
      ?_, ?_⟩
    · rw [owed, List.map_cons, List.sum_cons, ← owed, ← hlen, List.length_append,
        length_shortest, hk]
      push_cast
      ring
    · have harray := Accepts.array h (hn.trans (congrArg _ hcount)) helems
      simpa using harray

end Complete

section Completed

variable {b b' q t w : Bytes} {v : Resp} {counts : List ℤ}

/-- The line announces no more than what follows it. -/
def Header (c : UInt8) (text tail : Bytes) : Prop :=
  (c = 43 ∨ c = 45) ∨ ∃ n d, intOfString text = some n ∧ Announces c n d ∧ d ≤ tail.length

theorem Accepts.header (h : Accepts v w) :
    ∃ c text tail, w = line c text ++ tail ∧ 13 ∉ text ∧ Header c text tail := by
  obtain ⟨nums, ends, hspells, hnums⟩ := h
  cases hspells with
  | @simpleString s h => exact ⟨43, s, [], (List.append_nil _).symm, h, .inl (.inl rfl)⟩
  | @error s h => exact ⟨45, s, [], (List.append_nil _).symm, h, .inl (.inr rfl)⟩
  | @integer text n h =>
    exact ⟨58, text, [], (List.append_nil _).symm, h,
      .inr ⟨n, 0, hnums _ List.mem_cons_self, .integer, le_rfl⟩⟩
  | @nullString text h =>
    exact ⟨36, text, [], (List.append_nil _).symm, h,
      .inr ⟨-1, 0, hnums _ List.mem_cons_self, .nullString, le_rfl⟩⟩
  | @bulkString text s last h hlast =>
    refine ⟨36, text, s ++ last, rfl, h, .inr ⟨_, _, hnums _ List.mem_cons_self, .bulkString, ?_⟩⟩
    rw [List.length_append, hlast]
  | @nullArray text h =>
    exact ⟨42, text, [], (List.append_nil _).symm, h,
      .inr ⟨-1, 0, hnums _ List.mem_cons_self, .nullArray, le_rfl⟩⟩
  | @array text ws vs nums ends h hvs =>
    obtain ⟨hn, hnums⟩ := numbers_cons.mp hnums
    exact ⟨42, text, ws, rfl, h, .inr ⟨_, _, hn, .array, AcceptsAll.length_le ⟨_, _, hvs, hnums⟩⟩⟩

theorem append_cr_cases {s text x : Bytes} (hs : 13 ∉ s) (heq : s ++ q = text ++ 13 :: x) :
    ∃ more, text = s ++ more ∧ q = more ++ 13 :: x := by
  rcases List.append_eq_append_iff.mp heq with ⟨more, rfl, hq⟩ | ⟨more, rfl, hx⟩
  · exact ⟨more, rfl, hq⟩
  · cases more with
    | nil => exact ⟨[], by simp, by simpa using hx.symm⟩
    | cons c more =>
      obtain ⟨rfl, -⟩ := List.cons.inj hx
      exact absurd (List.mem_append_right _ List.mem_cons_self) hs

theorem lacks_open {c : UInt8} {s text tail : Bytes} (htext : 13 ∉ text)
    (hheader : Header c text tail)
    (hs : 13 ∉ s) (heq : s ++ q = text ++ 13 :: 10 :: (tail ++ t)) :
    ∃ d, Lacks (c :: s) d ∧ d + t.length ≤ q.length := by
  obtain ⟨more, rfl, rfl⟩ := append_cr_cases hs heq
  simp only [List.length_append, List.length_cons]
  rcases hheader with hc | ⟨n, d, hn, ha, hd⟩
  · exact ⟨2, .text hc hs, by omega⟩
  · exact ⟨_, .number htext hn ha, by omega⟩

theorem lacks_end {c : UInt8} {s t' text tail : Bytes} (htext : 13 ∉ text)
    (hheader : Header c text tail) (hs : 13 ∉ s) (hhead : t'.head? ≠ some 10)
    (heq : s ++ 13 :: t' ++ q = text ++ 13 :: 10 :: (tail ++ t)) :
    ∃ d, Lacks (c :: (s ++ 13 :: t')) d ∧ d + t.length ≤ q.length := by
  rw [List.append_assoc, List.cons_append] at heq
  obtain ⟨rfl, hbehind⟩ := cr_inj hs htext heq
  cases t' with
  | cons x t' =>
    obtain ⟨rfl, -⟩ := List.cons.inj hbehind
    exact absurd rfl hhead
  | nil =>
    rw [List.nil_append] at hbehind
    subst hbehind
    simp only [List.length_append, List.length_cons]
    rcases hheader with hc | ⟨n, d, hn, ha, hd⟩
    · exact ⟨1, .textEnd hc htext, by omega⟩
    · exact ⟨_, .numberEnd htext hn ha, by omega⟩

theorem lacks_line {c : UInt8} {s : Bytes} (hc : IsType c) (hnone : findCrlf (c :: s) = none)
    (hv : Accepts v w) (heq : c :: s ++ q = w ++ t) :
    ∃ d, Lacks (c :: s) d ∧ d + t.length ≤ q.length := by
  have hc13 : c ≠ 13 := by
    rcases hc with rfl | rfl | rfl | rfl | rfl <;> decide
  obtain ⟨c', text, tail, rfl, htext, hheader⟩ := hv.header
  rw [List.append_assoc, line_append] at heq
  obtain ⟨rfl, hrest⟩ := List.cons.inj heq
  rcases findCrlf_cases (c :: s) with ⟨text', t', h, hline⟩ | ⟨-, hopen⟩
  · rw [hline, findCrlf_line h] at hnone
    cases hnone
  rcases hopen with hopen | ⟨text', t', h, hline, hhead⟩
  · exact lacks_open htext hheader (fun hmem => hopen (List.mem_cons_of_mem _ hmem)) hrest
  · cases text' with
    | nil => exact absurd (List.cons.inj hline).1 hc13
    | cons c' text' =>
      obtain ⟨rfl, rfl⟩ : c = c' ∧ s = text' ++ 13 :: t' := List.cons.inj hline
      exact lacks_end htext hheader (fun hmem => h (List.mem_cons_of_mem _ hmem)) hhead hrest

theorem Unfinished.lacks (h : Unfinished b) (hv : Accepts v w) (heq : b ++ q = w ++ t) :
    ∃ d, Lacks b d ∧ d + t.length ≤ q.length := by
  cases h with
  | empty =>
    refine ⟨3, .empty, ?_⟩
    have hlen := hv.length_le
    rw [List.nil_append] at heq
    rw [heq, List.length_append]
    omega
  | line hc hnone => exact lacks_line hc hnone hv heq
  | @payload text t₀ n h hn hnull hgood hshort =>
    obtain ⟨c, text', tail, rfl, h', hannounces⟩ := hv.header
    have hc : c = 36 := by
      rw [List.append_assoc, List.append_assoc, line_append, line_append] at heq
      exact (List.cons.inj heq).1.symm
    subst hc
    rw [List.append_assoc, List.append_assoc] at heq
    obtain ⟨rfl, hrest⟩ := line_inj h h' heq
    have hlen := congrArg List.length hrest
    simp only [List.length_append] at hlen
    rcases hannounces with hc | ⟨m, d, hm, ha, hd⟩
    · exact absurd hc (by decide)
    · cases hn.symm.trans hm
      cases ha with
      | nullString => exact absurd rfl hnull
      | bulkString => exact ⟨_, .payload h hn (by omega), by omega⟩

/-- The same bytes begin with one value only. -/
theorem Accepts.unique {v' : Resp} {w' x x' : Bytes} (h : Accepts v w) (h' : Accepts v' w')
    (hs : IsString (w ++ x)) (heq : w ++ x = w' ++ x') : v = v' ∧ x = x' := by
  have hd := h.decode hs
  rw [heq] at hs hd
  cases hd.symm.trans (h'.decode hs)
  exact ⟨rfl, rfl⟩

theorem AcceptsAll.next {vs vs' : List Resp} {ws ws' x : Bytes} (h : AcceptsAll vs ws)
    (h' : AcceptsAll vs' ws') (hlt : vs.length < vs'.length) (hs : IsString (ws ++ x))
    (heq : ws ++ x = ws' ++ t) : ∃ v w vs₂ ws₂, Accepts v w ∧ AcceptsAll vs₂ ws₂ ∧
      x = w ++ (ws₂ ++ t) ∧ vs'.length = vs.length + 1 + vs₂.length := by
  induction vs generalizing ws ws' vs' with
  | nil =>
    obtain ⟨_, _, hspells, -⟩ := h
    obtain ⟨nums', ends', hspells', hnums'⟩ := h'
    cases hspells
    cases hspells' with
    | nil => cases hlt
    | cons hv hvs =>
      rw [numbers_append] at hnums'
      refine ⟨_, _, _, _, ⟨_, _, hv, hnums'.1⟩, ⟨_, _, hvs, hnums'.2⟩, ?_, ?_⟩
      · rw [← List.append_assoc]
        exact heq
      · simp only [List.length_nil, List.length_cons]
        omega
  | cons v vs ih =>
    obtain ⟨nums, ends, hspells, hnums⟩ := h
    obtain ⟨nums', ends', hspells', hnums'⟩ := h'
    cases hspells with
    | cons hv hvs =>
      cases hspells' with
      | nil => cases hlt
      | cons hv' hvs' =>
        rw [numbers_append] at hnums hnums'
        rw [List.append_assoc] at hs heq
        rw [List.append_assoc] at heq
        obtain ⟨rfl, hrest⟩ := Accepts.unique ⟨_, _, hv, hnums.1⟩ ⟨_, _, hv', hnums'.1⟩ hs heq
        obtain ⟨v₁, w₁, vs₂, ws₂, hv₁, hvs₂, rfl, hlen⟩ :=
          ih ⟨_, _, hvs, hnums.2⟩ ⟨_, _, hvs', hnums'.2⟩
          (Nat.lt_of_succ_lt_succ hlt) (hs.trans' (by simp)) hrest
        refine ⟨v₁, w₁, vs₂, ws₂, hv₁, hvs₂, rfl, ?_⟩
        simp only [List.length_cons]
        omega

/-- A value read from the completed buffer holds the value at which the decoder had stopped, and
behind it all that the open arrays owed. -/
theorem Arrives.completed (h : Arrives counts b b') (hs : IsString (b ++ q)) (hv : Accepts v w)
    (heq : b ++ q = w ++ t) : (∀ r ∈ counts, 0 < r) ∧ ∃ v' w' t', Accepts v' w' ∧
      b' ++ q = w' ++ t' ∧ owed counts + t.length ≤ t'.length := by
  induction h generalizing v w t with
  | here => exact ⟨nofun, v, w, t, hv, heq, by simp [owed]⟩
  | @array text ws b b' n vs counts h hn hopen hvs _ ih =>
    rw [List.append_assoc, List.append_assoc] at heq hs
    obtain ⟨nums, ends, hspells, hnums⟩ := hv
    cases hspells with
    | nullArray h' =>
      obtain ⟨rfl, -⟩ := line_inj h h' heq
      cases hn.symm.trans (hnums _ List.mem_cons_self)
      omega
    | @array text' ws' vs' nums' ends' h' hvs' =>
      rw [List.append_assoc] at heq
      obtain ⟨rfl, hrest⟩ := line_inj h h' heq
      obtain ⟨hn', hnums'⟩ := numbers_cons.mp hnums
      cases hn.symm.trans hn'
      obtain ⟨v₁, w₁, vs₂, ws₂, hv₁, hvs₂, hnext, hlen⟩ := hvs.next ⟨_, _, hvs', hnums'⟩ (by omega)
        (hs.trans' (by simp)) hrest
      obtain ⟨hpos, v', w', t', hv', heq', howed⟩ := ih (hs.trans' (by simp; omega)) hv₁ hnext
      have hlen₂ := hvs₂.length_le
      refine ⟨?_, v', w', t', hv', heq', ?_⟩
      · rintro r hr
        rcases List.mem_cons.mp hr with rfl | hr
        · omega
        · exact hpos r hr
      · rw [owed, List.map_cons, List.sum_cons, ← owed]
        rw [List.length_append] at howed
        omega
    | _ => simp [line] at heq

end Completed

section Verdict

variable {b b' : Bytes} {counts : List ℤ}

theorem not_ok_of_arrives (h : Arrives counts b b') (hb' : Unfinished b') (hs : IsString b)
    (p : Resp × Bytes) : decode b ≠ .ok (.ok p) :=
  Stops.decode ⟨counts, b', h, .inl hb'⟩ hs p

theorem Arrives.waits (h : Arrives counts b b') (hb' : Unfinished b') (hs : IsString b) :
    ServerWaits b := by
  obtain ⟨msg, hmsg, hwaits⟩ := hb'.decode
  exact ⟨msg, (h.decode hs (by rw [hmsg]; nofun)).trans hmsg, hwaits⟩

theorem Arrives.completable (h : Arrives counts b b') (hb' : Unfinished b') (hs : IsString b)
    (hpos : ∀ r ∈ counts, 0 < r) {d : ℕ} (hlacks : Lacks b' d)
    (hfit : b.length + d + owed counts ≤ maxStringLength) : Completable b := by
  obtain ⟨q, v, hq, hv⟩ := hlacks.complete
  obtain ⟨q', v', hq', hv'⟩ := h.complete hpos hv
  have hlong : IsString (b ++ (q ++ q')) := by
    unfold IsString
    simp only [List.length_append, hq]
    omega
  refine ⟨not_ok_of_arrives h hb' hs, q ++ q', hlong, (v', []), ?_⟩
  have hdecode := hv'.decode (t := []) (by simpa using hlong)
  simpa using hdecode

theorem Completable.fits (hc : Completable b) (h : Arrives counts b b') (hb' : Unfinished b') :
    (∀ r ∈ counts, 0 < r) ∧ ∃ d, Lacks b' d ∧ b.length + d + owed counts ≤ maxStringLength := by
  obtain ⟨-, q, hlong, ⟨v, t⟩, hdecode⟩ := hc
  obtain ⟨w, hv, heq⟩ := (decode_eq_ok_iff hlong).mp hdecode
  obtain ⟨hpos, v', w', t', hv', heq', howed⟩ := h.completed hlong hv heq
  obtain ⟨d, hlacks, hd⟩ := hb'.lacks hv' heq'
  refine ⟨hpos, d, hlacks, ?_⟩
  unfold IsString at hlong
  rw [List.length_append] at hlong
  omega

/-- A fatal error stays one, whatever follows. -/
theorem not_completable {msg : Bytes} (h : decode b = .ok (.error msg)) (hw : ¬ Waits msg) :
    ¬ Completable b := by
  rintro ⟨-, q, hlong, p, hp⟩
  have happend := decode_append hlong
  rw [h] at happend
  rcases happend with hwaits | hsame
  · exact hw hwaits
  · cases hp.symm.trans hsame

/-- **The server waits exactly if more bytes can help**, unless the decoder stops where they
cannot. -/
theorem judged_iff_canFinish (hs : IsString b) : Judged b ↔ CanFinish b := by
  constructor
  · rintro ⟨hiff, hfatal⟩ counts b' harrives
    constructor
    · intro hbad
      have hb' := hbad.decode (hs.trans' harrives.suffix.length_le)
      have hraise := (harrives.decode hs (by rw [hb']; nofun)).trans hb'
      have hnot : ¬ ServerWaits b := by
        rintro ⟨msg, hmsg, -⟩
        cases hraise.symm.trans hmsg
      obtain ⟨msg, hmsg⟩ := hfatal (by rw [hraise]; nofun) hnot
      cases hraise.symm.trans hmsg
    · exact fun hb' => (hiff.mp (harrives.waits hb' hs)).fits harrives hb'
  · intro hfinish
    rcases splits b with ⟨v, w, t, hv, rfl⟩ | ⟨counts, b', harrives, hstop⟩
    · have hok := hv.decode hs
      refine ⟨⟨?_, fun hc => absurd hok (hc.1 _)⟩, fun hno => absurd hok (hno _)⟩
      rintro ⟨msg, hmsg, -⟩
      cases hok.symm.trans hmsg
    · obtain ⟨hgood, hfits⟩ := hfinish counts b' harrives
      rcases hstop with hstop | hstop | hstop
      · have hwaits := harrives.waits hstop hs
        obtain ⟨hpos, d, hlacks, hfit⟩ := hfits hstop
        have hc := harrives.completable hstop hs hpos hlacks hfit
        exact ⟨⟨fun _ => hc, fun _ => hwaits⟩, fun _ hno => absurd hwaits hno⟩
      · exact absurd hstop hgood
      · obtain ⟨msg, hmsg, hw⟩ := hstop.decode
        have hfatal := (harrives.decode hs (by rw [hmsg]; nofun)).trans hmsg
        refine ⟨⟨?_, fun hc => absurd hc (not_completable hfatal hw)⟩, fun _ _ => ⟨msg, hfatal⟩⟩
        rintro ⟨msg', hmsg', hw'⟩
        cases hfatal.symm.trans hmsg'
        exact absurd hw' hw

end Verdict

/-- An array of one element that is not there yet. -/
theorem judged_iff_canFinish_array : Judged (bytes "*1\r\n") ↔ CanFinish (bytes "*1\r\n") :=
  judged_iff_canFinish (by unfold IsString maxStringLength; decide)

/-- **The server waits for ever** behind a carriage return that ends no line. -/
theorem judged_stray : ¬ ∀ b : Bytes, IsString b → Judged b := by
  intro hall
  have hs : IsString (bytes "+\rx") := by
    unfold IsString maxStringLength
    decide
  obtain ⟨msg, hmsg, hwaits⟩ := decode_unended (c := 43) (s := bytes "\rx") (.inl rfl) rfl
  obtain ⟨-, q, -, p, hp⟩ := (hall _ hs).1.mp ⟨msg, hmsg, hwaits⟩
  have hcr : (13 : UInt8) ∉ [43] := by decide
  have hnone : findCrlf (43 :: (bytes "\rx" ++ q)) = none :=
    (findCrlf_cr (t := 120 :: q) hcr).trans (if_neg (by simp))
  obtain ⟨msg', hmsg', -⟩ := decode_unended (.inl rfl) hnone
  cases hp.symm.trans hmsg'

end OCamlStudy.MiniRedis
