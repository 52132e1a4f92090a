import OCamlStudy.MiniRedis.Line

/-! # What the decoder accepts

A buffer begins with a value, or the decoder comes to a stop in it: inside open
arrays, at a value that is unfinished, invalid, or announces a bad length. The
decoder takes any text of a number that `int_of_string` takes and skips the two
bytes after a payload unread; the relation keeps both.
-/

namespace OCamlStudy.MiniRedis

open OCaml

mutual

/-- The bytes spell the value. Listed are the texts of its numbers with what they stand for, and the
two bytes after each payload. -/
inductive Spells : Resp → Bytes → List (Bytes × ℤ) → List Bytes → Prop
  | simpleString {s : Bytes} : 13 ∉ s → Spells (.simpleString s) (line 43 s) [] []
  | error {s : Bytes} : 13 ∉ s → Spells (.error s) (line 45 s) [] []
  | integer {text : Bytes} {n : ℤ} : 13 ∉ text → Spells (.integer n) (line 58 text) [(text, n)] []
  | nullString {text : Bytes} : 13 ∉ text →
    Spells (.bulkString none) (line 36 text) [(text, -1)] []
  | bulkString {text s last : Bytes} : 13 ∉ text → last.length = 2 →
    Spells (.bulkString (some s)) (line 36 text ++ (s ++ last)) [(text, s.length)] [last]
  | nullArray {text : Bytes} : 13 ∉ text → Spells (.array none) (line 42 text) [(text, -1)] []
  | array {text ws : Bytes} {vs : List Resp} {nums : List (Bytes × ℤ)} {ends : List Bytes} :
    13 ∉ text → SpellsAll vs ws nums ends →
      Spells (.array (some vs)) (line 42 text ++ ws) ((text, vs.length) :: nums) ends

inductive SpellsAll : List Resp → Bytes → List (Bytes × ℤ) → List Bytes → Prop
  | nil : SpellsAll [] [] [] []
  | cons {v : Resp} {vs : List Resp} {w ws : Bytes} {nums nums' : List (Bytes × ℤ)}
    {ends ends' : List Bytes} : Spells v w nums ends → SpellsAll vs ws nums' ends' →
      SpellsAll (v :: vs) (w ++ ws) (nums ++ nums') (ends ++ ends')

end

/-- `int_of_string` takes every number. -/
def Numbers (nums : List (Bytes × ℤ)) : Prop := ∀ x ∈ nums, intOfString x.1 = some x.2

/-- The bytes are taken as the value. -/
def Accepts (v : Resp) (w : Bytes) : Prop := ∃ nums ends, Spells v w nums ends ∧ Numbers nums

def AcceptsAll (vs : List Resp) (ws : Bytes) : Prop :=
  ∃ nums ends, SpellsAll vs ws nums ends ∧ Numbers nums

/-- The decoder of the first buffer comes to the second one inside arrays of which the given numbers
of elements are still to come; a negative number never ends. -/
inductive Arrives : List ℤ → Bytes → Bytes → Prop
  | here {b : Bytes} : Arrives [] b b
  | array {text ws b b' : Bytes} {n : ℤ} {vs : List Resp} {counts : List ℤ} :
    13 ∉ text → intOfString text = some n → (n < -1 ∨ vs.length < n) → AcceptsAll vs ws →
      Arrives counts b b' → Arrives ((n - vs.length) :: counts) (line 42 text ++ (ws ++ b)) b'

/-- A value of which more bytes are to come. -/
inductive Unfinished : Bytes → Prop
  | empty : Unfinished []
  | line {c : UInt8} {s : Bytes} : IsType c → findCrlf (c :: s) = none → Unfinished (c :: s)
  | payload {text t : Bytes} {n : ℤ} : 13 ∉ text → intOfString text = some n → n ≠ -1 →
    ¬ BadSize text n → t.length < n + 2 → Unfinished (line 36 text ++ t)

inductive BadLength : Bytes → Prop
  | bulk {text t : Bytes} {n : ℤ} : 13 ∉ text → intOfString text = some n → BadSize text n →
    BadLength (line 36 text ++ t)

/-- A value of no type, or a line that should be a number and is none. -/
inductive Invalid : Bytes → Prop
  | type {c : UInt8} {s : Bytes} : ¬ IsType c → Invalid (c :: s)
  | number {c : UInt8} {text t : Bytes} : (c = 58 ∨ c = 36 ∨ c = 42) → 13 ∉ text →
    intOfString text = none → Invalid (line c text ++ t)

section Accepts

variable {text s last w ws : Bytes} {v : Resp} {vs : List Resp}

theorem numbers_nil : Numbers [] := nofun

theorem numbers_singleton {n : ℤ} (hn : intOfString text = some n) : Numbers [(text, n)] := by
  rintro x hx
  cases List.mem_singleton.mp hx
  exact hn

theorem numbers_append {nums nums' : List (Bytes × ℤ)} :
    Numbers (nums ++ nums') ↔ Numbers nums ∧ Numbers nums' :=
  List.forall_mem_append

theorem numbers_cons {x : Bytes × ℤ} {nums : List (Bytes × ℤ)} :
    Numbers (x :: nums) ↔ intOfString x.1 = some x.2 ∧ Numbers nums :=
  List.forall_mem_cons

theorem Accepts.simpleString (h : 13 ∉ s) : Accepts (.simpleString s) (line 43 s) :=
  ⟨_, _, .simpleString h, numbers_nil⟩

theorem Accepts.error (h : 13 ∉ s) : Accepts (.error s) (line 45 s) :=
  ⟨_, _, .error h, numbers_nil⟩

theorem Accepts.integer {n : ℤ} (h : 13 ∉ text) (hn : intOfString text = some n) :
    Accepts (.integer n) (line 58 text) :=
  ⟨_, _, .integer h, numbers_singleton hn⟩

theorem Accepts.nullString (h : 13 ∉ text) (hn : intOfString text = some (-1)) :
    Accepts (.bulkString none) (line 36 text) :=
  ⟨_, _, .nullString h, numbers_singleton hn⟩

theorem Accepts.bulkString (h : 13 ∉ text) (hn : intOfString text = some s.length)
    (hlast : last.length = 2) : Accepts (.bulkString (some s)) (line 36 text ++ (s ++ last)) :=
  ⟨_, _, .bulkString h hlast, numbers_singleton hn⟩

theorem Accepts.nullArray (h : 13 ∉ text) (hn : intOfString text = some (-1)) :
    Accepts (.array none) (line 42 text) :=
  ⟨_, _, .nullArray h, numbers_singleton hn⟩

theorem Accepts.array (h : 13 ∉ text) (hn : intOfString text = some vs.length)
    (hvs : AcceptsAll vs ws) : Accepts (.array (some vs)) (line 42 text ++ ws) := by
  obtain ⟨nums, ends, hspells, hnums⟩ := hvs
  exact ⟨_, _, .array h hspells, numbers_cons.mpr ⟨hn, hnums⟩⟩

theorem acceptsAll_nil : AcceptsAll [] [] := ⟨_, _, .nil, numbers_nil⟩

theorem AcceptsAll.cons (hv : Accepts v w) (hvs : AcceptsAll vs ws) :
    AcceptsAll (v :: vs) (w ++ ws) := by
  obtain ⟨nums, ends, hspells, hnums⟩ := hv
  obtain ⟨nums', ends', hspells', hnums'⟩ := hvs
  exact ⟨_, _, .cons hspells hspells', numbers_append.mpr ⟨hnums, hnums'⟩⟩

theorem AcceptsAll.append {vs' : List Resp} {ws' : Bytes} (hvs : AcceptsAll vs ws)
    (hvs' : AcceptsAll vs' ws') : AcceptsAll (vs ++ vs') (ws ++ ws') := by
  obtain ⟨nums, ends, hspells, hnums⟩ := hvs
  induction vs generalizing ws nums ends with
  | nil =>
    cases hspells
    exact hvs'
  | cons v vs ih =>
    cases hspells with
    | cons hv hspells =>
      rw [numbers_append] at hnums
      rw [List.append_assoc]
      exact .cons ⟨_, _, hv, hnums.1⟩ (ih _ _ hspells hnums.2)

theorem Accepts.length_le (h : Accepts v w) : 3 ≤ w.length := by
  obtain ⟨nums, ends, hspells, -⟩ := h
  cases hspells <;> simp only [List.length_append, length_line] <;> omega

theorem AcceptsAll.length_le (h : AcceptsAll vs ws) : 3 * vs.length ≤ ws.length := by
  obtain ⟨nums, ends, hspells, hnums⟩ := h
  induction vs generalizing ws nums ends with
  | nil => simp
  | cons v vs ih =>
    cases hspells with
    | cons hv hspells =>
      rw [numbers_append] at hnums
      have hfirst := Accepts.length_le ⟨_, _, hv, hnums.1⟩
      have hrest := ih _ _ hspells hnums.2
      simp only [List.length_append, List.length_cons]
      omega

end Accepts

def Stops (b : Bytes) : Prop :=
  ∃ counts b', Arrives counts b b' ∧ (Unfinished b' ∨ BadLength b' ∨ Invalid b')

/-- The buffer begins with a value, or the decoder comes to a stop in it. -/
def Splits (b : Bytes) : Prop := (∃ v w t, Accepts v w ∧ b = w ++ t) ∨ Stops b

theorem Unfinished.stops {b : Bytes} (h : Unfinished b) : Stops b := ⟨[], b, .here, .inl h⟩

theorem BadLength.stops {b : Bytes} (h : BadLength b) : Stops b := ⟨[], b, .here, .inr (.inl h)⟩

theorem Invalid.stops {b : Bytes} (h : Invalid b) : Stops b := ⟨[], b, .here, .inr (.inr h)⟩

theorem splits_bulk {text : Bytes} {n : ℤ} (h : 13 ∉ text) (hn : intOfString text = some n)
    (t : Bytes) : Splits (line 36 text ++ t) := by
  by_cases hbad : BadSize text n
  · exact .inr (BadLength.bulk h hn hbad).stops
  by_cases hnull : n = -1
  · subst hnull
    exact .inl ⟨_, _, t, .nullString h hn, rfl⟩
  by_cases hshort : (t.length : ℤ) < n + 2
  · exact .inr (Unfinished.payload h hn hnull hbad hshort).stops
  · unfold BadSize at hbad
    have hlen : ((t.take n.toNat).length : ℤ) = n := by
      rw [List.length_take]
      omega
    have hlast : ((t.drop n.toNat).take 2).length = 2 := by
      rw [List.length_take, List.length_drop]
      omega
    refine .inl ⟨_, _, (t.drop n.toNat).drop 2, .bulkString h (hn.trans (congrArg _ hlen.symm))
      hlast, ?_⟩
    rw [List.append_assoc, List.append_assoc, List.take_append_drop, List.take_append_drop]

/-- The elements of an array, up to its end or a stop. -/
theorem elements_cases {t : Bytes} (ht : ∀ t', t'.length ≤ t.length → Splits t') {n : ℤ} :
    ∃ vs ws t', AcceptsAll vs ws ∧ t = ws ++ t' ∧
      (n = vs.length ∨ (n < 0 ∨ vs.length < n) ∧ Stops t') := by
  induction hlen : t.length using Nat.strong_induction_on generalizing t n with
  | _ m ih =>
    by_cases hn : n = 0
    · exact ⟨[], [], t, acceptsAll_nil, rfl, .inl hn⟩
    rcases ht t le_rfl with ⟨v, w, t', hv, rfl⟩ | hstops
    · have hpos := hv.length_le
      rw [List.length_append] at hlen ht
      have ht' : ∀ t'', t''.length ≤ t'.length → Splits t'' := fun t'' hle => ht t'' (by omega)
      obtain ⟨vs, ws, t'', hvs, rfl, hcases⟩ := ih t'.length (by omega) ht' (n := n - 1) rfl
      refine ⟨v :: vs, w ++ ws, t'', .cons hv hvs, (List.append_assoc _ _ _).symm, ?_⟩
      rcases hcases with hend | ⟨hopen, hstops⟩
      · refine .inl ?_
        rw [List.length_cons]
        omega
      · refine .inr ⟨?_, hstops⟩
        rw [List.length_cons]
        omega
    · refine ⟨[], [], t, acceptsAll_nil, rfl, .inr ⟨?_, hstops⟩⟩
      simp only [List.length_nil]
      omega

theorem splits_array {text t : Bytes} {n : ℤ} (h : 13 ∉ text) (hn : intOfString text = some n)
    (ht : ∀ t', t'.length ≤ t.length → Splits t') : Splits (line 42 text ++ t) := by
  by_cases hnull : n = -1
  · subst hnull
    exact .inl ⟨_, _, t, .nullArray h hn, rfl⟩
  obtain ⟨vs, ws, t', hvs, rfl, rfl | ⟨hopen, counts, b', harrives, hstop⟩⟩ :=
    elements_cases ht (n := n)
  · exact .inl ⟨_, _, t', .array h hn hvs, (List.append_assoc _ _ _).symm⟩
  · exact .inr ⟨_, b', .array h hn (by omega) hvs harrives, hstop⟩

/-- **Every buffer begins with a value, or the decoder comes to a stop in it.** -/
theorem splits (b : Bytes) : Splits b := by
  induction hlen : b.length using Nat.strong_induction_on generalizing b with
  | _ m ih =>
    cases b with
    | nil => exact .inr Unfinished.empty.stops
    | cons c s =>
      by_cases hc : IsType c
      · rcases type_cases hc s with ⟨text, t, h, heq⟩ | hnone
        · rw [heq] at hlen ⊢
          rw [List.length_append, length_line] at hlen
          rcases hc with rfl | rfl | rfl | rfl | rfl
          · exact .inl ⟨_, _, t, .simpleString h, rfl⟩
          · exact .inl ⟨_, _, t, .error h, rfl⟩
          · cases hn : intOfString text with
            | none => exact .inr (Invalid.number (by decide) h hn).stops
            | some n => exact .inl ⟨_, _, t, .integer h hn, rfl⟩
          · cases hn : intOfString text with
            | none => exact .inr (Invalid.number (by decide) h hn).stops
            | some n => exact splits_bulk h hn t
          · cases hn : intOfString text with
            | none => exact .inr (Invalid.number (by decide) h hn).stops
            | some n => exact splits_array h hn fun t' hle => ih t'.length (by omega) t' rfl
        · exact .inr (Unfinished.line hc hnone).stops
      · exact .inr (Invalid.type hc).stops

mutual

theorem Spells.decode {v : Resp} {w : Bytes} {nums : List (Bytes × ℤ)} {ends : List Bytes} :
    Spells v w nums ends → Numbers nums → ∀ t, IsString (w ++ t) →
      decode (w ++ t) = .ok (.ok (v, t))
  | .simpleString h, _, t, _ => decode_line_simpleString h t
  | .error h, _, t, _ => decode_line_error h t
  | .integer h, hnums, t, _ => decode_line_integer h (hnums _ List.mem_cons_self) t
  | .nullString h, hnums, t, _ => decode_line_null h (hnums _ List.mem_cons_self) t
  | .bulkString h hlast, hnums, t, hs => by
    have hsize := hs
    unfold IsString maxStringLength at hsize
    simp only [List.length_append, length_line] at hsize
    rw [List.append_assoc]
    exact decode_line_payload h (hnums _ List.mem_cons_self) hlast (by omega) t
  | .nullArray h, hnums, t, _ => by
    rw [decode_line_array h (hnums _ List.mem_cons_self), if_pos rfl]
  | .array h hvs, hnums, t, hs => by
    obtain ⟨hn, hnums⟩ := numbers_cons.mp hnums
    have hbounds := intOfString_bounds hn
    rw [List.append_assoc] at hs ⊢
    dsimp only at hn hbounds
    rw [decode_line_array h hn, if_neg (by omega), ← wrap63_eq hbounds.1 hbounds.2,
      hvs.decodeArrayElements hnums _ (.inr ⟨le_rfl, hbounds.2⟩) t [] (hs.trans' (by simp)),
        sub_self,
      decodeArrayElements_eq (hs.trans' (by simp; omega)), if_pos (by decide)]
    simp

theorem SpellsAll.decodeArrayElements {vs : List Resp} {ws : Bytes} {nums : List (Bytes × ℤ)}
    {ends : List Bytes} : SpellsAll vs ws nums ends → Numbers nums → ∀ (n : ℤ),
      (n < 0 ∧ -2 ^ 62 - 2 ^ 58 ≤ n - vs.length ∨ vs.length ≤ n ∧ n < 2 ^ 62) → ∀ t acc,
        IsString (ws ++ t) → decodeArrayElements (wrap63 n) (ws ++ t) acc =
          MiniRedis.decodeArrayElements (wrap63 (n - vs.length)) t (vs.reverse ++ acc)
  | .nil, _, n, _, t, acc, _ => by simp
  | @SpellsAll.cons v vs _ _ _ _ _ _ hv hvs, hnums, n, hn, t, acc, hs => by
    rw [numbers_append] at hnums
    rw [List.length_cons] at hn ⊢
    rw [List.append_assoc] at hs ⊢
    have hne : wrap63 n ≠ 0 := by
      unfold wrap63
      omega
    have hstep : wrap63 (wrap63 n - 1) = wrap63 (n - 1) := by
      unfold wrap63
      omega
    have hcount : n - 1 - vs.length = n - ((vs.length + 1 : ℕ) : ℤ) := by
      push_cast
      ring
    rw [decodeArrayElements_eq hs, if_neg hne, hv.decode hnums.1 _ hs, Raises.ok_bind]
    dsimp only
    rw [hstep, hvs.decodeArrayElements hnums.2 _ (by push_cast at hn; omega) t _
      (hs.trans' (by simp)),
      hcount, List.reverse_cons, List.append_assoc, List.singleton_append]

end

theorem Accepts.decode {v : Resp} {w t : Bytes} (h : Accepts v w) (hs : IsString (w ++ t)) :
    decode (w ++ t) = .ok (.ok (v, t)) := by
  obtain ⟨nums, ends, hspells, hnums⟩ := h
  exact hspells.decode hnums t hs

section Stops

variable {b b' : Bytes}

theorem Unfinished.decode (h : Unfinished b) :
    ∃ msg, decode b = .ok (.error msg) ∧ Waits msg := by
  cases h with
  | empty => exact ⟨_, rfl, .inl rfl⟩
  | line hc hnone => exact decode_unended hc hnone
  | payload h hn hnull hgood hshort =>
    exact ⟨_, decode_line_short h hn hgood hnull hshort, .inr rfl⟩

theorem BadLength.decode (h : BadLength b) (hs : IsString b) :
    decode b = .error (.invalidArgument "String.sub / Bytes.sub") := by
  cases h with
  | bulk h hn hbad => exact decode_line_badSize h hn hs hbad

theorem Invalid.decode (h : Invalid b) : ∃ msg, decode b = .ok (.error msg) ∧ ¬ Waits msg := by
  cases h with
  | @type c s hc =>
    have htake : (bytes "Invalid RESP type: " ++ [c]).take 10 = bytes "Invalid RE" := rfl
    refine ⟨_, decode_unknown hc _, ?_⟩
    rintro (h | h)
    · rw [h] at htake
      exact absurd htake (by decide)
    · exact absurd (htake.symm.trans h) (by decide)
  | number hc h hn => exact ⟨_, decode_line_invalid hc h hn _, by decide⟩

theorem Arrives.suffix {counts : List ℤ} (h : Arrives counts b b') : b' <:+ b := by
  induction h with
  | here => exact List.suffix_refl _
  | array _ _ _ _ _ ih => exact ih.trans ⟨_, List.append_assoc _ _ _⟩

/-- The outcome where the decoder stops is the outcome of the whole buffer. -/
theorem Arrives.decode {counts : List ℤ} (h : Arrives counts b b') (hs : IsString b)
    (hstop : ∀ p, decode b' ≠ .ok (.ok p)) : decode b = decode b' := by
  induction h with
  | here => rfl
  | @array text ws b b' n vs counts h hn hopen hvs _ ih =>
    have hws : IsString (ws ++ b) := hs.trans' (by simp)
    have hb : IsString b := hws.trans' (by simp)
    have hbounds := intOfString_bounds hn
    have hlen := hvs.length_le
    obtain ⟨nums, ends, hspells, hnums⟩ := hvs
    have hsize := hws
    unfold IsString maxStringLength at hsize
    rw [List.length_append] at hsize
    have hne : wrap63 (n - vs.length) ≠ 0 := by
      unfold wrap63
      omega
    rw [decode_line_array h hn, if_neg (by omega), ← wrap63_eq hbounds.1 hbounds.2,
      hspells.decodeArrayElements hnums n (by omega) b [] hws, decodeArrayElements_eq hb,
        if_neg hne]
    rw [ih hb hstop]
    cases hd : MiniRedis.decode b' with
    | error exn => rfl
    | ok r =>
      cases r with
      | error msg => rfl
      | ok p => exact absurd hd (hstop p)

/-- Where the decoder stops no value is decoded. -/
theorem Stops.decode (h : Stops b) (hs : IsString b) (p : Resp × Bytes) :
    decode b ≠ .ok (.ok p) := by
  obtain ⟨counts, b', harrives, hstop⟩ := h
  have hsuffix : IsString b' := hs.trans' harrives.suffix.length_le
  have hno : ∀ p, MiniRedis.decode b' ≠ .ok (.ok p) := by
    rintro p hp
    rcases hstop with hstop | hstop | hstop
    · obtain ⟨msg, hmsg, -⟩ := hstop.decode
      cases hp.symm.trans hmsg
    · cases hp.symm.trans (hstop.decode hsuffix)
    · obtain ⟨msg, hmsg, -⟩ := hstop.decode
      cases hp.symm.trans hmsg
  rw [harrives.decode hs hno]
  exact hno p

end Stops

/-- **What the decoder accepts.** -/
theorem decode_eq_ok_iff {b t : Bytes} {v : Resp} (hs : IsString b) :
    decode b = .ok (.ok (v, t)) ↔ ∃ w, Accepts v w ∧ b = w ++ t := by
  constructor
  · intro h
    rcases splits b with ⟨v', w, t', hv, rfl⟩ | hstops
    · cases h.symm.trans (hv.decode hs)
      exact ⟨w, hv, rfl⟩
    · exact absurd h (hstops.decode hs _)
  · rintro ⟨w, hv, rfl⟩
    exact hv.decode hs

end OCamlStudy.MiniRedis
