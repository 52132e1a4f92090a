import OCamlStudy.OCaml.Basic

/-! # Cstruct buffers

A buffer that its owner alone holds is its contents. Every access out of bounds
raises `Invalid_argument`.
-/

namespace OCamlStudy.OCaml.Cstruct

/-- `Cstruct.create`; the buffer is filled with zeros. -/
def create (len : ℤ) : Raises Bytes :=
  if len < 0 then .error (.invalidArgument "Cstruct.create") else .ok (List.replicate len.toNat 0)

def sub (buf : Bytes) (ofs len : ℤ) : Raises Bytes :=
  if ofs < 0 ∨ len < 0 ∨ ofs + len > buf.length then .error (.invalidArgument "Cstruct.sub")
  else .ok ((buf.drop ofs.toNat).take len.toNat)

def splice (dst : Bytes) (ofs : ℕ) (src : Bytes) : Bytes :=
  dst.take ofs ++ src ++ dst.drop (ofs + src.length)

/-- `Cstruct.blit`; also `Cstruct.blit_from_string`. -/
def blit (src : Bytes) (srcoff : ℤ) (dst : Bytes) (dstoff len : ℤ) : Raises Bytes :=
  if srcoff < 0 ∨ len < 0 ∨ srcoff + len > src.length ∨ dstoff < 0 ∨ dstoff + len > dst.length then
    .error (.invalidArgument "Cstruct.blit")
  else .ok (splice dst dstoff.toNat ((src.drop srcoff.toNat).take len.toNat))

def byte (n : ℤ) : UInt8 := (n % 256).toNat.toUInt8

def setUint8 (buf : Bytes) (ofs value : ℤ) : Raises Bytes := blit [byte value] 0 buf ofs 1

def setUint16 (buf : Bytes) (ofs value : ℤ) : Raises Bytes :=
  blit [byte value, byte (value / 256)] 0 buf ofs 2

/-- The four bytes of an `int32`, lowest first. -/
def leBytes32 (value : ℤ) : Bytes :=
  [byte value, byte (value / 2 ^ 8), byte (value / 2 ^ 16), byte (value / 2 ^ 24)]

def setUint32 (buf : Bytes) (ofs value : ℤ) : Raises Bytes := blit (leBytes32 value) 0 buf ofs 4

/-- The number whose bytes are given lowest first. -/
def leNumber : Bytes → ℤ
  | [] => 0
  | b :: bs => b.toNat + 256 * leNumber bs

def getUint8 (buf : Bytes) (ofs : ℤ) : Raises ℤ := do return leNumber (← sub buf ofs 1)

def getUint16 (buf : Bytes) (ofs : ℤ) : Raises ℤ := do return leNumber (← sub buf ofs 2)

/-- `Cstruct.LE.get_uint32`; an `int32`, negative when the top bit is set. -/
def getUint32 (buf : Bytes) (ofs : ℤ) : Raises ℤ := do return wrap32 (leNumber (← sub buf ofs 4))

def beBytes16 (value : ℤ) : Bytes := [byte (value / 256), byte value]

def BE.setUint16 (buf : Bytes) (ofs value : ℤ) : Raises Bytes := blit (beBytes16 value) 0 buf ofs 2

def BE.getUint16 (buf : Bytes) (ofs : ℤ) : Raises ℤ := do
  return leNumber (← sub buf ofs 2).reverse

/-- `Cstruct.sum_lengths`; a sum that wraps is below what was summed before. -/
def sumLengthsAux (caller : String) (acc : ℤ) : List Bytes → Raises ℤ
  | [] => .ok acc
  | h :: t =>
    let sum := wrap63 (h.length + acc)
    if sum < acc then .error (.invalidArgument caller) else sumLengthsAux caller sum t

def lenv (l : List Bytes) : Raises ℤ := sumLengthsAux "Cstruct.lenv" 0 l

theorem create_natCast (len : ℕ) : create len = .ok (List.replicate len 0) := by
  simp [create]

theorem sub_natCast {b : Bytes} {o l : ℕ} (h : o + l ≤ b.length) :
    sub b o l = .ok ((b.drop o).take l) := by
  rw [sub, if_neg (by omega)]
  rfl

theorem sub_ok {buf x : Bytes} {ofs len : ℤ} (h : sub buf ofs len = .ok x) :
    0 ≤ ofs ∧ ofs + len ≤ buf.length ∧ (x.length : ℤ) = len := by
  unfold sub at h
  split_ifs at h with hc
  obtain rfl := Except.ok.inj h
  simp only [not_or, not_lt] at hc
  refine ⟨hc.1, hc.2.2, ?_⟩
  rw [List.length_take, List.length_drop]
  omega

theorem sub_returns_iff {buf : Bytes} {ofs len : ℤ} :
    (∃ x, sub buf ofs len = .ok x) ↔ 0 ≤ ofs ∧ 0 ≤ len ∧ ofs + len ≤ buf.length := by
  unfold sub
  split_ifs with hc
  · refine iff_of_false ?_ (by omega)
    rintro ⟨x, hx⟩
    cases hx
  · exact iff_of_true ⟨_, rfl⟩ (by omega)

theorem sub_isInfix {buf x : Bytes} {ofs len : ℤ} (h : sub buf ofs len = .ok x) : x <:+: buf := by
  unfold sub at h
  split_ifs at h
  obtain rfl := Except.ok.inj h
  exact (List.take_prefix _ _).isInfix.trans (List.drop_suffix _ _).isInfix

theorem splice_length {dst src : Bytes} {ofs : ℕ} (h : ofs + src.length ≤ dst.length) :
    (splice dst ofs src).length = dst.length := by
  simp only [splice, List.length_append, List.length_take, List.length_drop]
  omega

theorem blit_ok_length {src dst x : Bytes} {srcoff dstoff len : ℤ}
    (h : blit src srcoff dst dstoff len = .ok x) : x.length = dst.length := by
  unfold blit at h
  split_ifs at h with hc
  obtain rfl := Except.ok.inj h
  simp only [not_or, not_lt] at hc
  refine splice_length ?_
  rw [List.length_take, List.length_drop]
  omega

theorem blit_all (src dst : Bytes) (h : dst.length = src.length) :
    blit src 0 dst 0 src.length = .ok src := by
  rw [blit, if_neg (by omega), splice]
  simp [h]

theorem sub_append {p q : Bytes} {len len' : ℤ} (h : len = p.length) (h' : len' = q.length) :
    sub (p ++ q) 0 len = .ok p ∧ sub (p ++ q) len len' = .ok q := by
  subst h h'
  rw [sub, sub, if_neg (by simp), if_neg (by simp)]
  simp

theorem sumLengthsAux_eq {caller : String} {acc : ℤ} {l : List Bytes} (hacc : 0 ≤ acc)
    (hacc' : acc < 2 ^ 62) (hl : ∀ b ∈ l, b.length < 2 ^ 62) :
    sumLengthsAux caller acc l = if acc + l.flatten.length < 2 ^ 62 then
      .ok (acc + l.flatten.length) else .error (.invalidArgument caller) := by
  induction l generalizing acc with
  | nil =>
    rw [sumLengthsAux, List.flatten_nil, List.length_nil, Nat.cast_zero, add_zero, if_pos hacc']
  | cons b l ih =>
    have hb := hl b List.mem_cons_self
    rw [sumLengthsAux, List.flatten_cons, List.length_append]
    by_cases hsum : b.length + acc < 2 ^ 62
    · have hwrap : wrap63 (b.length + acc) = b.length + acc := wrap63_eq (by omega) (by omega)
      rw [hwrap, if_neg (by omega), ih (by omega) hsum fun x hx => hl x (List.mem_cons_of_mem _ hx)]
      have hassoc : (b.length + acc + l.flatten.length : ℤ) =
          acc + (b.length + l.flatten.length : ℕ) := by
        push_cast
        ring
      rw [hassoc]
    · have hwrap : wrap63 (b.length + acc) < acc := by
        unfold wrap63
        omega
      rw [if_pos hwrap, if_neg (by omega)]

theorem lenv_eq {l : List Bytes} (hl : ∀ b ∈ l, b.length < 2 ^ 62) :
    lenv l = if l.flatten.length < 2 ^ 62 then .ok l.flatten.length
      else .error (.invalidArgument "Cstruct.lenv") := by
  rw [lenv, sumLengthsAux_eq le_rfl (by decide) hl, zero_add]
  norm_cast

def uint8At (b : Bytes) (i : ℕ) : ℕ := (b.getD i 0).toNat

def uint16At (b : Bytes) (i : ℕ) : ℕ := 256 * uint8At b i + uint8At b (i + 1)

theorem uint8At_lt (b : Bytes) (i : ℕ) : uint8At b i < 256 := (b.getD i 0).toNat_lt

theorem uint16At_lt (b : Bytes) (i : ℕ) : uint16At b i < 2 ^ 16 := by
  have hhigh := uint8At_lt b i
  have hlow := uint8At_lt b (i + 1)
  unfold uint16At
  omega

theorem drop_eq_getD_cons {b : Bytes} {i : ℕ} (h : i < b.length) :
    b.drop i = b.getD i 0 :: b.drop (i + 1) := by
  rw [List.drop_eq_getElem_cons h, List.getD_eq_getElem?_getD, List.getElem?_eq_getElem h,
    Option.getD_some]

theorem getUint8_eq {b : Bytes} {o : ℤ} {i : ℕ} (ho : o = i) (h : i < b.length) :
    getUint8 b o = .ok (uint8At b i) := by
  have hsub : sub b i 1 = .ok ((b.drop i).take 1) := sub_natCast h
  have hnum : leNumber [b.getD i 0] = uint8At b i := by simp [leNumber, uint8At]
  rw [ho, getUint8, hsub, Raises.ok_bind, drop_eq_getD_cons h, List.take_succ_cons, List.take_zero,
    hnum]
  rfl

theorem BE.getUint16_eq {b : Bytes} {o : ℤ} {i : ℕ} (ho : o = i) (h : i + 2 ≤ b.length) :
    BE.getUint16 b o = .ok (uint16At b i) := by
  have hsub : sub b i 2 = .ok ((b.drop i).take 2) := sub_natCast h
  have hnum : leNumber [b.getD i 0, b.getD (i + 1) 0].reverse = uint16At b i := by
    simp [leNumber, uint16At, uint8At, add_comm]
  rw [ho, BE.getUint16, hsub, Raises.ok_bind, drop_eq_getD_cons (by omega),
    drop_eq_getD_cons (by omega), List.take_succ_cons, List.take_succ_cons, List.take_zero, hnum]
  rfl

theorem uint8At_splice {dst src : Bytes} {ofs : ℕ} (h : ofs + src.length ≤ dst.length) (i : ℕ) :
    uint8At (splice dst ofs src) i =
      if ofs ≤ i ∧ i < ofs + src.length then uint8At src (i - ofs) else uint8At dst i := by
  have htake : (dst.take ofs).length = ofs := List.length_take_of_le (by omega)
  simp only [uint8At, splice, List.getD_eq_getElem?_getD, List.append_assoc]
  rcases Nat.lt_or_ge i ofs with hlt | hge
  · rw [if_neg (by omega), List.getElem?_append_left (by omega), List.getElem?_take_of_lt hlt]
  · rw [List.getElem?_append_right (by omega), htake]
    rcases Nat.lt_or_ge i (ofs + src.length) with hin | hout
    · rw [if_pos ⟨hge, hin⟩, List.getElem?_append_left (by omega)]
    · rw [if_neg (by omega), List.getElem?_append_right (by omega), List.getElem?_drop]
      congr 3
      omega

theorem uint16At_splice {b : Bytes} {x y : UInt8} {i j : ℕ} (h : 2 * j + 2 ≤ b.length) :
    uint16At (splice b (2 * j) [x, y]) (2 * i) =
      if i = j then 256 * x.toNat + y.toNat else uint16At b (2 * i) := by
  have hlen : 2 * j + [x, y].length ≤ b.length := h
  rw [uint16At, uint8At_splice hlen, uint8At_splice hlen]
  simp only [List.length_cons, List.length_nil]
  by_cases hij : i = j
  · subst hij
    rw [if_pos (by omega), if_pos (by omega), if_pos rfl, Nat.sub_self, Nat.add_sub_cancel_left]
    rfl
  · rw [if_neg (by omega), if_neg (by omega), if_neg hij, uint16At]

theorem blit_zeros {x p : Bytes} {o l : ℤ} {k : ℕ} (ho : o = p.length) (hl : l = x.length)
    (hk : x.length ≤ k) : blit x 0 (p ++ List.replicate k 0) o l =
      .ok (p ++ x ++ List.replicate (k - x.length) 0) := by
  subst ho hl
  rw [blit, if_neg (by simp; omega)]
  simp [splice]

theorem sub_middle {p x t : Bytes} {o l : ℤ} (ho : o = p.length)
    (hl : l = x.length) : sub (p ++ (x ++ t)) o l = .ok x := by
  subst ho hl
  rw [sub_natCast (by simp)]
  simp

theorem blit_middle {p x y t : Bytes} {o l : ℤ} (ho : o = p.length) (hl : l = x.length)
    (hy : y.length = x.length) : blit x 0 (p ++ (y ++ t)) o l = .ok (p ++ (x ++ t)) := by
  subst ho hl
  rw [blit, if_neg (by simp only [List.length_append]; omega)]
  simp [splice, ← hy]

section Zeros

variable {p : Bytes} {k : ℕ} {o n : ℤ}

theorem blit_zeros_add {x : Bytes} {l : ℤ} {m : ℕ} (ho : o = p.length) (hl : l = m)
    (hm : x.length = m) :
    blit x 0 (p ++ List.replicate (k + m) 0) o l = .ok (p ++ x ++ List.replicate k 0) := by
  subst hm
  have := blit_zeros (k := k + x.length) ho hl (by omega)
  rwa [Nat.add_sub_cancel] at this

theorem blit_zeros_all (ho : o = p.length) (x : Bytes) :
    blit x 0 (p ++ List.replicate x.length 0) o x.length = .ok (p ++ x) := by
  have := blit_zeros (k := x.length) ho rfl le_rfl
  simpa using this

theorem setUint8_zeros (ho : o = p.length) :
    setUint8 (p ++ List.replicate (k + 1) 0) o n = .ok (p ++ [byte n] ++ List.replicate k 0) :=
  blit_zeros_add ho rfl rfl

theorem BE.setUint16_zeros (ho : o = p.length) :
    BE.setUint16 (p ++ List.replicate (k + 2) 0) o n =
      .ok (p ++ beBytes16 n ++ List.replicate k 0) :=
  blit_zeros_add ho rfl rfl

end Zeros

theorem byte_toNat (n : ℤ) : ((byte n).toNat : ℤ) = n % 256 := by
  have h0 := Int.emod_nonneg n (show (256 : ℤ) ≠ 0 by decide)
  have h1 := Int.emod_lt_of_pos n (show (0 : ℤ) < 256 by decide)
  rw [byte, Nat.toUInt8, UInt8.toNat_ofNat_of_lt' (by change _ < 256; omega),
    Int.toNat_of_nonneg h0]

@[simp]
theorem leBytes32_length (n : ℤ) : (leBytes32 n).length = 4 := rfl

theorem leNumber_leBytes32 (n : ℤ) : leNumber (leBytes32 n) = n % 2 ^ 32 := by
  simp only [leBytes32, leNumber, byte_toNat]
  omega

theorem wrap32_leNumber {n : ℤ} (h : -2 ^ 31 ≤ n) (h' : n < 2 ^ 31) :
    wrap32 (leNumber (leBytes32 n)) = n := by
  rw [leNumber_leBytes32, wrap32]
  omega

theorem leBytes32_leNumber {b : Bytes} (h : b.length = 4) :
    leBytes32 (wrap32 (leNumber b)) = b := by
  obtain ⟨w, x, y, z, rfl⟩ := List.length_eq_four.mp h
  have hw := w.toNat_lt
  have hx := x.toNat_lt
  have hy := y.toNat_lt
  have hz := z.toNat_lt
  have hbyte : ∀ (a : UInt8) (m : ℤ), m % 256 = a.toNat → byte m = a := by
    intro a m hm
    apply UInt8.toNat_inj.mp
    exact_mod_cast (byte_toNat m).trans hm
  simp only [leBytes32, leNumber, wrap32]
  rw [hbyte w _ (by omega), hbyte x _ (by omega), hbyte y _ (by omega), hbyte z _ (by omega)]

theorem wrap32_bounds (n : ℤ) : -2 ^ 31 ≤ wrap32 n ∧ wrap32 n < 2 ^ 31 := by
  unfold wrap32; omega

end OCamlStudy.OCaml.Cstruct
