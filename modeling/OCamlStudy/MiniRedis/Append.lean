import OCamlStudy.MiniRedis.Resp

/-! # Decoding a longer buffer

A value, a fatal protocol error and an exception do not change when bytes are
appended to the buffer; only the errors on which the server reads on may. The
decoder consumes at least one byte for a value, so its fuel is never used up and
the array loop satisfies the equations of the source.
-/

namespace OCamlStudy.MiniRedis

open OCaml

/-- The errors on which the connection loop reads more bytes. -/
def Waits (msg : Bytes) : Prop :=
  msg = bytes "Empty buffer" ∨ msg.take 10 = bytes "Incomplete"

instance (msg : Bytes) : Decidable (Waits msg) := inferInstanceAs (Decidable (_ ∨ _))

/-- The outcome on a buffer survives appending `q`, unless it asks for more. -/
def Extends (q : Bytes) : Decode → Decode → Prop
  | .ok (.ok (v, rest)), d => d = .ok (.ok (v, rest ++ q))
  | .ok (.error msg), d => Waits msg ∨ d = .ok (.error msg)
  | .error exn, d => d = .error exn

theorem Extends.bind {q : Bytes} {α : Type} {x y : Raises α} {k k' : α → Decode}
    (hxy : y = x) (h : ∀ a, x = .ok a → Extends q (k a) (k' a)) :
    Extends q (x >>= k) (y >>= k') := by
  subst hxy
  cases y with
  | error exn => rfl
  | ok a => exact h a rfl

theorem stringSub_append {s t : Bytes} {ofs len : ℤ} (h : ofs + len ≤ s.length) :
    stringSub (s ++ t) ofs len = stringSub s ofs len := by
  unfold stringSub
  by_cases hn : ofs < 0 ∨ len < 0
  · rw [if_pos (by omega), if_pos (by omega)]
  · have hl : ((s ++ t).length : ℤ) = s.length + t.length := by simp
    rw [if_neg (by omega), if_neg (by omega)]
    have ho : ofs.toNat ≤ s.length := by omega
    rw [List.drop_append_of_le_length ho, List.take_append_of_le_length]
    rw [List.length_drop]; omega

theorem stringSub_tail {s : Bytes} {ofs len : ℤ} (h : len = s.length - ofs) (h0 : 0 ≤ ofs)
    (hle : ofs ≤ s.length) : stringSub s ofs len = .ok (s.drop ofs.toNat) := by
  subst h
  rw [stringSub, if_neg (by omega), List.take_of_length_le]
  rw [List.length_drop]; omega

theorem findCrlf_some {b : Bytes} {idx : ℕ} (h : findCrlf b = some idx) :
    stringIndexOpt b 13 = some idx ∧ idx + 1 < b.length ∧ b[idx + 1]? = some 10 := by
  unfold findCrlf at h
  split at h
  · rename_i i hi
    split at h
    · rename_i hc
      obtain rfl := Option.some.inj h
      exact ⟨hi, hc⟩
    · cases h
  · cases h

theorem findCrlf_lt {b : Bytes} {idx : ℕ} (h : findCrlf b = some idx) : idx + 1 < b.length :=
  (findCrlf_some h).2.1

theorem findCrlf_append {b q : Bytes} {idx : ℕ} (h : findCrlf b = some idx) :
    findCrlf (b ++ q) = some idx := by
  obtain ⟨hi, hl, hc⟩ := findCrlf_some h
  have hc' : (b ++ q)[idx + 1]? = some 10 := by rw [List.getElem?_append_left hl, hc]
  have hl' : idx + 1 < (b ++ q).length := by rw [List.length_append]; omega
  simp only [findCrlf, stringIndexOpt_append hi, hc', hl', and_self, if_true]

section Stable

variable {b q : Bytes}

theorem extends_tail {ofs : ℤ} (h : ofs ≤ b.length) (v : Resp) :
    Extends q (do let rest ← stringSub b ofs (b.length - ofs); return .ok (v, rest))
      (do let rest ← stringSub (b ++ q) ofs ((b ++ q).length - ofs); return .ok (v, rest)) := by
  have hl : ((b ++ q).length : ℤ) = b.length + q.length := by simp
  by_cases h0 : 0 ≤ ofs
  · rw [stringSub_tail rfl h0 h, stringSub_tail rfl h0 (by omega),
      List.drop_append_of_le_length (by omega)]
    rfl
  · rw [stringSub, stringSub, if_pos (by omega), if_pos (by omega)]
    rfl

theorem extends_rest {idx : ℕ} (h : findCrlf b = some idx) (v : Resp) :
    Extends q
      (do let rest ← stringSub b (idx + 2) (b.length - idx - 2); return .ok (v, rest))
      (do let rest ← stringSub (b ++ q) (idx + 2) ((b ++ q).length - idx - 2)
          return .ok (v, rest)) := by
  have := findCrlf_lt h
  rw [sub_sub, sub_sub]
  exact extends_tail (by omega) v

theorem stringSub_line {idx : ℕ} (h : findCrlf b = some idx) :
    stringSub (b ++ q) 1 (idx - 1) = stringSub b 1 (idx - 1) := by
  have := findCrlf_lt h
  exact stringSub_append (by omega)

theorem decodeSimpleString_append (constructor : Bytes → Resp) :
    Extends q (decodeSimpleString b constructor) (decodeSimpleString (b ++ q) constructor) := by
  unfold decodeSimpleString
  cases h : findCrlf b with
  | none => exact Or.inl (Or.inr rfl)
  | some idx =>
    rw [findCrlf_append h]
    exact .bind (stringSub_line h) fun content _ => extends_rest h _

theorem decodeInt_append : Extends q (decodeInt b) (decodeInt (b ++ q)) := by
  unfold decodeInt
  cases h : findCrlf b with
  | none => exact Or.inl (Or.inr rfl)
  | some idx =>
    rw [findCrlf_append h]
    refine .bind (stringSub_line h) fun numStr _ => ?_
    cases tryParseInt numStr with
    | error e => exact Or.inr rfl
    | ok num => exact extends_rest h _

theorem tryParseInt_bounds {s : Bytes} {n : ℤ} (h : tryParseInt s = .ok n) :
    -2 ^ 62 ≤ n ∧ n < 2 ^ 62 := by
  unfold tryParseInt at h
  split at h
  · rename_i hs
    obtain rfl := Except.ok.inj h
    exact intOfString_bounds hs
  · cases h

theorem stringSub_neg {s : Bytes} {ofs len : ℤ} (h : ofs < 0) :
    stringSub s ofs len = .error (.invalidArgument "String.sub / Bytes.sub") := by
  rw [stringSub, if_pos (Or.inl h)]

theorem payload_neg {s : Bytes} {ofs len total len' : ℤ} (h : total < 0)
    (f : Bytes → Bytes → Resp × Bytes) :
    (do let content ← stringSub s ofs len
        let rest ← stringSub s total len'
        return .ok (f content rest) : Decode) =
      .error (.invalidArgument "String.sub / Bytes.sub") := by
  rw [stringSub_neg h, stringSub]
  split <;> rfl

/--
The payload of a bulk string. When the length overflows the sum, the end of the
payload is negative and no buffer makes the calls of `String.sub` succeed.
-/
theorem decodeBulkString_append (hs : IsString b) :
    Extends q (decodeBulkString b) (decodeBulkString (b ++ q)) := by
  unfold decodeBulkString
  cases h : findCrlf b with
  | none => exact Or.inl (Or.inr rfl)
  | some idx =>
    rw [findCrlf_append h]
    refine .bind (stringSub_line h) fun lenStr _ => ?_
    cases hn : tryParseInt lenStr with
    | error e => exact Or.inr rfl
    | ok len =>
      dsimp only
      split
      · exact extends_rest h _
      · split
        · exact Or.inl (Or.inr rfl)
        · rename_i hlen
          have hle := findCrlf_lt h
          have hbounds := tryParseInt_bounds hn
          have hb : b.length ≤ 2 ^ 57 := by unfold IsString maxStringLength at hs; omega
          have hl : ((b ++ q).length : ℤ) = b.length + q.length := by simp
          rw [if_neg (by omega)]
          by_cases hfit : (idx : ℤ) + 2 + len ≤ b.length
          · exact .bind (stringSub_append hfit) fun content _ => extends_tail (by omega) _
          · have hneg : wrap63 (idx + 2 + len + 2) < 0 := by
              unfold wrap63 at hlen ⊢; omega
            rw [payload_neg hneg, payload_neg hneg]
            rfl

end Stable

/-- A value is returned with a proper suffix of the buffer. -/
def Consumes (b : Bytes) (d : Decode) : Prop :=
  ∀ v rest, d = .ok (.ok (v, rest)) → rest <:+ b ∧ rest.length < b.length

section Progress

variable {b : Bytes}

theorem Consumes.bind {α : Type} {x : Raises α} {k : α → Decode}
    (h : ∀ a, x = .ok a → Consumes b (k a)) : Consumes b (x >>= k) := by
  cases x with
  | error exn => intro v rest he; cases he
  | ok a => exact h a rfl

theorem consumes_error (msg : Bytes) : Consumes b (.ok (.error msg)) := by
  intro v rest he; cases he

theorem consumes_tail {ofs : ℤ} (h0 : 0 < ofs) (h : ofs ≤ b.length) (v : Resp) :
    Consumes b (do let rest ← stringSub b ofs (b.length - ofs); return .ok (v, rest)) := by
  rw [stringSub_tail rfl h0.le h]
  rintro v rest ⟨rfl, rfl⟩
  refine ⟨List.drop_suffix _ _, ?_⟩
  rw [List.length_drop]; omega

theorem consumes_rest {idx : ℕ} (h : findCrlf b = some idx) (v : Resp) :
    Consumes b (do
      let rest ← stringSub b (idx + 2) (b.length - idx - 2)
      return .ok (v, rest)) := by
  have := findCrlf_lt h
  rw [sub_sub]
  exact consumes_tail (by omega) (by omega) v

theorem decodeSimpleString_consumes (constructor : Bytes → Resp) :
    Consumes b (decodeSimpleString b constructor) := by
  unfold decodeSimpleString
  split
  · rename_i h
    exact .bind fun _ _ => consumes_rest h _
  · exact consumes_error _

theorem decodeInt_consumes : Consumes b (decodeInt b) := by
  unfold decodeInt
  split
  · rename_i h
    refine .bind fun numStr _ => ?_
    split
    · exact consumes_rest h _
    · exact consumes_error _
  · exact consumes_error _

theorem decodeBulkString_consumes (hs : IsString b) : Consumes b (decodeBulkString b) := by
  unfold decodeBulkString
  split
  · exact consumes_error _
  · rename_i idx h
    refine .bind fun lenStr _ => ?_
    split
    · exact consumes_error _
    · rename_i len hn
      split
      · exact consumes_rest h _
      · dsimp only
        split
        · exact consumes_error _
        · rename_i hlen
          have hle := findCrlf_lt h
          have hbounds := tryParseInt_bounds hn
          have hb : b.length ≤ 2 ^ 57 := by unfold IsString maxStringLength at hs; omega
          by_cases hneg : wrap63 (idx + 2 + len + 2) < 0
          · rw [payload_neg hneg]
            intro v rest he; cases he
          · refine .bind fun content hc => consumes_tail ?_ (by omega) _
            have hlen0 : 0 ≤ len := by
              by_contra hl
              rw [stringSub, if_pos (by omega)] at hc
              cases hc
            unfold wrap63 at hneg hlen ⊢; omega

theorem decodeArray_consumes {elements : ℤ → Bytes → Decode}
    (he : ∀ c s v rest, s.length < b.length → elements c s = .ok (.ok (v, rest)) → rest <:+ s) :
    Consumes b (decodeArray elements b) := by
  unfold decodeArray
  split
  · exact consumes_error _
  · rename_i idx h
    refine .bind fun lenStr _ => ?_
    split
    · exact consumes_error _
    · rename_i count _
      split
      · exact consumes_rest h _
      · have hlt := findCrlf_lt h
        rw [stringSub_tail (by omega) (by omega) (by omega)]
        intro v rest hd
        have hl : (b.drop ((idx : ℤ) + 2).toNat).length < b.length := by
          rw [List.length_drop]; omega
        have hr := he _ _ _ _ hl hd
        exact ⟨hr.trans (List.drop_suffix _ _), lt_of_le_of_lt hr.length_le hl⟩

theorem decodeWith_consumes (hs : IsString b) {elements : ℤ → Bytes → Decode}
    (he : ∀ c s v rest, s.length < b.length → elements c s = .ok (.ok (v, rest)) → rest <:+ s) :
    Consumes b (decodeWith elements b) := by
  unfold decodeWith
  split
  · exact consumes_error _
  · split_ifs
    · exact decodeSimpleString_consumes _
    · exact decodeSimpleString_consumes _
    · exact decodeInt_consumes
    · exact decodeBulkString_consumes hs
    · exact decodeArray_consumes he
    · exact consumes_error _

theorem decodeElementsFuel_suffix (hs : IsString b) {fuel : ℕ} {count : ℤ} {acc : List Resp}
    {v : Resp} {rest : Bytes} (h : decodeElementsFuel fuel count b acc = .ok (.ok (v, rest))) :
    rest <:+ b := by
  induction fuel generalizing count b acc v rest with
  | zero => cases h
  | succ fuel ih =>
    rw [decodeElementsFuel] at h
    split at h
    · obtain ⟨rfl, rfl⟩ := h
      exact List.suffix_refl _
    · cases hd : decodeWith (fun count buffer => decodeElementsFuel fuel count buffer []) b with
      | error exn => rw [hd] at h; cases h
      | ok r =>
        rw [hd] at h
        cases r with
        | error e => cases h
        | ok p =>
          obtain ⟨hr, _⟩ := decodeWith_consumes hs (fun _ s _ _ hl he =>
            ih (hs.trans' hl.le) he) p.1 p.2 hd
          exact (ih (hs.trans' hr.length_le) h).trans hr

end Progress

theorem decodeWith_congr {b : Bytes} {f g : ℤ → Bytes → Decode}
    (h : ∀ c s, s.length < b.length → f c s = g c s) : decodeWith f b = decodeWith g b := by
  unfold decodeWith decodeArray
  cases b with
  | nil => rfl
  | cons x b =>
    dsimp only
    cases hi : findCrlf (x :: b) with
    | none => rfl
    | some idx =>
      have hlt := findCrlf_lt hi
      have ht : stringSub (x :: b) (idx + 2) ((x :: b).length - idx - 2) =
          .ok ((x :: b).drop ((idx : ℤ) + 2).toNat) :=
        stringSub_tail (by omega) (by omega) (by omega)
      have hl : ((x :: b).drop ((idx : ℤ) + 2).toNat).length < (x :: b).length := by
        rw [List.length_drop]; omega
      have hfg (c : ℤ) := h c _ hl
      simp only [ht]
      split_ifs <;> first | rfl | skip
      refine congrArg (stringSub _ _ _ >>= ·) (funext fun lenStr => ?_)
      split
      · rfl
      · split
        · rfl
        · exact hfg _

theorem decodeElementsFuel_eq {n m : ℕ} {b : Bytes} (hs : IsString b) (hn : b.length < n)
    (hm : b.length < m) (count : ℤ) (acc : List Resp) :
    decodeElementsFuel n count b acc = decodeElementsFuel m count b acc := by
  induction n generalizing m b count acc with
  | zero => omega
  | succ n ih =>
    cases m with
    | zero => omega
    | succ m =>
      rw [decodeElementsFuel, decodeElementsFuel]
      split
      · rfl
      · have hd : decodeWith (fun count buffer => decodeElementsFuel n count buffer []) b =
            decodeWith (fun count buffer => decodeElementsFuel m count buffer []) b :=
          decodeWith_congr fun c s hl => ih (hs.trans' hl.le) (by omega) (by omega) c []
        rw [← hd]
        cases hr : decodeWith (fun count buffer => decodeElementsFuel n count buffer []) b with
        | error exn => rfl
        | ok r =>
          cases r with
          | error e => rfl
          | ok p =>
            obtain ⟨hsuf, hl⟩ := decodeWith_consumes hs (fun _ s _ _ hl he =>
              decodeElementsFuel_suffix (hs.trans' hl.le) he) p.1 p.2 hr
            exact ih (hs.trans' hl.le) (by omega) (by omega) _ _

theorem decodeArrayElements_eq {b : Bytes} (hs : IsString b) (count : ℤ) (acc : List Resp) :
    decodeArrayElements count b acc =
      if count = 0 then .ok (.ok (.array (some acc.reverse), b))
      else do
        match ← decode b with
        | .ok (element, rest) => decodeArrayElements (wrap63 (count - 1)) rest (element :: acc)
        | .error e => return .error e := by
  have hd : decodeWith (fun count buffer => decodeElementsFuel b.length count buffer []) b =
      decode b :=
    decodeWith_congr fun c s hl => decodeElementsFuel_eq (hs.trans' hl.le) hl (by omega) c []
  rw [decodeArrayElements, decodeElementsFuel, hd]
  split
  · rfl
  · cases hr : decode b with
    | error exn => rfl
    | ok r =>
      cases r with
      | error e => rfl
      | ok p =>
        obtain ⟨_, hl⟩ := decodeWith_consumes hs (fun _ s _ _ hl he =>
          decodeElementsFuel_suffix (hs.trans' hl.le) he) p.1 p.2 hr
        exact decodeElementsFuel_eq (hs.trans' hl.le) (by omega) (by omega) _ _

theorem decode_consumes {b : Bytes} (hs : IsString b) : Consumes b (decode b) :=
  decodeWith_consumes hs fun _ _ _ _ hl he => decodeElementsFuel_suffix (hs.trans' hl.le) he

theorem decodeArray_append {b q : Bytes} {elements : ℤ → Bytes → Decode}
    (he : ∀ c s, s.length < b.length → Extends q (elements c s) (elements c (s ++ q))) :
    Extends q (decodeArray elements b) (decodeArray elements (b ++ q)) := by
  unfold decodeArray
  cases h : findCrlf b with
  | none => exact Or.inl (Or.inr rfl)
  | some idx =>
    rw [findCrlf_append h]
    refine .bind (stringSub_line h) fun lenStr _ => ?_
    cases tryParseInt lenStr with
    | error e => exact Or.inr rfl
    | ok count =>
      dsimp only
      split
      · exact extends_rest h _
      · have hlt := findCrlf_lt h
        have hl : ((b ++ q).length : ℤ) = b.length + q.length := by simp
        have hdrop : (b.drop ((idx : ℤ) + 2).toNat).length < b.length := by
          rw [List.length_drop]; omega
        rw [stringSub_tail (by omega) (by omega) (by omega), stringSub_tail (by omega) (by omega)
          (by omega), List.drop_append_of_le_length (by omega)]
        exact he count _ hdrop

theorem decodeWith_append {b q : Bytes} (hs : IsString b) {elements : ℤ → Bytes → Decode}
    (he : ∀ c s, s.length < b.length → Extends q (elements c s) (elements c (s ++ q))) :
    Extends q (decodeWith elements b) (decodeWith elements (b ++ q)) := by
  cases b with
  | nil => exact Or.inl (Or.inl rfl)
  | cons c b =>
    simp only [decodeWith, List.cons_append]
    split_ifs
    · exact decodeSimpleString_append _
    · exact decodeSimpleString_append _
    · exact decodeInt_append
    · exact decodeBulkString_append hs
    · exact decodeArray_append he
    · exact Or.inr rfl

theorem decodeArrayElements_append {b q : Bytes} (hs : IsString (b ++ q)) (count : ℤ)
    (acc : List Resp) :
    Extends q (decodeArrayElements count b acc) (decodeArrayElements count (b ++ q) acc) := by
  induction hn : b.length using Nat.strong_induction_on generalizing b count acc with
  | _ n ih =>
    have hb : IsString b := hs.trans' (by simp)
    have hsub (s : Bytes) (hl : s.length ≤ b.length) : IsString (s ++ q) :=
      hs.trans' (by simp only [List.length_append]; omega)
    have hd : Extends q (decode b) (decode (b ++ q)) :=
      decodeWith_append hb fun c s hl => ih s.length (by omega) (hsub s hl.le) c [] rfl
    rw [decodeArrayElements_eq hb, decodeArrayElements_eq hs]
    split
    · rfl
    · cases hr : decode b with
      | error exn => rw [hr] at hd; rw [hd]; rfl
      | ok r =>
        rw [hr] at hd
        cases r with
        | error e =>
          rcases hd with hw | hd
          · exact Or.inl hw
          · rw [hd]; exact Or.inr rfl
        | ok p =>
          have hl := (decode_consumes hb p.1 p.2 hr).2
          rw [hd]
          exact ih p.2.length (by omega) (hsub p.2 hl.le) _ _ rfl

/-- A decoded value, a fatal error and an exception are stable under appending bytes. -/
theorem decode_append {b q : Bytes} (hs : IsString (b ++ q)) :
    Extends q (decode b) (decode (b ++ q)) :=
  decodeWith_append (hs.trans' (by simp)) fun _ _ hl =>
    decodeArrayElements_append (hs.trans' (by simp only [List.length_append]; omega)) _ _

/-- **Decoding is stable and progresses.** A value is read from the front of the buffer and leaves
less of it; it, a fatal error and an exception are the same whatever follows the buffer. -/
theorem decode_stable {p q : Bytes} (hs : IsString (p ++ q)) :
    (∀ v r, decode p = .ok (.ok (v, r)) →
      r <:+ p ∧ r ≠ p ∧ decode (p ++ q) = .ok (.ok (v, r ++ q))) ∧
    (∀ msg, decode p = .ok (.error msg) → ¬ Waits msg → decode (p ++ q) = .ok (.error msg)) ∧
    ∀ exn, decode p = .error exn → decode (p ++ q) = .error exn := by
  have happend : Extends q (decode p) (decode (p ++ q)) := decode_append hs
  refine ⟨?_, ?_, ?_⟩
  · intro v r hd
    obtain ⟨hsuffix, hlt⟩ := decode_consumes (hs.trans' (by simp)) v r hd
    rw [hd] at happend
    exact ⟨hsuffix, fun heq => absurd (heq ▸ hlt) (lt_irrefl _), happend⟩
  · intro msg hd hfatal
    rw [hd] at happend
    exact happend.resolve_left hfatal
  · intro exn hd
    rw [hd] at happend
    exact happend

def nestedReply : Resp :=
  .array (some [.array (some [.integer 5]), .bulkString (some (bytes "a"))])

/-- An array in an array, an unknown type inside an array, and a negative length. -/
theorem decode_stable_nested :
    (bytes "+O" <:+ bytes "*2\r\n*1\r\n:5\r\n$1\r\na\r\n+O" ∧
      bytes "+O" ≠ bytes "*2\r\n*1\r\n:5\r\n$1\r\na\r\n+O" ∧
      decode (bytes "*2\r\n*1\r\n:5\r\n$1\r\na\r\n+O" ++ bytes "K\r\n") =
        .ok (.ok (nestedReply, bytes "+O" ++ bytes "K\r\n"))) ∧
    decode (bytes "*1\r\n?" ++ bytes "K\r\n") = .ok (.error (bytes "Invalid RESP type: ?")) ∧
    decode (bytes "*1\r\n$-5\r\n" ++ bytes "K\r\n") =
      .error (.invalidArgument "String.sub / Bytes.sub") := by
  refine ⟨?_, ?_, ?_⟩
  · exact (decode_stable (by unfold IsString maxStringLength; decide)).1 nestedReply _ rfl
  · exact (decode_stable (by unfold IsString maxStringLength; decide)).2.1 _ rfl (by decide)
  · exact (decode_stable (by unfold IsString maxStringLength; decide)).2.2 _ rfl

end OCamlStudy.MiniRedis
