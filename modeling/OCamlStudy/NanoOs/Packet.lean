import OCamlStudy.OCaml.Cstruct

/-! # Packets

The wire format of `nano_os`: ten bytes of header and the payload, guarded by a
length and a checksum of 16 bits. What `encode` writes, `decode` reads back,
unless the payload is too long for its length field.
-/

namespace OCamlStudy.NanoOs

open OCaml

namespace Packet

inductive Kind where
  | data
  | ack
  deriving DecidableEq, Repr

inductive DecodeError where
  | truncated (len : ℤ)
  | badVersion (v : ℤ)
  | badKind (k : ℤ)
  | lengthMismatch (declared actual : ℤ)
  | checksumMismatch (declared computed : ℤ)
  deriving DecidableEq, Repr

structure T where
  version : ℤ
  kind : Kind
  seq : ℤ
  ack : ℤ
  srcPort : ℤ
  payload : Bytes
  deriving DecidableEq, Repr

def version : ℤ := 1

def headerLen : ℕ := 10

def intOfKind : Kind → ℤ
  | .data => 0
  | .ack => 1

def kindOfInt (k : ℤ) : Except DecodeError Kind :=
  if k = 0 then .ok .data else if k = 1 then .ok .ack else .error (.badKind k)

/-- The sum of the bytes modulo `0x10000`. -/
def checksumBytes (bytes : Bytes) : ℤ := bytes.foldl (fun sum b => (sum + b.toNat) % 0x10000) 0

def checksumFromParts (version kind seq ack srcPort : ℤ) (payload : Bytes) : Raises ℤ := do
  let payloadLen := payload.length
  let buf ← Cstruct.create (headerLen - 2 + payloadLen)
  let buf ← Cstruct.setUint8 buf 0 version
  let buf ← Cstruct.setUint8 buf 1 kind
  let buf ← Cstruct.setUint8 buf 2 seq
  let buf ← Cstruct.setUint8 buf 3 ack
  let buf ← Cstruct.setUint16 buf 4 srcPort
  let buf ← Cstruct.setUint16 buf 6 payloadLen
  let buf ← Cstruct.blit payload 0 buf 8 payloadLen
  return checksumBytes buf

def encode (kind : Kind) (seq ack srcPort : ℤ) (payload : Bytes) : Raises Bytes := do
  let payloadLen := payload.length
  let buf ← Cstruct.create (headerLen + payloadLen)
  let kindInt := intOfKind kind
  let checksum ← checksumFromParts version kindInt seq ack srcPort payload
  let buf ← Cstruct.setUint8 buf 0 version
  let buf ← Cstruct.setUint8 buf 1 kindInt
  let buf ← Cstruct.setUint8 buf 2 seq
  let buf ← Cstruct.setUint8 buf 3 ack
  let buf ← Cstruct.setUint16 buf 4 srcPort
  let buf ← Cstruct.setUint16 buf 6 payloadLen
  let buf ← Cstruct.setUint16 buf 8 checksum
  Cstruct.blit payload 0 buf headerLen payloadLen

def encodeData (seq srcPort : ℤ) (payload : Bytes) : Raises Bytes :=
  encode .data seq 0 srcPort payload

def encodeAck (ack srcPort : ℤ) : Raises Bytes := encode .ack 0 ack srcPort []

def decode (packet : Bytes) : Raises (Except DecodeError T) := do
  let len : ℤ := packet.length
  if len < headerLen then return .error (.truncated len)
  else
    let packetVersion ← Cstruct.getUint8 packet 0
    if packetVersion ≠ version then return .error (.badVersion packetVersion)
    else
      let kindInt ← Cstruct.getUint8 packet 1
      match kindOfInt kindInt with
      | .error e => return .error e
      | .ok kind =>
        let seq ← Cstruct.getUint8 packet 2
        let ack ← Cstruct.getUint8 packet 3
        let srcPort ← Cstruct.getUint16 packet 4
        let declaredLen ← Cstruct.getUint16 packet 6
        let declaredChecksum ← Cstruct.getUint16 packet 8
        let actualPayloadLen := len - headerLen
        if declaredLen ≠ actualPayloadLen then
          return .error (.lengthMismatch declaredLen actualPayloadLen)
        else
          let payload ← Cstruct.sub packet headerLen declaredLen
          let computedChecksum ←
            checksumFromParts packetVersion kindInt seq ack srcPort payload
          if computedChecksum ≠ declaredChecksum then
            return .error (.checksumMismatch declaredChecksum computedChecksum)
          else return .ok { version := packetVersion, kind, seq, ack, srcPort, payload }

def word16 (n : ℤ) : Bytes := [Cstruct.byte n, Cstruct.byte (n / 256)]

/-- The part of the header that the checksum covers. -/
def fields (version kind seq ack srcPort : ℤ) (payload : Bytes) : Bytes :=
  [Cstruct.byte version, Cstruct.byte kind, Cstruct.byte seq, Cstruct.byte ack] ++
    word16 srcPort ++ word16 payload.length

def wire (kind : Kind) (seq ack srcPort : ℤ) (payload : Bytes) : Bytes :=
  fields version (intOfKind kind) seq ack srcPort payload ++
    word16 (checksumBytes (fields version (intOfKind kind) seq ack srcPort payload ++ payload)) ++
    payload

section Zeros

variable {p : Bytes} {k : ℕ} {o n : ℤ}

theorem setUint16_zeros (ho : o = p.length) :
    Cstruct.setUint16 (p ++ List.replicate (k + 2) 0) o n =
      .ok (p ++ word16 n ++ List.replicate k 0) := by
  have := Cstruct.blit_zeros (x := word16 n) (k := k + 2) ho rfl (by simp [word16])
  simpa [Cstruct.setUint16, word16] using this

end Zeros

theorem put_fields {β : Type} (k : ℕ) (version kind seq ack srcPort : ℤ) (payload : Bytes)
    (f : Bytes → Raises β) :
    (do
      let buf ← Cstruct.setUint8 (List.replicate (k + 8) 0) 0 version
      let buf ← Cstruct.setUint8 buf 1 kind
      let buf ← Cstruct.setUint8 buf 2 seq
      let buf ← Cstruct.setUint8 buf 3 ack
      let buf ← Cstruct.setUint16 buf 4 srcPort
      let buf ← Cstruct.setUint16 buf 6 payload.length
      f buf) = f (fields version kind seq ack srcPort payload ++ List.replicate k 0) := by
  have hversion : Cstruct.setUint8 (List.replicate (k + 8) 0) 0 version =
      .ok ([Cstruct.byte version] ++ List.replicate (k + 7) 0) :=
    Cstruct.setUint8_zeros (p := []) rfl
  rw [hversion, Raises.ok_bind, Cstruct.setUint8_zeros (k := k + 6), Raises.ok_bind,
    Cstruct.setUint8_zeros (k := k + 5), Raises.ok_bind,
    Cstruct.setUint8_zeros (k := k + 4), Raises.ok_bind,
    setUint16_zeros (k := k + 2), Raises.ok_bind, setUint16_zeros (k := k), Raises.ok_bind]
  all_goals rfl

theorem checksumFromParts_eq (version kind seq ack srcPort : ℤ) (payload : Bytes) :
    checksumFromParts version kind seq ack srcPort payload =
      .ok (checksumBytes (fields version kind seq ack srcPort payload ++ payload)) := by
  have hlen : ((headerLen : ℤ) - 2 + payload.length) = (payload.length + 8 : ℕ) := by
    simp [headerLen]; ring
  unfold checksumFromParts
  dsimp only
  rw [hlen, Cstruct.create_natCast, Raises.ok_bind, put_fields, Cstruct.blit_zeros_all,
    Raises.ok_bind]
  all_goals rfl

theorem encode_eq (kind : Kind) (seq ack srcPort : ℤ) (payload : Bytes) :
    encode kind seq ack srcPort payload = .ok (wire kind seq ack srcPort payload) := by
  have hlen : ((headerLen : ℤ) + payload.length) = (payload.length + 2 + 8 : ℕ) := by
    simp [headerLen]; ring
  unfold encode
  dsimp only
  rw [hlen, Cstruct.create_natCast, Raises.ok_bind, checksumFromParts_eq, Raises.ok_bind,
    put_fields, setUint16_zeros, Raises.ok_bind, Cstruct.blit_zeros_all]
  all_goals rfl

theorem getUint8_at {p t : Bytes} {n o : ℤ} (ho : o = p.length)
    (hn : 0 ≤ n ∧ n < 256) :
    Cstruct.getUint8 (p ++ ([Cstruct.byte n] ++ t)) o = .ok n := by
  have hsub := Cstruct.sub_middle (x := [Cstruct.byte n]) (t := t) (l := 1) ho rfl
  have hnum : Cstruct.leNumber [Cstruct.byte n] = n := by
    simp only [Cstruct.leNumber, Cstruct.byte_toNat]
    omega
  rw [Cstruct.getUint8, hsub, Raises.ok_bind, hnum]
  rfl

theorem getUint16_at {p t : Bytes} {n o : ℤ} (ho : o = p.length) :
    Cstruct.getUint16 (p ++ (word16 n ++ t)) o = .ok (n % 0x10000) := by
  have hsub := Cstruct.sub_middle (x := word16 n) (t := t) (l := 2) ho rfl
  have hnum : Cstruct.leNumber (word16 n) = n % 0x10000 := by
    simp only [word16, Cstruct.leNumber, Cstruct.byte_toNat]
    omega
  rw [Cstruct.getUint16, hsub, Raises.ok_bind, hnum]
  rfl

theorem checksumBytes_bounds (bytes : Bytes) :
    0 ≤ checksumBytes bytes ∧ checksumBytes bytes < 0x10000 := by
  induction bytes using List.reverseRecOn with
  | nil => simp [checksumBytes]
  | append_singleton bytes b _ =>
    simp only [checksumBytes, List.foldl_append, List.foldl_cons, List.foldl_nil]
    omega

@[simp]
theorem kindOfInt_intOfKind (kind : Kind) : kindOfInt (intOfKind kind) = .ok kind := by
  cases kind <;> rfl

theorem intOfKind_bounds (kind : Kind) : 0 ≤ intOfKind kind ∧ intOfKind kind < 256 := by
  cases kind <;> decide

@[simp]
theorem word16_emod (n : ℤ) : word16 (n % 0x10000) = word16 n := by
  have hlow : n % 0x10000 % 256 = n % 256 := by omega
  have hhigh : n % 0x10000 / 256 % 256 = n / 256 % 256 := by omega
  simp only [word16, Cstruct.byte, hlow, hhigh]

def image (version kind seq ack srcPort declaredLen declaredChecksum : ℤ) (payload : Bytes) :
    Bytes :=
  [Cstruct.byte version, Cstruct.byte kind, Cstruct.byte seq, Cstruct.byte ack] ++
    word16 srcPort ++ word16 declaredLen ++ word16 declaredChecksum ++ payload

theorem wire_eq_image (kind : Kind) (seq ack srcPort : ℤ) (payload : Bytes) :
    wire kind seq ack srcPort payload = image version (intOfKind kind) seq ack srcPort
      payload.length (checksumBytes (fields version (intOfKind kind) seq ack srcPort payload ++
        payload)) payload := rfl

theorem read_image {v kind seq ack : ℤ} (srcPort declaredLen declaredChecksum : ℤ)
    (payload : Bytes) (hv : 0 ≤ v ∧ v < 256) (hk : 0 ≤ kind ∧ kind < 256)
    (hs : 0 ≤ seq ∧ seq < 256) (ha : 0 ≤ ack ∧ ack < 256) {b : Bytes}
    (hb : b = image v kind seq ack srcPort declaredLen declaredChecksum payload) :
    Cstruct.getUint8 b 0 = .ok v ∧ Cstruct.getUint8 b 1 = .ok kind ∧
      Cstruct.getUint8 b 2 = .ok seq ∧ Cstruct.getUint8 b 3 = .ok ack ∧
      Cstruct.getUint16 b 4 = .ok (srcPort % 0x10000) ∧
      Cstruct.getUint16 b 6 = .ok (declaredLen % 0x10000) ∧
      Cstruct.getUint16 b 8 = .ok (declaredChecksum % 0x10000) ∧
      Cstruct.sub b headerLen payload.length = .ok payload := by
  subst hb
  have hpayload := Cstruct.sub_middle (p := [Cstruct.byte v, Cstruct.byte kind, Cstruct.byte seq,
    Cstruct.byte ack] ++ word16 srcPort ++ word16 declaredLen ++ word16 declaredChecksum)
    (x := payload) (t := []) (o := headerLen) rfl rfl
  rw [List.append_nil] at hpayload
  exact ⟨getUint8_at (p := []) rfl hv, getUint8_at (p := [Cstruct.byte v]) rfl hk,
    getUint8_at (p := [Cstruct.byte v, Cstruct.byte kind]) rfl hs,
    getUint8_at (p := [Cstruct.byte v, Cstruct.byte kind, Cstruct.byte seq]) rfl ha,
    getUint16_at (p := [Cstruct.byte v, Cstruct.byte kind, Cstruct.byte seq, Cstruct.byte ack]) rfl,
    getUint16_at (p := [Cstruct.byte v, Cstruct.byte kind, Cstruct.byte seq, Cstruct.byte ack] ++
      word16 srcPort) rfl,
    getUint16_at (p := [Cstruct.byte v, Cstruct.byte kind, Cstruct.byte seq, Cstruct.byte ack] ++
      word16 srcPort ++ word16 declaredLen) rfl, hpayload⟩

theorem decode_image {v kind seq ack : ℤ} (srcPort declaredLen declaredChecksum : ℤ)
    (payload : Bytes) (hv : 0 ≤ v ∧ v < 256) (hk : 0 ≤ kind ∧ kind < 256)
    (hs : 0 ≤ seq ∧ seq < 256) (ha : 0 ≤ ack ∧ ack < 256) :
    decode (image v kind seq ack srcPort declaredLen declaredChecksum payload) = .ok (
      if v ≠ version then .error (.badVersion v)
      else match kindOfInt kind with
        | .error e => .error e
        | .ok k =>
          if declaredLen % 0x10000 ≠ payload.length then
            .error (.lengthMismatch (declaredLen % 0x10000) payload.length)
          else if checksumBytes (fields v kind seq ack srcPort payload ++ payload) ≠
              declaredChecksum % 0x10000 then
            .error (.checksumMismatch (declaredChecksum % 0x10000)
              (checksumBytes (fields v kind seq ack srcPort payload ++ payload)))
          else .ok ⟨v, k, seq, ack, srcPort % 0x10000, payload⟩) := by
  have hlen : ((image v kind seq ack srcPort declaredLen declaredChecksum payload).length : ℤ) =
      payload.length + 10 := by
    simp [image, word16]
    ring
  obtain ⟨hversion, hkind, hseq, hack, hport, hdeclared, hsum, hpayload⟩ :=
    read_image srcPort declaredLen declaredChecksum payload hv hk hs ha rfl
  have hheader : (headerLen : ℤ) = 10 := rfl
  have hsame : checksumBytes (fields v kind seq ack (srcPort % 0x10000) payload ++ payload) =
      checksumBytes (fields v kind seq ack srcPort payload ++ payload) := by
    simp only [fields, word16_emod]
  unfold decode
  dsimp only
  rw [if_neg (by omega), hversion, Raises.ok_bind, hlen, hheader, add_sub_cancel_right]
  by_cases hne : v = version
  · rw [if_neg (not_not_intro hne), if_neg (not_not_intro hne), hkind, Raises.ok_bind]
    cases kindOfInt kind with
    | error e => rfl
    | ok k =>
      dsimp only
      rw [hseq, Raises.ok_bind, hack, Raises.ok_bind, hport, Raises.ok_bind, hdeclared,
        Raises.ok_bind, hsum, Raises.ok_bind]
      by_cases hl : declaredLen % 0x10000 = payload.length
      · rw [if_neg (not_not_intro hl), if_neg (not_not_intro hl), hl, ← hheader, hpayload,
          Raises.ok_bind, checksumFromParts_eq, Raises.ok_bind, hsame]
        split_ifs <;> rfl
      · rw [if_pos hl, if_pos hl]
        rfl
  · rw [if_pos hne, if_pos hne]
    rfl

/-- A packet is read back as it was written, unless its length does not fit its length field. -/
theorem decode_wire (kind : Kind) {seq ack : ℤ} (srcPort : ℤ) (payload : Bytes)
    (hs : 0 ≤ seq ∧ seq < 256) (ha : 0 ≤ ack ∧ ack < 256) :
    decode (wire kind seq ack srcPort payload) = .ok (if payload.length < 0x10000 then
      .ok { version, kind, seq, ack, srcPort := srcPort % 0x10000, payload }
      else .error (.lengthMismatch (payload.length % 0x10000) payload.length)) := by
  have hb := checksumBytes_bounds
    (fields version (intOfKind kind) seq ack srcPort payload ++ payload)
  rw [wire_eq_image, decode_image _ _ _ _ (by decide) (intOfKind_bounds kind) hs ha,
    if_neg (not_not_intro rfl), kindOfInt_intOfKind]
  dsimp only
  rw [Int.emod_eq_of_lt hb.1 hb.2]
  by_cases hlt : payload.length < 0x10000
  · rw [if_pos hlt, if_neg (by omega), if_neg (not_not_intro rfl)]
  · rw [if_neg hlt, if_pos (by omega)]

end Packet

end OCamlStudy.NanoOs
