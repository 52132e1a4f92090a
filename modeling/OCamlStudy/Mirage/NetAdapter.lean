import OCamlStudy.OCaml.Cstruct

/-! # The network adapter of the Mirage build

The adapter puts Ethernet, IP and UDP headers in front of what it sends, and takes
them off what it receives. It learns the address of the host from the first frame
that it answers or hands on.
-/

namespace OCamlStudy.Mirage

open OCaml

structure Mac where
  octets : Bytes
  length_eq : octets.length = 6
  deriving DecidableEq

theorem Mac.exists_octets (mac : Mac) :
    ∃ (a b c d e g : UInt8) (h : [a, b, c, d, e, g].length = 6), mac = ⟨[a, b, c, d, e, g], h⟩ := by
  obtain ⟨octets, h⟩ := mac
  rcases octets with _ | ⟨a, _ | ⟨b, _ | ⟨c, _ | ⟨d, _ | ⟨e, _ | ⟨g, _ | ⟨_, _⟩⟩⟩⟩⟩⟩⟩
  all_goals try (simp only [List.length_cons, List.length_nil] at h; omega)
  exact ⟨a, b, c, d, e, g, h, rfl⟩

namespace Netif

inductive Error where
  | invalidLength
  | disconnected
  | invalidArgument
  | unspecifiedError
  deriving DecidableEq, Repr

def ppError : Error → String
  | .invalidLength => "invalid length (exceeds size)"
  | .disconnected => "network device is disconnected"
  | .invalidArgument => "Invalid argument"
  | .unspecifiedError => "Unspecified error"

/-- `Netif.write_pure` up to the system call `solo5_net_write`: the frame handed to it. -/
def writePure (size : ℤ) (fill : Bytes → Raises (Bytes × ℤ)) : Raises (Except Error Bytes) := do
  let buf ← Cstruct.create size
  let (buf, len) ← fill buf
  if len > size then return .error .invalidLength
  else return .ok (← Cstruct.sub buf 0 len)

theorem writePure_frame {frame : Bytes} {size : ℤ} (h : size = frame.length) :
    writePure size (fun b => do return (← Cstruct.blit frame 0 b 0 size, size)) =
      .ok (.ok frame) := by
  subst h
  have hfill : Cstruct.blit frame 0 (List.replicate frame.length 0) 0 frame.length = .ok frame :=
    Cstruct.blit_all frame _ List.length_replicate
  have hsub := Cstruct.sub_middle (p := []) (x := frame) (t := []) (o := 0) rfl rfl
  rw [List.nil_append, List.append_nil] at hsub
  unfold writePure
  dsimp only
  rw [Cstruct.create_natCast, Raises.ok_bind, hfill, Raises.ok_bind, pure_bind]
  dsimp only
  rw [if_neg (lt_irrefl _), hsub]
  rfl

end Netif

namespace NetAdapter

def myIp : Bytes := [10, 0, 0, 2]

def hostIp : Bytes := [10, 0, 0, 1]

def myMac : Bytes := [0xba, 0x2d, 0x86, 0x66, 0x65, 0x2e]

def broadcastMac : Mac := ⟨[0xff, 0xff, 0xff, 0xff, 0xff, 0xff], rfl⟩

/-- Utility to calculate IP checksum. On sums, which are not negative, `lsr` and `land` are
the quotient and the remainder. -/
def checksumIp (cs : Bytes) : Raises ℤ := do
  let sum ← (List.range (cs.length / 2)).foldlM
    (fun (sum : ℤ) (i : ℕ) => do return sum + (← Cstruct.BE.getUint16 cs (i * 2))) 0
  let sum := sum / 2 ^ 16 + sum % 2 ^ 16
  let sum := sum + sum / 2 ^ 16
  return (-sum - 1) % 2 ^ 16

/-- The frame that `write` builds: Eth (14) + IP (20) + UDP (8) + Payload. -/
def frame (hostMac : Mac) (payload : Bytes) : Raises Bytes := do
  let payloadLen : ℤ := payload.length
  let totalLen := 14 + 20 + 8 + payloadLen
  let buf ← Cstruct.create totalLen
  let buf ← Cstruct.blit hostMac.octets 0 buf 0 6
  let buf ← Cstruct.blit myMac 0 buf 6 6
  let buf ← Cstruct.BE.setUint16 buf 12 0x0800
  let buf ← Cstruct.setUint8 buf 14 0x45
  let buf ← Cstruct.setUint8 buf 15 0x00
  let buf ← Cstruct.BE.setUint16 buf 16 (20 + 8 + payloadLen)
  let buf ← Cstruct.BE.setUint16 buf 18 0x0000
  let buf ← Cstruct.BE.setUint16 buf 20 0x0000
  let buf ← Cstruct.setUint8 buf 22 64
  let buf ← Cstruct.setUint8 buf 23 17
  let buf ← Cstruct.BE.setUint16 buf 24 0x0000
  let buf ← Cstruct.blit myIp 0 buf 26 4
  let buf ← Cstruct.blit hostIp 0 buf 30 4
  let ipHeader ← Cstruct.sub buf 14 20
  let buf ← Cstruct.BE.setUint16 buf 24 (← checksumIp ipHeader)
  let buf ← Cstruct.BE.setUint16 buf 34 8080
  let buf ← Cstruct.BE.setUint16 buf 36 1234
  let buf ← Cstruct.BE.setUint16 buf 38 (8 + payloadLen)
  let buf ← Cstruct.BE.setUint16 buf 40 0x0000
  Cstruct.blit payload 0 buf 42 payloadLen

/-- `write`; `send` is what `solo5_net_write` answers to a frame. -/
def write (send : Bytes → Except Netif.Error Unit) (hostMac : Mac) (payload : Bytes) :
    Raises (Except String Unit) := do
  let totalLen : ℤ := 14 + 20 + 8 + payload.length
  let buf ← frame hostMac payload
  let res ← Netif.writePure totalLen fun b => do
    return (← Cstruct.blit buf 0 b 0 totalLen, totalLen)
  match res >>= send with
  | .ok () => return .ok ()
  | .error e => return .error (Netif.ppError e)

inductive Action where
  | ignore
  | reply (frame : Bytes)
  | callback (payload : Bytes)
  deriving DecidableEq, Repr

/-- The handler changes `host_mac` also where it raises. -/
abbrev Handler := ExceptT Exn (StateM Mac)

def srcMac (buf : Bytes) : Raises Mac :=
  match h : Cstruct.sub buf 6 6 with
  | .ok octets => .ok ⟨octets, Int.natCast_inj.mp (Cstruct.sub_ok h).2.2⟩
  | .error exn => .error exn

def learn (mac : Mac) : Handler Unit :=
  modify fun hostMac => if hostMac = broadcastMac then mac else hostMac

def arpReply (srcMac : Mac) (srcIp : Bytes) : Raises Bytes := do
  let reply ← Cstruct.create 42
  let reply ← Cstruct.blit srcMac.octets 0 reply 0 6
  let reply ← Cstruct.blit myMac 0 reply 6 6
  let reply ← Cstruct.BE.setUint16 reply 12 0x0806
  let reply ← Cstruct.BE.setUint16 reply 14 1
  let reply ← Cstruct.BE.setUint16 reply 16 0x0800
  let reply ← Cstruct.setUint8 reply 18 6
  let reply ← Cstruct.setUint8 reply 19 4
  let reply ← Cstruct.BE.setUint16 reply 20 2
  let reply ← Cstruct.blit myMac 0 reply 22 6
  let reply ← Cstruct.blit myIp 0 reply 28 4
  let reply ← Cstruct.blit srcMac.octets 0 reply 32 6
  Cstruct.blit srcIp 0 reply 38 4

/-- The branch of the handler for ARP. What the device answers is not looked at. -/
def arp (buf : Bytes) : Handler Action := do
  if buf.length ≥ 42 then
    let opcode ← Cstruct.BE.getUint16 buf 20
    let targetIp ← Cstruct.sub buf 38 4
    if opcode = 1 ∧ targetIp = myIp then
      let src ← srcMac buf
      learn src
      let srcIp ← Cstruct.sub buf 28 4
      let reply ← arpReply src srcIp
      let res ← Netif.writePure 42 fun b => do return (← Cstruct.blit reply 0 b 0 42, 42)
      match res with
      | .ok frame => return .reply frame
      | .error _ => return .ignore
    else return .ignore
  else return .ignore

def ip (buf : Bytes) : Handler Action := do
  if buf.length ≥ 34 then
    let proto ← Cstruct.getUint8 buf 23
    if proto = 17 then
      let ipHeaderLen := (← Cstruct.getUint8 buf 14) % 16 * 4
      let udpStart := 14 + ipHeaderLen
      if buf.length ≥ udpStart + 8 then
        let _srcPort ← Cstruct.BE.getUint16 buf udpStart
        let dstPort ← Cstruct.BE.getUint16 buf (udpStart + 2)
        let len ← Cstruct.BE.getUint16 buf (udpStart + 4)
        let payloadLen := len - 8
        if dstPort = 8080 then
          learn (← srcMac buf)
          let payload ← Cstruct.sub buf (udpStart + 8) payloadLen
          return .callback payload
        else return .ignore
      else return .ignore
    else return .ignore
  else return .ignore

def handler (buf : Bytes) : Handler Action := do
  if buf.length < 14 then return .ignore
  else
    let ethertype ← Cstruct.BE.getUint16 buf 12
    if ethertype = 0x0806 then arp buf
    else if ethertype = 0x0800 then ip buf
    else return .ignore

/-- Handle a frame: what is done, or what is raised, and the new `host_mac`. -/
def handle (hostMac : Mac) (buf : Bytes) : Raises Action × Mac := (handler buf).run hostMac

end NetAdapter

end OCamlStudy.Mirage
