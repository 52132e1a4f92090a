import OCamlStudy.MiniRedis.RoundTrip

/-! # Pipelined commands

A buffer that holds encoded commands is answered command by command, each from
what the last one left of the buffer. The replies and the store are those of a
map from keys to values.
-/

namespace OCamlStudy.MiniRedis

open OCaml

/-- That many requests, each on what the last one left. -/
def handleRequests : ℕ → Store → Bytes → Raises (Except Bytes (List Bytes × Bytes) × Store)
  | 0, store, buffer => return (.ok ([], buffer), store)
  | n + 1, store, buffer => do
    match ← handleRequest store buffer with
    | (.ok (reply, rest), store) =>
      match ← handleRequests n store rest with
      | (.ok (replies, rest), store) => return (.ok (reply :: replies, rest), store)
      | (.error msg, store) => return (.error msg, store)
    | (.error msg, store) => return (.error msg, store)

inductive Call where
  | set (key value : Bytes)
  | get (key : Bytes)
  | ping
  | pingMsg (msg : Bytes)

namespace Call

def word : Call → Bytes
  | set _ _ => bytes "SET"
  | get _ => bytes "GET"
  | ping | pingMsg _ => bytes "PING"

def args : Call → List Bytes
  | set key value => [key, value]
  | get key => [key]
  | ping => []
  | pingMsg msg => [msg]

def request (cmdStr : Bytes) (call : Call) : Resp :=
  .array (some ((cmdStr :: call.args).map fun s => .bulkString (some s)))

/-- The answer of a map from keys to values, and the map afterwards. -/
def answer (map : Bytes → Option Bytes) : Call → Resp × (Bytes → Option Bytes)
  | set key value => (.simpleString (bytes "OK"), Function.update map key (some value))
  | get key => (.bulkString (map key), map)
  | ping => (.simpleString (bytes "PONG"), map)
  | pingMsg msg => (.bulkString (some msg), map)

def answerAll (map : Bytes → Option Bytes) : List Call → List Resp × (Bytes → Option Bytes)
  | [] => ([], map)
  | call :: calls =>
    let (reply, map) := call.answer map
    let (replies, map) := answerAll map calls
    (reply :: replies, map)

end Call

/-- The bytes of the requests, with the spelling of each command word. -/
def wire (calls : List (Bytes × Call)) : Bytes :=
  encodeAll (calls.map fun p => p.2.request p.1)

section Pipeline

variable {store : Store} {cmdStr : Bytes} {call : Call}

theorem parseCommand_request (hw : uppercaseAscii cmdStr = call.word) :
    parseCommand (call.request cmdStr) = match call with
      | .set key value => .set key value
      | .get key => .get key
      | .ping => .ping none
      | .pingMsg msg => .ping (some msg) := by
  cases call <;> simp only [Call.word] at hw <;>
    simp [Call.request, Call.args, parseCommand, toStringOpt, hw, bytes]

theorem execute_request (store : Store) (hw : uppercaseAscii cmdStr = call.word) :
    (execute store (parseCommand (call.request cmdStr))).1 = (call.answer store.lookup).1 ∧
      (execute store (parseCommand (call.request cmdStr))).2.lookup =
        (call.answer store.lookup).2 := by
  rw [parseCommand_request hw]
  cases call with
  | set key value =>
    constructor
    · rfl
    · ext1 k
      dsimp only [execute, Call.answer]
      by_cases hk : k = key
      · subst hk
        rw [AList.lookup_insert, Function.update_self]
      · rw [AList.lookup_insert_ne hk, Function.update_of_ne hk]
  | get key | ping | pingMsg msg => exact ⟨rfl, rfl⟩

theorem request_encodable : (call.request cmdStr).Encodable := by
  cases call <;> simp [Call.request, Call.args, Resp.Encodable, AllEncodable]

theorem handleRequest_request (store : Store) (hw : uppercaseAscii cmdStr = call.word) {t : Bytes}
    (hs : IsString (encode (call.request cmdStr) ++ t)) : ∃ store',
      handleRequest store (encode (call.request cmdStr) ++ t) =
        .ok (.ok (encode (call.answer store.lookup).1, t), store') ∧
      store'.lookup = (call.answer store.lookup).2 := by
  obtain ⟨hreply, hmap⟩ := execute_request store hw
  refine ⟨_, ?_, hmap⟩
  rw [handleRequest_eq, decode_encode _ request_encodable _ hs]
  dsimp only
  rw [hreply]

/-- **Pipelined commands are answered by a map.** -/
theorem handleRequests_wire (store : Store) (calls : List (Bytes × Call))
    (hw : ∀ p ∈ calls, uppercaseAscii p.1 = p.2.word) (t : Bytes)
    (hs : IsString (wire calls ++ t)) : ∃ store',
      handleRequests calls.length store (wire calls ++ t) =
        .ok (.ok ((Call.answerAll store.lookup (calls.map Prod.snd)).1.map encode, t), store') ∧
      store'.lookup = (Call.answerAll store.lookup (calls.map Prod.snd)).2 := by
  induction calls generalizing store with
  | nil => exact ⟨store, rfl, rfl⟩
  | cons p calls ih =>
    have hwire : wire (p :: calls) ++ t = encode (p.2.request p.1) ++ (wire calls ++ t) :=
      List.append_assoc _ _ _
    rw [hwire] at hs ⊢
    obtain ⟨store₁, hone, hmap⟩ := handleRequest_request store
      (hw p List.mem_cons_self) hs
    obtain ⟨store₂, hall, hmap'⟩ := ih store₁ (fun q hq => hw q (List.mem_cons_of_mem _ hq))
      (hs.trans' (by simp))
    rw [hmap] at hall hmap'
    refine ⟨store₂, ?_, hmap'⟩
    rw [List.length_cons, handleRequests, hone, Raises.ok_bind]
    dsimp only
    rw [hall]
    rfl

end Pipeline

/-- A value that is set and read back, before the start of another request. -/
theorem handleRequests_set_get : ∃ store', handleRequests 2 ∅
    (wire [(bytes "set", .set (bytes "k") (bytes "\r\n")), (bytes "Get", .get (bytes "k"))] ++
      bytes "*") =
        .ok (.ok ([encode (.simpleString (bytes "OK")), encode (.bulkString (some (bytes "\r\n")))],
          bytes "*"), store') ∧ store'.lookup (bytes "k") = some (bytes "\r\n") := by
  obtain ⟨store', hrun, hmap⟩ := handleRequests_wire ∅
    [(bytes "set", .set (bytes "k") (bytes "\r\n")), (bytes "Get", .get (bytes "k"))] (by decide)
    (bytes "*") (by
      simp (disch := decide) only [wire, Call.request, Call.args, List.map_cons, List.map_nil,
        encode, encodeAll, stringOfInt_digit]
      unfold IsString maxStringLength
      decide)
  refine ⟨store', hrun, ?_⟩
  exact congrFun hmap (bytes "k")

end OCamlStudy.MiniRedis
