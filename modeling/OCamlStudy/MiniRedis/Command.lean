import OCamlStudy.MiniRedis.Append

/-! # Commands and requests

A decoded array is parsed into a command and executed against the store. A
request is decoded, executed and answered by one encoded value.
-/

namespace OCamlStudy.MiniRedis

open OCaml

inductive Command where
  | set (key value : Bytes)
  | get (key : Bytes)
  | ping (msg : Option Bytes)
  | commandError (msg : Bytes)
  deriving DecidableEq, Repr

abbrev Store := Hashtbl Bytes Bytes

def Store.create : Store := ∅

def toStringOpt : Resp → Option Bytes
  | .bulkString (some s) => some s
  | .simpleString s => some s
  | _ => none

def unknownCommand (cmdStr : Bytes) : Command :=
  .commandError (bytes "Unknown command or wrong arguments: " ++ cmdStr)

def parseCommand : Resp → Command
  | .array (some (cmdResp :: args)) =>
    match toStringOpt cmdResp with
    | some cmdStr =>
      match args with
      | [] =>
        if uppercaseAscii cmdStr = bytes "PING" then .ping none else unknownCommand cmdStr
      | [arg] =>
        if uppercaseAscii cmdStr = bytes "PING" then
          match toStringOpt arg with
          | some s => .ping (some s)
          | none => .commandError (bytes "Invalid PING argument")
        else if uppercaseAscii cmdStr = bytes "GET" then
          match toStringOpt arg with
          | some s => .get s
          | none => .commandError (bytes "Invalid key")
        else unknownCommand cmdStr
      | [keyResp, valResp] =>
        if uppercaseAscii cmdStr = bytes "SET" then
          let result := do
            let k ← toStringOpt keyResp
            let v ← toStringOpt valResp
            return Command.set k v
          result.getD (.commandError (bytes "Invalid key or value"))
        else unknownCommand cmdStr
      | _ => unknownCommand cmdStr
    | none => .commandError (bytes "Command must be a string")
  | _ => .commandError (bytes "Invalid request format")

/-- Execute a command; the reply and the store afterwards. -/
def execute (store : Store) : Command → Resp × Store
  | .ping none => (.simpleString (bytes "PONG"), store)
  | .ping (some msg) => (.bulkString (some msg), store)
  | .get key => (.bulkString (store.lookup key), store)
  | .set key value => (.simpleString (bytes "OK"), store.insert key value)
  | .commandError msg => (.error msg, store)

/-- Answer one request: the encoded reply with the rest of the buffer, or an error. -/
def handleRequest (store : Store) (buffer : Bytes) :
    Raises (Except Bytes (Bytes × Bytes) × Store) := do
  match ← decode buffer with
  | .ok (resp, rest) =>
    let (result, store) := execute store (parseCommand resp)
    return (.ok (encode result, rest), store)
  | .error msg => return (.error msg, store)

theorem handleRequest_eq (store : Store) (buffer : Bytes) :
    handleRequest store buffer = match decode buffer with
      | .ok (.ok (resp, rest)) =>
        .ok (.ok (encode (execute store (parseCommand resp)).1, rest),
          (execute store (parseCommand resp)).2)
      | .ok (.error msg) => .ok (.error msg, store)
      | .error exn => .error exn := by
  unfold handleRequest
  cases decode buffer with
  | error exn => rfl
  | ok r => cases r <;> rfl

end OCamlStudy.MiniRedis
