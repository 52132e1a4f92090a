import OCamlStudy.OCaml.Decimal

/-! # The RESP codec

The decoder and encoder of `mini_redis`. Decoding returns a value with the rest
of the buffer, a protocol error, or raises when `String.sub` is called out of
range. The decoder and its array loop call each other; the loop is written by
recursion on a fuel that the length of the buffer bounds.
-/

namespace OCamlStudy.MiniRedis

open OCaml

/-- RESP values; `none` is a null bulk string or a null array. -/
inductive Resp where
  | simpleString (s : Bytes)
  | error (s : Bytes)
  | integer (i : ℤ)
  | bulkString (s : Option Bytes)
  | array (elements : Option (List Resp))
  deriving Repr

/-- A value and the unconsumed buffer, a protocol error, or an exception. -/
abbrev Decode := Raises (Except Bytes (Resp × Bytes))

def tryParseInt (s : Bytes) : Except Bytes ℤ :=
  match intOfString s with
  | some n => .ok n
  | none => .error (bytes "Invalid integer format: ")

/-- The index of the first carriage return, if a line feed follows it. -/
def findCrlf (str : Bytes) : Option ℕ :=
  match stringIndexOpt str 13 with
  | some idx => if idx + 1 < str.length ∧ str[idx + 1]? = some 10 then some idx else none
  | none => none

def decodeSimpleString (buffer : Bytes) (constructor : Bytes → Resp) : Decode :=
  match findCrlf buffer with
  | some idx => do
    let content ← stringSub buffer 1 (idx - 1)
    let rest ← stringSub buffer (idx + 2) (buffer.length - idx - 2)
    return .ok (constructor content, rest)
  | none => return .error (bytes "Incomplete SimpleString/Error")

def decodeInt (buffer : Bytes) : Decode :=
  match findCrlf buffer with
  | some idx => do
    let numStr ← stringSub buffer 1 (idx - 1)
    match tryParseInt numStr with
    | .ok num =>
      let rest ← stringSub buffer (idx + 2) (buffer.length - idx - 2)
      return .ok (.integer num, rest)
    | .error e => return .error e
  | none => return .error (bytes "Incomplete Integer")

def decodeBulkString (buffer : Bytes) : Decode :=
  match findCrlf buffer with
  | none => return .error (bytes "Incomplete BulkString length")
  | some idx => do
    let lenStr ← stringSub buffer 1 (idx - 1)
    match tryParseInt lenStr with
    | .error e => return .error e
    | .ok len =>
      if len = -1 then
        let rest ← stringSub buffer (idx + 2) (buffer.length - idx - 2)
        return .ok (.bulkString none, rest)
      else
        let contentStart : ℤ := idx + 2
        let totalLen := wrap63 (contentStart + len + 2)
        if buffer.length < totalLen then return .error (bytes "Incomplete BulkString content")
        else
          let content ← stringSub buffer contentStart len
          let rest ← stringSub buffer totalLen (buffer.length - totalLen)
          return .ok (.bulkString (some content), rest)

/-- Decode an array header, then its elements by the given loop. -/
def decodeArray (decodeElements : ℤ → Bytes → Decode) (buffer : Bytes) : Decode :=
  match findCrlf buffer with
  | none => return .error (bytes "Incomplete Array length")
  | some idx => do
    let lenStr ← stringSub buffer 1 (idx - 1)
    match tryParseInt lenStr with
    | .error e => return .error e
    | .ok count =>
      if count = -1 then
        let rest ← stringSub buffer (idx + 2) (buffer.length - idx - 2)
        return .ok (.array none, rest)
      else
        let startRest ← stringSub buffer (idx + 2) (buffer.length - idx - 2)
        decodeElements count startRest

def decodeWith (decodeElements : ℤ → Bytes → Decode) (buffer : Bytes) : Decode :=
  match buffer with
  | [] => return .error (bytes "Empty buffer")
  | c :: _ =>
    if c = 43 then decodeSimpleString buffer .simpleString
    else if c = 45 then decodeSimpleString buffer .error
    else if c = 58 then decodeInt buffer
    else if c = 36 then decodeBulkString buffer
    else if c = 42 then decodeArray decodeElements buffer
    else return .error (bytes "Invalid RESP type: " ++ [c])

/-- The array loop; `count` falls by one for each element decoded. -/
def decodeElementsFuel : ℕ → ℤ → Bytes → List Resp → Decode
  | 0, _, _, _ => .error (.failure "fuel")
  | fuel + 1, count, buffer, acc =>
    if count = 0 then return .ok (.array (some acc.reverse), buffer)
    else do
      match ← decodeWith (fun count buffer => decodeElementsFuel fuel count buffer []) buffer with
      | .ok (element, rest) => decodeElementsFuel fuel (wrap63 (count - 1)) rest (element :: acc)
      | .error e => return .error e

def decodeArrayElements (count : ℤ) (buffer : Bytes) (acc : List Resp) : Decode :=
  decodeElementsFuel (buffer.length + 1) count buffer acc

def decode (buffer : Bytes) : Decode :=
  decodeWith (fun count buffer => decodeArrayElements count buffer []) buffer

mutual

def encode : Resp → Bytes
  | .simpleString s => bytes "+" ++ s ++ bytes "\r\n"
  | .error s => bytes "-" ++ s ++ bytes "\r\n"
  | .integer i => bytes ":" ++ stringOfInt i ++ bytes "\r\n"
  | .bulkString none => bytes "$-1\r\n"
  | .bulkString (some s) =>
    bytes "$" ++ stringOfInt s.length ++ bytes "\r\n" ++ s ++ bytes "\r\n"
  | .array none => bytes "*-1\r\n"
  | .array (some lst) =>
    bytes "*" ++ stringOfInt lst.length ++ bytes "\r\n" ++ encodeAll lst

def encodeAll : List Resp → Bytes
  | [] => []
  | v :: lst => encode v ++ encodeAll lst

end

end OCamlStudy.MiniRedis
