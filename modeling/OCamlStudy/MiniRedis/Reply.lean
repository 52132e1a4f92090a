import OCamlStudy.MiniRedis.Command
import OCamlStudy.MiniRedis.Grammar

/-! # Replies on the wire

A reply decodes to one value with nothing left, unless it is the error that
repeats an unknown command word and that word holds a carriage return.
-/

namespace OCamlStudy.MiniRedis

open OCaml

/-- One RESP value and nothing else. -/
def Framed (reply : Bytes) : Prop := ∃ v, decode reply = .ok (.ok (v, []))

/-- The upper-case command words with the numbers of arguments that `parse_command` accepts. -/
def Known (cmd : Bytes) (args : List Resp) : Prop :=
  (cmd = bytes "PING" ∧ args.length ≤ 1) ∨ (cmd = bytes "GET" ∧ args.length = 1) ∨
    (cmd = bytes "SET" ∧ args.length = 2)

/-- An unknown command, or one with a wrong number of arguments, whose word holds a CR. -/
def EchoesCr : Resp → Prop
  | .array (some (cmdResp :: args)) =>
    ∃ cmdStr, toStringOpt cmdResp = some cmdStr ∧ ¬ Known (uppercaseAscii cmdStr) args ∧
      13 ∈ cmdStr
  | _ => False

theorem decode_simpleString {s : Bytes} (h : 13 ∉ s) (t : Bytes) :
    decode (encode (.simpleString s) ++ t) = .ok (.ok (.simpleString s, t)) := by
  have he : encode (.simpleString s) = line 43 s := by simp [encode, line, bytes]
  rw [he]
  exact decode_line_simpleString h t

theorem decode_error {s : Bytes} (h : 13 ∉ s) (t : Bytes) :
    decode (encode (.error s) ++ t) = .ok (.ok (.error s, t)) := by
  have he : encode (.error s) = line 45 s := by simp [encode, line, bytes]
  rw [he]
  exact decode_line_error h t

theorem decode_bulkString {s : Bytes} (hs : IsString s) (t : Bytes) :
    decode (encode (.bulkString (some s)) ++ t) = .ok (.ok (.bulkString (some s), t)) := by
  have he : encode (.bulkString (some s)) ++ t =
      line 36 (stringOfInt s.length) ++ (s ++ [13, 10] ++ t) := by
    simp [encode, line, bytes]
  have hlen : s.length ≤ 2 ^ 57 := by
    unfold IsString maxStringLength at hs
    omega
  have hn : intOfString (stringOfInt s.length) = some (s.length : ℤ) :=
    intOfString_stringOfInt (by omega) (by omega)
  have hdigits : (stringOfInt s.length).length ≤ s.length + 1 := decimal_length_le _
  rw [he]
  exact decode_line_payload (cr_not_mem_stringOfInt _) hn rfl (by omega) t

/-- A value that a command can read as a string holds one of the runtime. -/
def ReadsString (v : Resp) : Prop := ∀ s, toStringOpt v = some s → IsString s

def ReadsStrings (v : Resp) : Prop :=
  ReadsString v ∧ ∀ xs, v = .array (some xs) → ∀ x ∈ xs, ReadsString x

section Spells

variable {v : Resp} {w : Bytes} {nums : List (Bytes × ℤ)} {ends : List Bytes}

theorem Spells.readsString (h : Spells v w nums ends) (hs : IsString w) : ReadsString v := by
  intro s ht
  cases h with
  | simpleString =>
    cases ht
    exact hs.trans' (by simp)
  | bulkString =>
    cases ht
    exact hs.trans' (by simp only [List.length_append, length_line]; omega)
  | _ => cases ht

theorem SpellsAll.readsString {vs : List Resp} (h : SpellsAll vs w nums ends) (hs : IsString w) :
    ∀ x ∈ vs, ReadsString x := by
  induction vs generalizing w nums ends with
  | nil => nofun
  | cons v vs ih =>
    cases h with
    | cons hv hvs =>
      rintro x hx
      rcases List.mem_cons.mp hx with rfl | hx
      · exact hv.readsString (hs.trans' (by simp))
      · exact ih hvs (hs.trans' (by simp)) x hx

end Spells

theorem decode_strings {b : Bytes} (hs : IsString b) {v : Resp} {rest : Bytes}
    (h : decode b = .ok (.ok (v, rest))) : ReadsStrings v := by
  obtain ⟨w, ⟨nums, ends, hspells, -⟩, rfl⟩ := (decode_eq_ok_iff hs).mp h
  have hw : IsString w := hs.trans' (by simp)
  constructor
  · exact hspells.readsString hw
  · rintro xs rfl
    cases hspells with
    | array _ hvs => exact hvs.readsString (hw.trans' (by simp))

theorem framed_encode {v : Resp} (h : ∀ t, decode (encode v ++ t) = .ok (.ok (v, t))) :
    Framed (encode v) := by
  have := h []
  rw [List.append_nil] at this
  exact ⟨v, this⟩

theorem decode_bulkString_none : decode (encode (.bulkString none)) =
    .ok (.ok (.bulkString none, [])) := rfl

theorem not_framed_error {s : Bytes} (h : 13 ∈ s) : ¬ Framed (encode (.error s)) := by
  have he : encode (.error s) = 45 :: (s ++ [13, 10]) := by simp [encode, bytes]
  rw [he]
  rintro ⟨v, hv⟩
  change decodeSimpleString _ _ = _ at hv
  rw [decodeSimpleString] at hv
  split at hv
  · rename_i idx hi
    have hlt : idx < s.length + 1 := by
      obtain ⟨i, hs⟩ : ∃ i, stringIndexOpt (45 :: s) 13 = some i := by
        rw [← Option.isSome_iff_exists, ← Option.ne_none_iff_isSome, ne_eq, stringIndexOpt_eq_none]
        simp [h]
      have hf := stringIndexOpt_append (t := [13, 10]) hs
      rw [List.cons_append, (findCrlf_some hi).1] at hf
      obtain rfl := Option.some.inj hf
      simpa using stringIndexOpt_lt hs
    have hl : (45 :: (s ++ [13, 10])).length = s.length + 3 := by simp
    obtain ⟨content, _, hv⟩ := Raises.bind_ok hv
    obtain ⟨rest, hr, hv⟩ := Raises.bind_ok hv
    cases hv
    rw [stringSub_tail (by omega) (by omega) (by omega)] at hr
    have hd := congrArg List.length (Except.ok.inj hr)
    simp only [List.length_drop, List.length_nil] at hd
    omega
  · cases hv

/-- The reply of a command is framed, or the command is an error that holds a CR. -/
theorem framed_execute {store : Store} (hs : ∀ k v, store.lookup k = some v → IsString v)
    {cmd : Command} (hp : ∀ msg, cmd = .ping (some msg) → IsString msg)
    (he : ∀ msg, cmd = .commandError msg → 13 ∉ msg) :
    Framed (encode (execute store cmd).1) := by
  cases cmd with
  | set key value => exact framed_encode (decode_simpleString (by decide))
  | get key =>
    change Framed (encode (.bulkString (store.lookup key)))
    cases hk : store.lookup key with
    | none => exact ⟨_, decode_bulkString_none⟩
    | some v => exact framed_encode (decode_bulkString (hs key v hk))
  | ping msg =>
    cases msg with
    | none => exact framed_encode (decode_simpleString (by decide))
    | some msg => exact framed_encode (decode_bulkString (hp msg rfl))
  | commandError msg => exact framed_encode (decode_error (he msg rfl))

theorem parseCommand_word {cmdResp : Resp} {args : List Resp} {cmdStr : Bytes}
    (h : toStringOpt cmdResp = some cmdStr) :
    (¬ Known (uppercaseAscii cmdStr) args ∧
      parseCommand (.array (some (cmdResp :: args))) = unknownCommand cmdStr) ∨
    (Known (uppercaseAscii cmdStr) args ∧
      ∀ msg, parseCommand (.array (some (cmdResp :: args))) = .commandError msg → 13 ∉ msg) := by
  simp only [parseCommand, h]
  rcases args with _ | ⟨arg, _ | ⟨arg', _ | ⟨arg'', args⟩⟩⟩
  · by_cases hp : uppercaseAscii cmdStr = bytes "PING"
    · exact .inr ⟨.inl ⟨hp, by simp⟩, by simp [hp]⟩
    · exact .inl ⟨by simp [Known, hp], by simp [hp]⟩
  · by_cases hp : uppercaseAscii cmdStr = bytes "PING"
    · refine .inr ⟨.inl ⟨hp, by simp⟩, fun msg hm => ?_⟩
      dsimp only at hm
      rw [if_pos hp] at hm
      cases ha : toStringOpt arg <;> rw [ha] at hm <;> cases hm
      decide
    · by_cases hg : uppercaseAscii cmdStr = bytes "GET"
      · refine .inr ⟨.inr (.inl ⟨hg, by simp⟩), fun msg hm => ?_⟩
        dsimp only at hm
        rw [if_neg hp, if_pos hg] at hm
        cases ha : toStringOpt arg <;> rw [ha] at hm <;> cases hm
        decide
      · exact .inl ⟨by simp [Known, hp, hg], by simp [hp, hg]⟩
  · by_cases hg : uppercaseAscii cmdStr = bytes "SET"
    · refine .inr ⟨.inr (.inr ⟨hg, by simp⟩), fun msg hm => ?_⟩
      dsimp only at hm
      rw [if_pos hg] at hm
      cases hk : toStringOpt arg <;> cases hv : toStringOpt arg' <;> rw [hk, hv] at hm <;>
        cases hm <;> decide
    · exact .inl ⟨by simp [Known, hg], by simp [hg]⟩
  · exact .inl ⟨by simp [Known], rfl⟩

theorem parseCommand_echoes {resp : Resp} (h : EchoesCr resp) :
    ∃ msg, parseCommand resp = .commandError msg ∧ 13 ∈ msg := by
  rcases resp with s | s | i | s | _ | _ | ⟨cmdResp, args⟩
  case array.some.cons =>
    obtain ⟨cmdStr, hw, hk, hcr⟩ := h
    have hp := ((parseCommand_word hw).resolve_right fun hr => hk hr.1).2
    exact ⟨_, hp, List.mem_append_right _ hcr⟩
  all_goals cases h

theorem parseCommand_error {resp : Resp} {msg : Bytes} (he : ¬ EchoesCr resp)
    (h : parseCommand resp = .commandError msg) : 13 ∉ msg := by
  rcases resp with s | s | i | s | _ | _ | ⟨cmdResp, args⟩
  case array.some.cons =>
    cases hw : toStringOpt cmdResp with
    | none =>
      simp only [parseCommand, hw] at h
      cases h
      decide
    | some cmdStr =>
      rcases parseCommand_word hw with ⟨hk, hp⟩ | ⟨_, hp⟩
      · rw [hp] at h
        cases h
        intro hm
        refine he ⟨cmdStr, hw, hk, (List.mem_append.mp hm).resolve_left (by decide)⟩
      · exact hp msg h
  all_goals
    cases h
    decide

theorem parseCommand_ping {resp : Resp} {msg : Bytes} (hr : ReadsStrings resp)
    (h : parseCommand resp = .ping (some msg)) : IsString msg := by
  rcases resp with s | s | i | s | _ | _ | ⟨cmdResp, args⟩
  case array.some.cons =>
    simp only [parseCommand] at h
    split at h
    · split at h
      · split_ifs at h
        · cases h
        · cases h
      · rename_i arg
        split_ifs at h
        · split at h
          · rename_i s hs
            obtain rfl := Option.some.inj (Command.ping.inj h)
            exact hr.2 _ rfl arg (by simp) _ hs
          · cases h
        · split at h <;> cases h
        · cases h
      · split_ifs at h
        · rename_i keyResp valResp _
          cases hk : toStringOpt keyResp <;> cases hv : toStringOpt valResp <;> rw [hk, hv] at h <;>
            cases h
        · cases h
      · cases h
    · cases h
  all_goals cases h

/-- **A reply is one RESP value unless it repeats a carriage return of the client.** -/
theorem reply_framed_iff {store store' : Store} {buffer reply rest : Bytes}
    (hb : IsString buffer) (hs : ∀ k v, store.lookup k = some v → IsString v)
    (h : handleRequest store buffer = .ok (.ok (reply, rest), store')) :
    Framed reply ↔ ∀ resp r, decode buffer = .ok (.ok (resp, r)) → ¬ EchoesCr resp := by
  rw [handleRequest_eq] at h
  cases hd : decode buffer with
  | error exn => rw [hd] at h; cases h
  | ok d =>
    rw [hd] at h
    rcases d with msg | ⟨resp, r⟩
    · cases h
    · cases h
      have hr := decode_strings hb hd
      constructor
      · rintro hf resp' r' ⟨⟩ he
        obtain ⟨msg, hc, hcr⟩ := parseCommand_echoes he
        rw [hc] at hf
        exact not_framed_error hcr hf
      · intro hn
        exact framed_execute hs (fun msg => parseCommand_ping hr)
          fun msg => parseCommand_error (hn resp _ rfl)

theorem reply_framed_iff_ping : Framed (bytes "+PONG\r\n") ↔
    ∀ resp r, decode (bytes "*1\r\n$4\r\nPING\r\n") = .ok (.ok (resp, r)) → ¬ EchoesCr resp :=
  @reply_framed_iff ∅ ∅ _ _ _ (by unfold IsString maxStringLength; decide)
    (fun k v h => by simp at h) rfl

/-- The word `a CR LF b` ends the line of the error early. -/
theorem reply_not_framed : ∃ reply rest store',
    handleRequest ∅ (bytes "*1\r\n$4\r\na\r\nb\r\n") = .ok (.ok (reply, rest), store') ∧
      ¬ Framed reply := by
  refine ⟨encode (.error (bytes "Unknown command or wrong arguments: a\r\nb")), [], ∅, ?_,
    not_framed_error (by decide)⟩
  rfl

end OCamlStudy.MiniRedis
