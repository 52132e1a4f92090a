import OCamlStudy.MiniRedis.Connection
import OCamlStudy.MiniRedis.Grammar
import OCamlStudy.Program.Replay
import OCamlStudy.Program.Run

/-! # The server and its connections

Every connection runs its own loop over the shared store. A loop gives way only
where it waits for a channel, so its events are the turns between two such points.
-/

namespace OCamlStudy.MiniRedis

open OCaml Program

/-- Where the loop of a connection stands. -/
inductive Phase where
  /-- `handle_loop` on a buffer -/
  | handling (buffer : Bytes)
  /-- in `Lwt_io.write` -/
  | writing (response rest : Bytes)
  /-- in `Lwt_io.flush` -/
  | flushing (rest : Bytes)
  /-- in `Lwt_io.read_into` if it waits, else ended -/
  | resting (status : Status)
  /-- ended by an exception of a channel, which `accept_connection` catches -/
  | lost

/-- A connection, with the bytes that it has read and the responses that it has written. -/
structure Session where
  phase : Phase
  received : Bytes
  sent : List Bytes

structure Server where
  store : Store
  sessions : List Session

/-- What can happen next to a connection. -/
inductive Action where
  | handle
  | written
  | flushed
  | read (newData : Bytes)
  | fail

inductive Event where
  | accept
  | act (i : ℕ) (action : Action)

def Session.accepted : Session := ⟨.handling [], [], []⟩

/-- `read_more`, which gets at most 1024 bytes; the append raises if no string is so long. -/
def Session.readMore (s : Session) (old newData : Bytes) : Option Session :=
  if 1024 < newData.length then none
  else if newData = [] then some { s with phase := .resting .disconnected }
  else if (old ++ newData).length ≤ maxStringLength then
    some { s with phase := .handling (old ++ newData), received := s.received ++ newData }
  else some { s with phase := .resting (.raised (.invalidArgument "Bytes.create")) }

/-- A connection after an action, if it waits for that; and the store. -/
def Session.next (store : Store) (s : Session) : Action → Option (Session × Store)
  | .handle =>
    match s.phase with
    | .handling buffer =>
      match handleRequest store buffer with
      | .error exn => some ({ s with phase := .resting (.raised exn) }, store)
      | .ok (.ok (response, rest), store) =>
        some ({ s with phase := .writing response rest }, store)
      | .ok (.error msg, store) => some ({ s with phase := .resting (onError buffer msg) }, store)
    | _ => none
  | .written =>
    match s.phase with
    | .writing response rest =>
      some ({ s with phase := .flushing rest, sent := s.sent ++ [response] }, store)
    | _ => none
  | .flushed =>
    match s.phase with
    | .flushing rest => some ({ s with phase := .handling rest }, store)
    | _ => none
  | .read newData =>
    match s.phase with
    | .resting (.waiting old) => (s.readMore old newData).map fun s => (s, store)
    | _ => none
  | .fail =>
    match s.phase with
    | .writing _ _ | .flushing _ | .resting (.waiting _) => some ({ s with phase := .lost }, store)
    | _ => none

namespace Server

def start : Server := ⟨Store.create, []⟩

def step (w : Server) : Event → Option Server
  | .accept => some { w with sessions := w.sessions ++ [Session.accepted] }
  | .act i action => do
    let s ← w.sessions[i]?
    let (s, store) ← s.next w.store action
    return ⟨store, w.sessions.set i s⟩

/-- Whatever happens, in whatever order. -/
abbrev Runs : Server → Server → Prop := Reaches step fun _ _ => True

end Server

/-- The answer of a map from keys to values, and the map afterwards. -/
def Command.perform (map : Bytes → Option Bytes) : Command → Resp × (Bytes → Option Bytes)
  | .ping none => (.simpleString (bytes "PONG"), map)
  | .ping (some msg) => (.bulkString (some msg), map)
  | .get key => (.bulkString (map key), map)
  | .set key value => (.simpleString (bytes "OK"), Function.update map key (some value))
  | .commandError msg => (.error msg, map)

def Resp.answer (map : Bytes → Option Bytes) (resp : Resp) : Resp × (Bytes → Option Bytes) :=
  (parseCommand resp).perform map

/-- The responses to the requests of all connections, one after another, from an empty map. -/
abbrev answers (log : List (ℕ × Resp)) : List (ℕ × Resp) × (Bytes → Option Bytes) :=
  replay Resp.answer (fun _ => none) log

/-- No request begins the bytes. -/
def NoRequest (b : Bytes) : Prop := ∀ resp w, Accepts resp w → ¬ w <+: b

def Phase.buffer : Phase → Option Bytes
  | .handling buffer | .writing _ buffer | .flushing buffer | .resting (.waiting buffer) =>
    some buffer
  | _ => none

/-- The bytes were read and not decoded; where the loop rests no request is among them. -/
structure Phase.Holds (phase : Phase) (b : Bytes) : Prop where
  buffer : ∀ buffer, phase.buffer = some buffer → b = buffer
  noRequest : ∀ status, phase = .resting status → NoRequest b

/-- The responses that were computed and not written. -/
def Phase.Owes : Phase → List Bytes → Prop
  | .writing response _, owed => owed = [response]
  | .lost, owed => owed.length ≤ 1
  | _, owed => owed = []

/-- A connection has had these requests performed, with these replies. -/
structure Session.Serves (s : Session) (requests replies : List Resp) : Prop where
  incoming : ∃ w rest, AcceptsAll requests w ∧ s.received = w ++ rest ∧ s.phase.Holds rest
  outgoing : ∃ owed, replies.map encode = s.sent ++ owed ∧ s.phase.Owes owed

/-- The requests are all that was received, and these are their replies. -/
def Session.Answered (s : Session) (requests replies : List Resp) : Prop :=
  ∃ w rest : Bytes, AcceptsAll requests w ∧ s.received = w ++ rest ∧ NoRequest rest ∧
    s.sent = replies.map encode

/-- The store and all connections are as if the requests of the log had come one by one. -/
structure Server.Linear (w : Server) (log : List (ℕ × Resp)) : Prop where
  store : w.store.lookup = (answers log).2
  sessions : ∀ (i : ℕ) (s : Session), w.sessions[i]? = some s →
    s.Serves (ofClient i log) (ofClient i (answers log).1)

theorem execute_eq_perform (store : Store) (cmd : Command) :
    (execute store cmd).1 = (cmd.perform store.lookup).1 ∧
      (execute store cmd).2.lookup = (cmd.perform store.lookup).2 := by
  cases cmd with
  | set key value =>
    constructor
    · rfl
    · ext1 k
      dsimp only [execute, Command.perform]
      by_cases hk : k = key
      · subst hk
        rw [AList.lookup_insert, Function.update_self]
      · rw [AList.lookup_insert_ne hk, Function.update_of_ne hk]
  | ping msg => cases msg <;> exact ⟨rfl, rfl⟩
  | get key | commandError msg => exact ⟨rfl, rfl⟩

theorem noRequest_of_decode {b : Bytes} (hs : IsString b) (h : ∀ p, decode b ≠ .ok (.ok p)) :
    NoRequest b := by
  rintro resp w hw ⟨t, rfl⟩
  exact h _ ((decode_eq_ok_iff hs).mpr ⟨w, hw, rfl⟩)

section Next

variable {s s' : Session} {requests replies : List Resp} {store store' : Store}

/-- The buffer is a string. -/
def Phase.Fits (phase : Phase) : Prop := ∀ buffer, phase.buffer = some buffer → IsString buffer

theorem buffer_onError (b msg : Bytes) :
    (Phase.resting (onError b msg)).buffer = some b ∨
      (Phase.resting (onError b msg)).buffer = none := by
  by_cases hw : Waits msg
  · left
    rw [onError_waits hw]
    rfl
  · right
    have hne := (onError_fatal b b hw).2
    cases he : onError b msg with
    | waiting old => exact absurd he (hne old)
    | disconnected | stopped | raised => rfl

theorem Session.Serves.keep (h : s.Serves requests replies) {phase : Phase} {sent : List Bytes}
    (hholds : ∀ rest, s.phase.Holds rest → phase.Holds rest)
    (howes : ∀ owed, s.phase.Owes owed →
      ∃ owed', s.sent ++ owed = sent ++ owed' ∧ phase.Owes owed') :
    Session.Serves ⟨phase, s.received, sent⟩ requests replies := by
  obtain ⟨⟨w, rest, hw, hr, hh⟩, owed, hsent, ho⟩ := h
  obtain ⟨owed', heq, ho'⟩ := howes owed ho
  exact ⟨⟨w, rest, hw, hr, hholds rest hh⟩, owed', hsent.trans heq, ho'⟩

/-- What an action comes to: nothing, or one request performed on the store. -/
def Session.Advances (store store' : Store) (s' : Session) (requests replies : List Resp) : Prop :=
  s'.phase.Fits ∧ ((store' = store ∧ s'.Serves requests replies) ∨
    ∃ resp, store' = (execute store (parseCommand resp)).2 ∧
      s'.Serves (requests ++ [resp]) (replies ++ [(execute store (parseCommand resp)).1]))

theorem Session.Serves.ends (h : s.Serves requests replies) {phase : Phase}
    (hbuffer : phase.buffer = none) (hholds : ∀ rest, s.phase.Holds rest → phase.Holds rest)
    (howes : ∀ owed, s.phase.Owes owed → phase.Owes owed) :
    Session.Advances store store { s with phase } requests replies := by
  constructor
  · intro buffer hb
    rw [hbuffer] at hb
    cases hb
  · exact .inl ⟨rfl, h.keep hholds fun owed ho => ⟨owed, rfl, howes owed ho⟩⟩

theorem Session.Serves.stop (h : s.Serves requests replies) (hf : s.phase.Fits) {buffer : Bytes}
    (hphase : s.phase = .handling buffer) (hno : ∀ p, decode buffer ≠ .ok (.ok p)) {status : Status}
    (hstatus : (Phase.resting status).buffer = some buffer ∨ (Phase.resting status).buffer = none) :
    Session.Advances store store { s with phase := .resting status } requests replies := by
  rw [hphase] at hf
  have hs : IsString buffer := hf buffer rfl
  refine ⟨?_, .inl ⟨rfl, h.keep ?_ ?_⟩⟩
  · rintro b hb
    rcases hstatus with hsome | hnone
    · obtain rfl : buffer = b := Option.some.inj (hsome.symm.trans hb)
      exact hs
    · cases hnone.symm.trans hb
  · rw [hphase]
    rintro rest ⟨hrest, -⟩
    obtain rfl := hrest buffer rfl
    constructor
    · intro b hb
      rcases hstatus with hsome | hnone
      · exact Option.some.inj (hsome.symm.trans hb)
      · cases hnone.symm.trans hb
    · intro _ _
      exact noRequest_of_decode hs hno
  · rw [hphase]
    rintro owed rfl
    exact ⟨[], rfl, rfl⟩

theorem AcceptsAll.concat {vs : List Resp} {ws w : Bytes} {v : Resp} (hvs : AcceptsAll vs ws)
    (hv : Accepts v w) : AcceptsAll (vs ++ [v]) (ws ++ w) := by
  simpa using hvs.append (.cons hv acceptsAll_nil)

theorem Session.Serves.perform (h : s.Serves requests replies) (hf : s.phase.Fits) {buffer : Bytes}
    (hphase : s.phase = .handling buffer) {resp : Resp} {rest : Bytes}
    (hd : decode buffer = .ok (.ok (resp, rest))) :
    Session.Advances store (execute store (parseCommand resp)).2
      { s with phase := .writing (encode (execute store (parseCommand resp)).1) rest }
      requests replies := by
  rw [hphase] at hf
  have hs : IsString buffer := hf buffer rfl
  have hl := (decode_consumes hs resp rest hd).2
  obtain ⟨w', haccepts, rfl⟩ := (decode_eq_ok_iff hs).mp hd
  obtain ⟨⟨w, b, hw, hreceived, hholds⟩, owed, hsent, howes⟩ := h
  rw [hphase] at hholds howes
  obtain rfl := hholds.buffer _ rfl
  obtain rfl : owed = [] := howes
  constructor
  · intro b hb
    obtain rfl := Option.some.inj hb
    exact hs.trans' hl.le
  refine .inr ⟨resp, rfl, ⟨w ++ w', rest, hw.concat haccepts, ?_, ?_⟩, [_], ?_, rfl⟩
  · rw [List.append_assoc]
    exact hreceived
  · constructor
    · intro b hb
      exact Option.some.inj hb
    · intro status hstatus
      cases hstatus
  · rw [List.map_append, hsent, List.append_nil]
    rfl

theorem Session.Serves.handle (h : s.Serves requests replies) (hf : s.phase.Fits) {buffer : Bytes}
    (hphase : s.phase = .handling buffer) (hnext : s.next store .handle = some (s', store')) :
    Session.Advances store store' s' requests replies := by
  simp only [Session.next, hphase, handleRequest_eq] at hnext
  cases hd : decode buffer with
  | error exn =>
    rw [hd] at hnext
    cases hnext
    exact h.stop hf hphase (by rw [hd]; rintro p ⟨⟩) (.inr rfl)
  | ok r =>
    cases r with
    | ok p =>
      rw [hd] at hnext
      cases hnext
      exact h.perform hf hphase hd
    | error msg =>
      rw [hd] at hnext
      cases hnext
      exact h.stop hf hphase (by rw [hd]; rintro p ⟨⟩) (buffer_onError buffer msg)

theorem Session.Serves.read (h : s.Serves requests replies) {old newData : Bytes}
    (hphase : s.phase = .resting (.waiting old)) (hread : s.readMore old newData = some s') :
    Session.Advances store store s' requests replies := by
  unfold Session.readMore at hread
  split_ifs at hread with hlong hnil hfits
  · cases hread
    refine h.ends rfl ?_ ?_
    · rintro rest ⟨-, hno⟩
      exact ⟨by rintro b ⟨⟩, fun _ _ => hno _ hphase⟩
    · rw [hphase]
      exact fun _ ho => ho
  · cases hread
    obtain ⟨⟨w, rest, hw, hreceived, hholds⟩, owed, hsent, howes⟩ := h
    rw [hphase] at hholds howes
    obtain rfl := hholds.buffer _ rfl
    refine ⟨?_, .inl ⟨rfl, ⟨w, rest ++ newData, hw, ?_, ?_⟩, owed, hsent, howes⟩⟩
    · intro b hb
      obtain rfl := Option.some.inj hb
      exact hfits
    · rw [hreceived, List.append_assoc]
    · constructor
      · intro b hb
        exact Option.some.inj hb
      · intro status hstatus
        cases hstatus
  · cases hread
    refine h.ends rfl ?_ ?_
    · rintro rest ⟨-, hno⟩
      exact ⟨by rintro b ⟨⟩, fun _ _ => hno _ hphase⟩
    · rw [hphase]
      exact fun _ ho => ho

theorem Session.Serves.written (h : s.Serves requests replies) (hf : s.phase.Fits)
    {response rest : Bytes} (hphase : s.phase = .writing response rest) :
    Session.Advances store store
      { s with phase := .flushing rest, sent := s.sent ++ [response] } requests replies := by
  rw [hphase] at hf
  refine ⟨hf, .inl ⟨rfl, h.keep ?_ ?_⟩⟩
  · rw [hphase]
    rintro b ⟨hb, -⟩
    exact ⟨hb, by rintro status ⟨⟩⟩
  · rw [hphase]
    rintro owed rfl
    exact ⟨[], (List.append_nil _).symm, rfl⟩

theorem Session.Serves.flushed (h : s.Serves requests replies) (hf : s.phase.Fits)
    {rest : Bytes} (hphase : s.phase = .flushing rest) :
    Session.Advances store store { s with phase := .handling rest } requests replies := by
  rw [hphase] at hf
  refine ⟨hf, .inl ⟨rfl, h.keep ?_ ?_⟩⟩
  · rw [hphase]
    rintro b ⟨hb, -⟩
    exact ⟨hb, by rintro status ⟨⟩⟩
  · rw [hphase]
    exact fun owed ho => ⟨owed, rfl, ho⟩

theorem Session.Serves.fail (h : s.Serves requests replies) :
    Session.Advances store store { s with phase := .lost } requests replies := by
  refine h.ends rfl ?_ ?_
  · intro rest _
    constructor
    · rintro b ⟨⟩
    · rintro status ⟨⟩
  · intro owed ho
    change owed.length ≤ 1
    cases hp : s.phase with
    | writing response rest =>
      rw [hp] at ho
      obtain rfl : owed = [response] := ho
      exact le_rfl
    | lost =>
      rw [hp] at ho
      exact ho
    | handling | flushing | resting =>
      rw [hp] at ho
      obtain rfl : owed = [] := ho
      exact Nat.zero_le 1

theorem Session.Serves.next (h : s.Serves requests replies) (hf : s.phase.Fits) {action : Action}
    (hnext : s.next store action = some (s', store')) :
    Session.Advances store store' s' requests replies := by
  cases action with
  | handle =>
    cases hp : s.phase with
    | handling buffer => exact h.handle hf hp hnext
    | writing | flushing | resting | lost => simp [Session.next, hp] at hnext
  | written =>
    cases hp : s.phase with
    | writing response rest =>
      simp only [Session.next, hp] at hnext
      cases hnext
      exact h.written hf hp
    | handling | flushing | resting | lost => simp [Session.next, hp] at hnext
  | flushed =>
    cases hp : s.phase with
    | flushing rest =>
      simp only [Session.next, hp] at hnext
      cases hnext
      exact h.flushed hf hp
    | handling | writing | resting | lost => simp [Session.next, hp] at hnext
  | read newData =>
    cases hp : s.phase with
    | resting status =>
      cases status with
      | waiting old =>
        simp only [Session.next, hp, Option.map_eq_some_iff] at hnext
        obtain ⟨s'', hread, heq⟩ := hnext
        cases heq
        exact h.read hp hread
      | disconnected | stopped | raised => simp [Session.next, hp] at hnext
    | handling | writing | flushing | lost => simp [Session.next, hp] at hnext
  | fail =>
    simp only [Session.next] at hnext
    split at hnext
    · cases hnext
      exact h.fail
    · cases hnext
      exact h.fail
    · cases hnext
      exact h.fail
    · cases hnext

end Next

namespace Server

variable {w w' : Server} {log : List (ℕ × Resp)}

theorem answers_concat (log : List (ℕ × Resp)) (i : ℕ) (resp : Resp) :
    answers (log ++ [(i, resp)]) = ((answers log).1 ++ [(i, (resp.answer (answers log).2).1)],
      (resp.answer (answers log).2).2) := replay_concat _ _ _ _

structure Inv (w : Server) (log : List (ℕ × Resp)) : Prop extends Linear w log where
  fits : ∀ s ∈ w.sessions, s.phase.Fits
  clients : ∀ p ∈ log, p.1 < w.sessions.length

theorem inv_start : Inv start [] where
  store := by
    ext1 k
    exact AList.lookup_empty k
  sessions := by simp [start]
  fits := by simp [start]
  clients := by simp

theorem Inv.accept (h : Inv w log) :
    Inv { w with sessions := w.sessions ++ [Session.accepted] } log where
  store := h.store
  sessions := by
    intro i s hs
    rcases lt_or_ge i w.sessions.length with hi | hi
    · rw [List.getElem?_append_left hi] at hs
      exact h.sessions i s hs
    · rw [List.getElem?_append_right hi, List.getElem?_singleton] at hs
      split_ifs at hs
      cases hs
      have hlog : ofClient i log = [] := by
        apply ofClient_eq_nil
        intro p hp
        have := h.clients p hp
        omega
      have hreplies : ofClient i (answers log).1 = [] := by
        apply ofClient_eq_nil
        intro p hp
        have hmem : p.1 ∈ log.map Prod.fst := by
          rw [← replay_clients]
          exact List.mem_map_of_mem hp
        obtain ⟨q, hq, heq⟩ := List.mem_map.mp hmem
        have := h.clients q hq
        omega
      rw [hlog, hreplies]
      refine ⟨⟨[], [], acceptsAll_nil, rfl, ?_, ?_⟩, [], rfl, rfl⟩
      · rintro b hb
        exact Option.some.inj hb
      · rintro status ⟨⟩
  fits := by
    intro s hs
    rcases List.mem_append.mp hs with hs | hs
    · exact h.fits s hs
    · obtain rfl := List.mem_singleton.mp hs
      intro b hb
      obtain rfl := Option.some.inj hb
      exact Nat.zero_le _
  clients := by
    intro p hp
    have := h.clients p hp
    rw [List.length_append]
    omega

/-- A connection advances: the log grows by the request that it performed, if any. -/
theorem Inv.advance (h : Inv w log) {i : ℕ} {s s' : Session} {store' : Store}
    (hs : w.sessions[i]? = some s)
    (hadv : Session.Advances w.store store' s' (ofClient i log) (ofClient i (answers log).1)) :
    ∃ more, (∀ p ∈ more, p.1 = i) ∧ Inv ⟨store', w.sessions.set i s'⟩ (log ++ more) := by
  have hi : i < w.sessions.length := (List.getElem?_eq_some_iff.mp hs).1
  obtain ⟨hfits, hadv⟩ := hadv
  have hfits' : ∀ s ∈ w.sessions.set i s', s.phase.Fits := by
    intro t ht
    rcases List.mem_or_eq_of_mem_set ht with ht | rfl
    · exact h.fits t ht
    · exact hfits
  rcases hadv with ⟨rfl, hserves⟩ | ⟨resp, rfl, hserves⟩
  · refine ⟨[], by simp, ?_⟩
    rw [List.append_nil]
    refine ⟨⟨h.store, ?_⟩, hfits', ?_⟩
    · intro j t ht
      rw [List.getElem?_set] at ht
      split_ifs at ht with hij
      · subst hij
        cases ht
        exact hserves
      · exact h.sessions j t ht
    · intro p hp
      rw [List.length_set]
      exact h.clients p hp
  · have hexec := execute_eq_perform w.store (parseCommand resp)
    rw [h.store] at hexec
    refine ⟨[(i, resp)], by simp, ⟨?_, ?_⟩, hfits', ?_⟩
    · rw [answers_concat]
      exact hexec.2
    · intro j t ht
      rw [answers_concat, ofClient_append, ofClient_append]
      rw [List.getElem?_set] at ht
      split_ifs at ht with hij
      · subst hij
        cases ht
        rw [ofClient_self, ofClient_self]
        rw [hexec.1] at hserves
        exact hserves
      · rw [ofClient_ne _ hij, ofClient_ne _ hij, List.append_nil, List.append_nil]
        exact h.sessions j t ht
    · intro p hp
      rw [List.length_set]
      rcases List.mem_append.mp hp with hp | hp
      · exact h.clients p hp
      · obtain rfl := List.mem_singleton.mp hp
        exact hi

theorem Inv.act (h : Inv w log) {i : ℕ} {action : Action}
    (hstep : Server.step w (.act i action) = some w') :
    ∃ more, (∀ p ∈ more, p.1 = i) ∧ Inv w' (log ++ more) := by
  simp only [Server.step, Option.bind_eq_bind, Option.bind_eq_some_iff] at hstep
  obtain ⟨s, hs, ⟨s', store'⟩, hnext, heq⟩ := hstep
  cases heq
  exact h.advance hs ((h.sessions i s hs).next (h.fits s (List.mem_of_getElem? hs)) hnext)

theorem Inv.step (h : Inv w log) {e : Event} (hstep : step w e = some w') :
    ∃ more, Inv w' (log ++ more) := by
  cases e with
  | accept =>
    cases hstep
    exact ⟨[], by rw [List.append_nil]; exact h.accept⟩
  | act i action =>
    obtain ⟨more, -, hinv⟩ := h.act hstep
    exact ⟨more, hinv⟩

theorem Inv.runs (h : Inv w log) (hr : Runs w w') : ∃ more, Inv w' (log ++ more) := by
  induction hr with
  | refl => exact ⟨[], by rwa [List.append_nil]⟩
  | tail _ hm ih =>
    obtain ⟨more, hinv⟩ := ih
    obtain ⟨e, -, hstep⟩ := hm
    obtain ⟨more', hinv'⟩ := hinv.step hstep
    exact ⟨more ++ more', by rwa [← List.append_assoc]⟩

/-- **The connections share one map.** What was performed before a moment stays before what is
performed after it. -/
theorem linear_runs (hr : Runs start w) (hr' : Runs w w') :
    ∃ log more, w.Linear log ∧ w'.Linear (log ++ more) := by
  obtain ⟨log, hinv⟩ := inv_start.runs hr
  rw [List.nil_append] at hinv
  obtain ⟨more, hinv'⟩ := hinv.runs hr'
  exact ⟨log, more, hinv.toLinear, hinv'.toLinear⟩

/-- A value set by one client and read by another, which has begun another request. -/
theorem linear_runs_set_get : ∃ w, (∃ log more, Server.Linear w log ∧ w.Linear (log ++ more)) ∧
    w.store.lookup (bytes "k") = some (bytes "v") := by
  have hruns : Runs start ⟨AList.insert (bytes "k") (bytes "v") ∅,
      [⟨.flushing [], bytes "*3\r\n+SET\r\n+k\r\n+v\r\n", [bytes "+OK\r\n"]⟩,
        ⟨.writing (encode (.bulkString (some (bytes "v")))) (bytes "*1"),
          bytes "*2\r\n+GET\r\n+k\r\n*1", []⟩]⟩ :=
    Reaches.of_foldlM [.accept, .accept, .act 0 .handle, .act 1 .handle,
      .act 0 (.read (bytes "*3\r\n+SET\r\n+k\r\n+v\r\n")),
      .act 1 (.read (bytes "*2\r\n+GET\r\n+k\r\n*1")), .act 0 .handle, .act 1 .handle,
      .act 0 .written] (fun _ _ => trivial) (by rfl)
  exact ⟨_, linear_runs hruns (Reaches.refl _), by decide⟩

section Alone

variable {i : ℕ} {s : Session} {buffer : Bytes}

/-- A connection handles what it has read, while the others and its peer are silent. -/
def Alone (i : ℕ) (_ : Server) (e : Event) : Prop :=
  e = .act i .handle ∨ e = .act i .written ∨ e = .act i .flushed

/-- The server after the loop of a connection has come to rest. -/
def afterLoop (w : Server) (i : ℕ) (s : Session) (c : Conn) : Server :=
  ⟨c.store, w.sessions.set i ⟨.resting c.status, s.received, c.responses⟩⟩

theorem step_act {action : Action} {s' : Session} {store : Store} (hs : w.sessions[i]? = some s)
    (hnext : s.next w.store action = some (s', store)) :
    step w (.act i action) = some ⟨store, w.sessions.set i s'⟩ := by
  simp only [step, hs, Option.bind_eq_bind, Option.bind_some, hnext]
  rfl

theorem getElem?_set_self' {α : Type} {xs : List α} {a b : α} (h : xs[i]? = some a) :
    (xs.set i b)[i]? = some b := by
  rw [List.getElem?_set_self (List.getElem?_eq_some_iff.mp h).1]

theorem reaches_afterLoop (hs : w.sessions[i]? = some s) (hphase : s.phase = .handling buffer)
    (hb : IsString buffer) :
    Reaches step (Alone i) w (afterLoop w i s (handleLoop s.sent w.store buffer)) := by
  induction hn : buffer.length using Nat.strong_induction_on generalizing w s buffer with
  | _ n ih =>
    rw [handleLoop_eq hb]
    cases hd : decode buffer with
    | error exn =>
      refine Reaches.head (.act i .handle) (.inl rfl) (step_act hs ?_) (Reaches.refl _)
      simp only [Session.next, hphase, handleRequest_eq, hd]
    | ok r =>
      cases r with
      | error msg =>
        refine Reaches.head (.act i .handle) (.inl rfl) (step_act hs ?_) (Reaches.refl _)
        simp only [Session.next, hphase, handleRequest_eq, hd]
      | ok p =>
        obtain ⟨resp, rest⟩ := p
        have hl := (decode_consumes hb resp rest hd).2
        set response := encode (execute w.store (parseCommand resp)).1 with hresponse
        set store := (execute w.store (parseCommand resp)).2 with hstore
        have hhandle : s.next w.store .handle =
            some ({ s with phase := .writing response rest }, store) := by
          simp only [Session.next, hphase, handleRequest_eq, hd]
          rfl
        have hself := getElem?_set_self' (b := { s with phase := .writing response rest }) hs
        have hself' :=
          getElem?_set_self' (b := ⟨.flushing rest, s.received, s.sent ++ [response]⟩) hs
        have hself'' :=
          getElem?_set_self' (b := ⟨.handling rest, s.received, s.sent ++ [response]⟩) hs
        refine Reaches.head (.act i .handle) (.inl rfl) (step_act hs hhandle) ?_
        refine Reaches.head (.act i .written) (.inr (.inl rfl)) (step_act hself rfl) ?_
        rw [List.set_set]
        refine Reaches.head (.act i .flushed) (.inr (.inr rfl)) (step_act hself' rfl) ?_
        rw [List.set_set]
        have hmore := ih rest.length (by omega)
          (w := ⟨store, w.sessions.set i ⟨.handling rest, s.received, s.sent ++ [response]⟩⟩)
          hself'' rfl (hb.trans' hl.le) rfl
        rw [afterLoop, List.set_set] at hmore
        exact hmore

/-- Unless a channel fails, the loop comes to rest. -/
theorem reaches_rest (hs : w.sessions[i]? = some s) (hf : s.phase.Fits) (hp : s.phase ≠ .lost) :
    ∃ store s' status, Reaches step (Alone i) w ⟨store, w.sessions.set i s'⟩ ∧
      s'.phase = .resting status ∧ s'.received = s.received := by
  have hhandling : ∀ sent buffer, IsString buffer →
      Reaches step (Alone i) w ⟨w.store, w.sessions.set i ⟨.handling buffer, s.received, sent⟩⟩ →
      ∃ store s' status, Reaches step (Alone i) w ⟨store, w.sessions.set i s'⟩ ∧
        s'.phase = .resting status ∧ s'.received = s.received := by
    intro sent buffer hb hr
    have hloop := reaches_afterLoop (getElem?_set_self' hs) rfl hb
      (w := ⟨w.store, w.sessions.set i ⟨.handling buffer, s.received, sent⟩⟩)
    rw [afterLoop, List.set_set] at hloop
    exact ⟨_, _, _, hr.trans hloop, rfl, rfl⟩
  obtain ⟨phase, received, sent⟩ := s
  have hset : w.sessions.set i ⟨phase, received, sent⟩ = w.sessions := by
    obtain ⟨hi, hget⟩ := List.getElem?_eq_some_iff.mp hs
    rw [← hget, List.set_getElem_self]
  cases phase with
  | handling buffer =>
    exact hhandling sent buffer (hf buffer rfl) (by rw [hset]; exact Reaches.refl _)
  | writing response rest =>
    have hself := getElem?_set_self' (b := ⟨.flushing rest, received, sent ++ [response]⟩) hs
    apply hhandling (sent ++ [response]) rest (hf rest rfl)
    refine Reaches.head (.act i .written) (.inr (.inl rfl)) (step_act hs rfl) ?_
    refine Reaches.head (.act i .flushed) (.inr (.inr rfl)) (step_act hself rfl) ?_
    rw [List.set_set]
    exact Reaches.refl _
  | flushing rest =>
    apply hhandling sent rest (hf rest rfl)
    refine Reaches.head (.act i .flushed) (.inr (.inr rfl)) (step_act hs rfl) ?_
    exact Reaches.refl _
  | resting status =>
    exact ⟨w.store, _, status, by rw [hset]; exact Reaches.refl _, rfl, rfl⟩
  | lost => exact absurd rfl hp

/-- Left alone, a connection only adds its own requests to the log. -/
theorem Inv.alone (h : Inv w log) (hr : Reaches Server.step (Alone i) w w') :
    ∃ more, (∀ p ∈ more, p.1 = i) ∧ Inv w' (log ++ more) := by
  induction hr with
  | refl => exact ⟨[], by simp, by rwa [List.append_nil]⟩
  | tail _ hm ih =>
    obtain ⟨more, hown, hinv⟩ := ih
    obtain ⟨e, halone, hstep⟩ := hm
    obtain ⟨action, rfl⟩ : ∃ action, e = .act i action := by
      rcases halone with rfl | rfl | rfl <;> exact ⟨_, rfl⟩
    obtain ⟨more', hown', hinv'⟩ := hinv.act hstep
    refine ⟨more ++ more', fun p hp => ?_, by rwa [← List.append_assoc]⟩
    rcases List.mem_append.mp hp with hp | hp
    · exact hown p hp
    · exact hown' p hp

/-- **No connection needs another one to be served.** The log of the server grows by requests of
this connection only, and the connection has been sent the replies of the log. -/
theorem answers_alone (hr : Runs start w) (hs : w.sessions[i]? = some s) (hp : s.phase ≠ .lost) :
    ∃ log more w' s' status, w.Linear log ∧ Reaches step (Alone i) w w' ∧
      w'.Linear (log ++ more) ∧ (∀ p ∈ more, p.1 = i) ∧ w'.sessions = w.sessions.set i s' ∧
      s'.phase = .resting status ∧ s'.received = s.received ∧
      s'.Answered (ofClient i (log ++ more)) (ofClient i (answers (log ++ more)).1) := by
  obtain ⟨log, hinv⟩ := inv_start.runs hr
  obtain ⟨store', s', status, hreaches, hrest, hreceived⟩ :=
    reaches_rest hs (hinv.fits s (List.mem_of_getElem? hs)) hp
  obtain ⟨more, hown, hinv'⟩ := hinv.alone hreaches
  rw [List.nil_append] at hinv hinv'
  refine ⟨log, more, _, s', status, hinv.toLinear, hreaches, hinv'.toLinear, hown, rfl, hrest,
    hreceived, ?_⟩
  obtain ⟨⟨v, rest, hv, hrec, hholds⟩, owed, hsent, howes⟩ :=
    hinv'.sessions i s' (getElem?_set_self' hs)
  rw [hrest] at howes
  obtain rfl : owed = [] := howes
  exact ⟨v, rest, hv, hrec, hholds.noRequest status hrest, (hsent.trans (List.append_nil _)).symm⟩

/-- A value that another client, which still waits for its reply, has set. -/
theorem answers_alone_get : ∃ w, w.sessions[0]? = some (⟨.writing (bytes "+OK\r\n") [],
      bytes "*3\r\n+SET\r\n+k\r\n+v\r\n", []⟩ : Session) ∧
    ∃ log more w' s' status, Server.Linear w log ∧ Reaches step (Alone 1) w w' ∧
      w'.Linear (log ++ more) ∧ (∀ p ∈ more, p.1 = 1) ∧ w'.sessions = w.sessions.set 1 s' ∧
      s'.phase = .resting status ∧ s'.received = bytes "*2\r\n+GET\r\n+k\r\n*" ∧
      s'.Answered (ofClient 1 (log ++ more)) (ofClient 1 (answers (log ++ more)).1) := by
  have hruns : Runs start ⟨AList.insert (bytes "k") (bytes "v") ∅,
      [⟨.writing (bytes "+OK\r\n") [], bytes "*3\r\n+SET\r\n+k\r\n+v\r\n", []⟩,
        ⟨.handling (bytes "*2\r\n+GET\r\n+k\r\n*"), bytes "*2\r\n+GET\r\n+k\r\n*", []⟩]⟩ :=
    Reaches.of_foldlM [.accept, .act 0 .handle, .accept, .act 1 .handle,
      .act 0 (.read (bytes "*3\r\n+SET\r\n+k\r\n+v\r\n")),
      .act 1 (.read (bytes "*2\r\n+GET\r\n+k\r\n*")), .act 0 .handle] (fun _ _ => trivial) (by rfl)
  exact ⟨_, rfl, answers_alone (i := 1) hruns rfl Phase.noConfusion⟩

end Alone

end Server

end OCamlStudy.MiniRedis
