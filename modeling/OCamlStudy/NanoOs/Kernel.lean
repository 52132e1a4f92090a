import OCamlStudy.NanoOs.Duplex
import OCamlStudy.NanoOs.Linearize
import OCamlStudy.NanoOs.Receivable

/-! # The kernel and its client

The client sends its lines to the kernel, which starts a request for each message
that its stack hands over and sends the reply back as soon as the request has
ended. The network loses, repeats and reorders packets, and requests take turns.
The stack of the client hands each reply to the handler that prints it.
-/

namespace OCamlStudy.NanoOs

open OCaml Program Shell

variable {n : ℕ} {dev : Device n}

namespace World

variable {w w' : World dev} {i j : ℕ} {reply : Bytes}

/-- A request that has just come in. -/
def arrive (w : World dev) (cmdStr : Bytes) : World dev :=
  { w with requests := w.requests ++ [.waiting cmdStr (dev.contents w.disk)] }

def replyOf (w : World dev) (i : ℕ) : Option Bytes := do
  let r ← w.requests[i]?
  match r.started, r.prog with
  | true, .ret reply => some reply
  | _, _ => none

theorem replyOf_eq_some_iff : w.replyOf i = some reply ↔ w.Replied i reply := by
  rw [replyOf, Replied]
  cases w.requests[i]? with
  | none => simp
  | some r => cases hs : r.started <;> cases hp : r.prog <;> simp [hs, hp]

theorem Replied.lt_length (h : w.Replied i reply) : i < w.requests.length := by
  obtain ⟨r, hr, -⟩ := h
  exact (List.getElem?_eq_some_iff.mp hr).1

theorem Replied.unique {reply' : Bytes} (h : w.Replied i reply) (h' : w.Replied i reply') :
    reply = reply' := by
  rw [← replyOf_eq_some_iff] at h h'
  exact Option.some.inj (h.symm.trans h')

/-- A turn changes one request, which has not ended before. -/
theorem step_requests (h : w.step i = some w') : (∀ reply, ¬ w.Replied i reply) ∧
    w'.requests.map Request.cmdStr = w.requests.map Request.cmdStr ∧
    ∀ j, j ≠ i → w'.requests[j]? = w.requests[j]? := by
  have hset : ∀ {r r' : Request}, w.requests[i]? = some r → r'.cmdStr = r.cmdStr →
      (w.requests.set i r').map Request.cmdStr = w.requests.map Request.cmdStr ∧
        ∀ j, j ≠ i → (w.requests.set i r')[j]? = w.requests[j]? := by
    intro r r' hr hcmd
    exact ⟨map_cmdStr_set hr hcmd, fun j hj => List.getElem?_set_ne (Ne.symm hj)⟩
  obtain ⟨r, hr, h⟩ := Option.bind_eq_some_iff.mp h
  have hreplied : ∀ reply, w.Replied i reply → r.started = true ∧ r.prog = .ret reply := by
    rintro reply ⟨r', hr', hs, hp⟩
    obtain rfl := Option.some.inj (hr.symm.trans hr')
    exact ⟨hs, hp⟩
  split_ifs at h with hs
  · cases hp : r.prog with
    | call q k =>
      constructor
      · intro reply hi
        cases hp.symm.trans (hreplied reply hi).2
      · rw [hp] at h
        dsimp only at h
        rcases hq : dev.handler q w.disk with ⟨_ | _ | _, disk⟩
        · rw [hq] at h
          cases h
          exact hset hr (Request.observe_cmdStr _ _ _)
        · rw [hq] at h
          cases h
          exact hset hr rfl
        · rw [hq] at h
          cases h
    | ret | raise | get | set =>
      rw [hp] at h
      cases h
  · refine ⟨fun reply hi => absurd (hreplied reply hi).1 hs, ?_⟩
    cases h
    exact hset hr rfl

theorem Replied.of_step (h : w.step i = some w') (hj : w.Replied j reply) : w'.Replied j reply := by
  obtain ⟨hnot, -, hother⟩ := step_requests h
  have hne : j ≠ i := by
    rintro rfl
    exact hnot reply hj
  obtain ⟨r, hr, hend⟩ := hj
  exact ⟨r, (hother j hne).trans hr, hend⟩

theorem Replied.before_step (h : w.step i = some w') (hne : j ≠ i) (hj : w'.Replied j reply) :
    w.Replied j reply := by
  obtain ⟨-, -, hother⟩ := step_requests h
  obtain ⟨r, hr, hend⟩ := hj
  exact ⟨r, (hother j hne).symm.trans hr, hend⟩

theorem replied_arrive {cmdStr : Bytes} :
    (w.arrive cmdStr).Replied j reply ↔ w.Replied j reply := by
  constructor
  · rintro ⟨r, hr, hs, hp⟩
    rcases getElem?_concat_eq_some hr with hold | ⟨-, rfl⟩
    · exact ⟨r, hold, hs, hp⟩
    · cases hs
  · rintro ⟨r, hr, hend⟩
    refine ⟨r, ?_, hend⟩
    rw [arrive, List.getElem?_append_left (List.getElem?_eq_some_iff.mp hr).1, hr]

end World

structure Kernel {n : ℕ} (dev : Device n) where
  net : Duplex
  world : World dev
  /-- The requests that were replied to, in the order of the replies. -/
  answered : List ℕ

namespace Kernel

inductive Event where
  | network (e : Duplex.Event)
  | turn (i : ℕ)

/-- A request takes its turn, and its reply is sent as soon as it has one. -/
def turn (k : Kernel dev) (i : ℕ) : Option (Kernel dev) := do
  let world ← k.world.step i
  match world.replyOf i with
  | none => return { k with world }
  | some reply =>
    let net ← k.net.step (.down (.send reply))
    return { net, world, answered := k.answered ++ [i] }

/-- The callback of the listener, which starts the request. -/
def accept (k : Kernel dev) (c : Callback) : Option (Kernel dev) :=
  { k with world := k.world.arrive c.payload }.turn k.world.requests.length

def step (k : Kernel dev) : Event → Option (Kernel dev)
  | .network (.down (.send _)) => none
  | .network e => do
    let net ← k.net.step e
    (net.requests.callbacks.drop k.net.requests.callbacks.length).foldlM accept { k with net }
  | .turn i => k.turn i

/-- The network of a run. -/
def WithinWindow (k : Kernel dev) : Event → Prop
  | .network e => k.net.WithinWindow e
  | .turn _ => True

instance (k : Kernel dev) (e : Event) : Decidable (k.WithinWindow e) :=
  match e with
  | .network e => inferInstanceAs (Decidable (k.net.WithinWindow e))
  | .turn _ => inferInstanceAs (Decidable True)

/-- The request is the message of a call of the client. -/
def Asked (k : Kernel dev) (i j : ℕ) : Prop :=
  ∃ c m r, k.net.requests.callbacks[j]? = some c ∧ c.origin = i ∧
    k.net.up.message i = some m ∧ k.world.requests[j]? = some r ∧ r.cmdStr = m.payload

/-- What the handler of the client was given is the reply to the request. -/
def Told (k : Kernel dev) (p j : ℕ) : Prop :=
  ∃ c, k.net.responses.callbacks[p]? = some c ∧ k.answered[c.origin]? = some j ∧
    k.world.Replied j c.payload

/-- A kernel that has just booted, and a client. -/
structure Initial (k : Kernel dev) : Prop where
  net : k.net.Initial
  requests : k.world.requests = []
  answered : k.answered = []

theorem step_network {k k' : Kernel dev} {e : Duplex.Event} (h : k.step (.network e) = some k') :
    (∀ msgStr, e ≠ .down (.send msgStr)) ∧ ∃ net, k.net.step e = some net ∧
      (net.requests.callbacks.drop k.net.requests.callbacks.length).foldlM accept { k with net } =
        some k' := by
  unfold step at h
  split at h
  · cases h
  · rename_i e' hne he
    cases he
    refine ⟨?_, Option.bind_eq_some_iff.mp h⟩
    rintro msgStr rfl
    exact hne msgStr rfl
  · rename_i he
    cases he

/-- The messages in `rest` have been handed over and not been accepted yet. -/
structure Serving (first second : ℤ) (k : Kernel dev) (rest : List Callback) : Prop where
  net : Duplex.Unreused first second k.net
  commands : k.world.requests.map Request.cmdStr ++ rest.map Callback.payload =
    k.net.requests.callbacks.map Callback.payload
  replies : List.Forall₂ (fun (m : Stack.Message) i => k.world.Replied i m.payload)
    (k.net.responses.sends.map Stack.Sending.msg) k.answered
  nodup : k.answered.Nodup
  complete : ∀ i reply, k.world.Replied i reply → i ∈ k.answered

theorem length_le_of_nodup {l : List ℕ} {b : ℕ} (h : l.Nodup) (hlt : ∀ i ∈ l, i < b) :
    l.length ≤ b := by
  have hsub := List.subperm_of_subset h fun i hi => List.mem_range.mpr (hlt i hi)
  simpa using hsub.length_le

theorem index_unique {α β : Type} {l : List α} {f : α → β} (h : (l.map f).Nodup) {a b : α}
    {i j : ℕ} (hi : l[i]? = some a) (hj : l[j]? = some b) (hf : f a = f b) : i = j := by
  have hlt : i < (l.map f).length := by
    rw [List.length_map]
    exact (List.getElem?_eq_some_iff.mp hi).1
  apply (List.getElem?_inj hlt h).mp
  rw [List.getElem?_map, List.getElem?_map, hi, hj, Option.map_some, Option.map_some, hf]

section Serving

variable {k k' : Kernel dev} {first second : ℤ} {rest : List Callback} {i : ℕ}

theorem Serving.length_le (hs : Serving first second k rest) :
    k.world.requests.length ≤ k.net.requests.sends.length := by
  have hcommands := congrArg List.length hs.commands
  have hcalls : (k.net.up.callbacks.map Callback.origin).length ≤ k.net.up.sends.length := by
    refine length_le_of_nodup hs.net.up.once ?_
    intro a ha
    obtain ⟨c, hc, rfl⟩ := List.mem_map.mp ha
    obtain ⟨m, hm, -⟩ := hs.net.up.linked.callback c hc
    exact System.lt_of_message hm
  rw [List.length_append, List.length_map, List.length_map, List.length_map] at hcommands
  rw [List.length_map] at hcalls
  have hcallbacks : k.net.up.callbacks.length = k.net.requests.callbacks.length := rfl
  have hsends : k.net.up.sends.length = k.net.requests.sends.length := rfl
  omega

theorem Serving.answered_lt (hs : Serving first second k rest) :
    ∀ i ∈ k.answered, i < k.world.requests.length := by
  intro i hi
  obtain ⟨j, hj, rfl⟩ := List.mem_iff_getElem.mp hi
  have hlen := hs.replies.length_eq
  exact (List.Forall₂.get hs.replies (hlen ▸ hj) hj).lt_length

theorem Serving.sends_le (hs : Serving first second k rest) :
    k.net.responses.sends.length ≤ k.world.requests.length := by
  have hlen := hs.replies.length_eq
  have hbound := length_le_of_nodup hs.nodup hs.answered_lt
  rw [List.length_map] at hlen
  omega

theorem Serving.sends_lt (hs : Serving first second k rest) (hi : i < k.world.requests.length)
    (hnew : i ∉ k.answered) : k.net.responses.sends.length < 256 := by
  have hlen := hs.replies.length_eq
  have hle := hs.length_le
  have hcalls : k.net.requests.sends.length ≤ 256 := hs.net.up.sends
  have hnodup : (i :: k.answered).Nodup := List.nodup_cons.mpr ⟨hnew, hs.nodup⟩
  have hbound := length_le_of_nodup (b := k.world.requests.length) hnodup ?_
  · rw [List.length_cons] at hbound
    rw [List.length_map] at hlen
    omega
  · intro j hj
    rcases List.mem_cons.mp hj with rfl | hold
    · exact hi
    · exact hs.answered_lt j hold

theorem Serving.turn (hs : Serving first second k rest) (h : k.turn i = some k') :
    Serving first second k' rest := by
  obtain ⟨world, hworld, h⟩ := Option.bind_eq_some_iff.mp h
  obtain ⟨hnot, hcommands, -⟩ := World.step_requests hworld
  have hreplies : List.Forall₂ (fun (m : Stack.Message) i => world.Replied i m.payload)
      (k.net.responses.sends.map Stack.Sending.msg) k.answered :=
    hs.replies.imp fun m j hj => hj.of_step hworld
  cases hreply : world.replyOf i with
  | none =>
    rw [hreply] at h
    cases h
    refine ⟨hs.net, hcommands.symm ▸ hs.commands, hreplies, hs.nodup, ?_⟩
    intro j reply hj
    have hne : j ≠ i := by
      rintro rfl
      rw [World.replyOf_eq_some_iff.mpr hj] at hreply
      cases hreply
    exact hs.complete j reply (hj.before_step hworld hne)
  | some reply =>
    rw [hreply] at h
    obtain ⟨net, hnet, h⟩ := Option.bind_eq_some_iff.mp h
    cases h
    have hend := World.replyOf_eq_some_iff.mp hreply
    have hnew : i ∉ k.answered := by
      intro hmem
      obtain ⟨j, hj, rfl⟩ := List.mem_iff_getElem.mp hmem
      have hlen := hs.replies.length_eq
      exact hnot _ (List.Forall₂.get hs.replies (hlen ▸ hj) hj)
    have hlt : i < k.world.requests.length := by
      have := hend.lt_length
      rwa [← List.length_map (f := Request.cmdStr), hcommands, List.length_map] at this
    obtain ⟨hrequests, call, hsends, hpayload⟩ := Duplex.step_reply hnet
    constructor
    · have hw : k.net.WithinWindow (.down (.send reply)) := hs.sends_lt hlt hnew
      exact hs.net.step hw hnet
    · rw [hrequests, hcommands]
      exact hs.commands
    · rw [hsends, List.map_append]
      exact List.rel_append hreplies (.cons (by rwa [hpayload]) .nil)
    · rw [List.nodup_append]
      refine ⟨hs.nodup, List.nodup_singleton i, ?_⟩
      rintro a ha b hb rfl
      exact hnew (List.mem_singleton.mp hb ▸ ha)
    · intro j reply' hj
      by_cases hne : j = i
      · subst hne
        exact List.mem_append_right _ (List.mem_singleton_self _)
      · exact List.mem_append_left _ (hs.complete j reply' (hj.before_step hworld hne))

theorem Serving.arrive {c : Callback} (hs : Serving first second k (c :: rest)) :
    Serving first second { k with world := k.world.arrive c.payload } rest where
  net := hs.net
  commands := by
    rw [World.arrive, List.map_append, List.append_assoc]
    exact hs.commands
  replies := hs.replies.imp fun m j hj => World.replied_arrive.mpr hj
  nodup := hs.nodup
  complete j reply hj := hs.complete j reply (World.replied_arrive.mp hj)

theorem Serving.accept {c : Callback} (hs : Serving first second k (c :: rest))
    (h : k.accept c = some k') : Serving first second k' rest := hs.arrive.turn h

theorem Serving.accept_all (hs : Serving first second k rest)
    (h : rest.foldlM Kernel.accept k = some k') : Serving first second k' [] := by
  induction rest generalizing k with
  | nil =>
    cases h
    exact hs
  | cons c rest ih =>
    rw [List.foldlM_cons] at h
    obtain ⟨k₁, h₁, h⟩ := Option.bind_eq_some_iff.mp h
    exact ih (hs.accept h₁) h

/-- The messages that the network has handed over are to be accepted. -/
theorem Serving.network {e : Duplex.Event} {net : Duplex} (hs : Serving first second k [])
    (hw : k.net.WithinWindow e) (hne : ∀ msgStr, e ≠ .down (.send msgStr))
    (h : k.net.step e = some net) : Serving first second { k with net }
      (net.requests.callbacks.drop k.net.requests.callbacks.length) := by
  obtain ⟨new, hnew⟩ := hs.net.callbacks_append h
  refine ⟨hs.net.step hw h, ?_, hs.net.msgs hne h ▸ hs.replies, hs.nodup, hs.complete⟩
  rw [hnew, List.drop_left, List.map_append, ← hs.commands]
  simp

/-- **One event of the kernel and its client.** -/
theorem Serving.step {e : Event} (hs : Serving first second k []) (hw : k.WithinWindow e)
    (h : k.step e = some k') : Serving first second k' [] := by
  cases e with
  | turn i => exact hs.turn h
  | network e =>
    obtain ⟨hne, net, hnet, h⟩ := step_network h
    exact (hs.network hw hne hnet).accept_all h

theorem Initial.serving (hi : k.Initial) :
    Serving k.net.client.nextSeq k.net.server.nextSeq k [] where
  net := hi.net.unreused
  commands := by
    rw [hi.requests, congrArg Lane.callbacks hi.net.requests]
    rfl
  replies := by
    rw [hi.answered, congrArg Lane.sends hi.net.responses]
    exact .nil
  nodup := hi.answered ▸ List.nodup_nil
  complete i reply h := by
    obtain ⟨r, hr, -⟩ := h
    rw [hi.requests] at hr
    cases hr

theorem Serving.run (hs : Serving first second k [])
    (hrun : Reaches Kernel.step WithinWindow k k') :
    Serving first second k' [] :=
  hrun.invariant (I := fun k => Serving first second k []) (fun _ _ _ hs hw h => hs.step hw h) hs

variable (hs : Serving first second k [])

include hs

theorem Serving.getElem?_callbacks {j : ℕ} {r : Request} (hr : k.world.requests[j]? = some r) :
    ∃ c, k.net.requests.callbacks[j]? = some c ∧ r.cmdStr = c.payload := by
  have hcommands := hs.commands
  rw [List.map_nil, List.append_nil] at hcommands
  have hget : (k.net.requests.callbacks.map Callback.payload)[j]? = some r.cmdStr := by
    rw [← hcommands, List.getElem?_map, hr]
    rfl
  rw [List.getElem?_map] at hget
  obtain ⟨c, hc, hpayload⟩ := Option.map_eq_some_iff.mp hget
  exact ⟨c, hc, hpayload.symm⟩

theorem Serving.length_eq : k.world.requests.length = k.net.requests.callbacks.length := by
  have hcommands := congrArg List.length hs.commands
  rwa [List.map_nil, List.append_nil, List.length_map, List.length_map] at hcommands

theorem Serving.asked_of_callback {j : ℕ} {c : Callback}
    (hc : k.net.requests.callbacks[j]? = some c) : k.Asked c.origin j := by
  have hj := (List.getElem?_eq_some_iff.mp hc).1
  obtain ⟨c', hc', hcmd⟩ := hs.getElem?_callbacks (List.getElem?_eq_getElem (hs.length_eq ▸ hj))
  obtain rfl := Option.some.inj (hc.symm.trans hc')
  obtain ⟨m, hm, hpayload, -⟩ := hs.net.up.linked.callback c (List.mem_of_getElem? hc)
  exact ⟨c, m, _, hc, rfl, hm, List.getElem?_eq_getElem (hs.length_eq ▸ hj), hcmd.trans hpayload⟩

theorem Serving.asked_unique {j j' : ℕ} (h : k.Asked i j) (h' : k.Asked i j') : j' = j := by
  obtain ⟨c, -, -, hc, hi, -⟩ := h
  obtain ⟨c', -, -, hc', hi', -⟩ := h'
  exact index_unique hs.net.up.once hc' hc (hi'.trans hi.symm)

theorem Serving.told_of_callback {p : ℕ} {c : Callback}
    (hc : k.net.responses.callbacks[p]? = some c) :
    ∃ j, k.answered[c.origin]? = some j ∧ k.Told p j := by
  obtain ⟨m, hm, hpayload, -⟩ := hs.net.down.linked.callback c (List.mem_of_getElem? hc)
  rw [System.message_def] at hm
  obtain ⟨hlt, hget⟩ := List.getElem?_eq_some_iff.mp hm
  have hlt' := hs.replies.length_eq ▸ hlt
  have hreplied := List.Forall₂.get hs.replies hlt hlt'
  have hj := List.getElem?_eq_getElem hlt'
  refine ⟨_, hj, c, hc, hj, ?_⟩
  rw [hpayload, ← hget]
  exact hreplied

theorem Serving.told_unique {p p' : ℕ} (h : k.Told p i) (h' : k.Told p' i) : p' = p := by
  obtain ⟨c, hc, hi, -⟩ := h
  obtain ⟨c', hc', hi', -⟩ := h'
  have hlt := (List.getElem?_eq_some_iff.mp hi').1
  exact index_unique hs.net.down.once hc' hc
    ((List.getElem?_inj hlt hs.nodup).mp (hi'.trans hi.symm))

end Serving

/-- Every turn finds what its request relies on undisturbed, and every line is admissible. -/
def Undisturbed (k : Kernel dev) : Event → Prop
  | .network (.up (.send msgStr)) => (parse msgStr).Admissible
  | .network _ => True
  | .turn i => k.world.Undisturbed i

/-- An event of a run in which no turn disturbs another request. -/
def Orderly (k : Kernel dev) (e : Event) : Prop := k.WithinWindow e ∧ k.Undisturbed e

def command (k : Kernel dev) (j : ℕ) : Bytes := (k.world.requests.map Request.cmdStr).getD j []

/-- The requests that have taken effect are a sequential run from the given files. -/
structure Serialized (fs₀ : Fs) (s₀ : dev.State) (k : Kernel dev) : Prop where
  admissible : ∀ m ∈ k.net.requests.sends.map Stack.Sending.msg, (parse m.payload).Admissible
  serial : ∃ entries log,
    Serial (k.world.requests.map Request.cmdStr) fs₀ s₀ k.world entries log

section Serialized

variable {k k' : Kernel dev} {first second : ℤ} {rest : List Callback} {i : ℕ} {fs₀ : Fs}
  {s₀ : dev.State}

theorem serial_arrive {cmds : List Bytes} {w : World dev} {entries : List Entry}
    {log : List (ℕ × Bytes)} (h : Serial cmds fs₀ s₀ w entries log) (cmdStr : Bytes) :
    Serial (cmds ++ [cmdStr]) fs₀ s₀ (w.arrive cmdStr) entries log where
  mounted := h.mounted
  commands := by
    rw [World.arrive, List.map_append, h.commands]
    rfl
  nodup := h.nodup
  stage i r hr := by
    rcases getElem?_concat_eq_some hr with hold | ⟨rfl, rfl⟩
    · exact h.stage i r hold
    · refine ⟨none, .waiting rfl rfl rfl, fun reply => ?_⟩
      constructor
      · intro hnone
        cases hnone
      · intro hmem
        have hlt := h.logged _ hmem
        rw [← h.commands, List.length_map] at hlt
        exact absurd hlt (lt_irrefl _)
  logged p hp := by
    have := h.logged p hp
    rw [List.length_append]
    omega
  serial := by
    obtain ⟨s, hrun, hrest⟩ := h.serial
    refine ⟨s, ?_, hrest⟩
    have hcmds : log.map (fun p => (cmds ++ [cmdStr]).getD p.1 []) =
        log.map fun p => cmds.getD p.1 [] := by
      refine List.map_congr_left fun p hp => ?_
      rw [List.getD_eq_getElem?_getD, List.getElem?_append_left (h.logged p hp),
      List.getD_eq_getElem?_getD]
    rwa [hcmds]

theorem Serving.admissible (hs : Serving first second k rest) (hz : Serialized fs₀ s₀ k) :
    ∀ cmdStr ∈ k.world.requests.map Request.cmdStr, (parse cmdStr).Admissible := by
  intro cmdStr hmem
  have hcalls := List.mem_append_left (rest.map Callback.payload) hmem
  rw [hs.commands] at hcalls
  obtain ⟨c, hc, rfl⟩ := List.mem_map.mp hcalls
  obtain ⟨m, hm, hpayload, -⟩ := hs.net.up.linked.callback c hc
  rw [System.message_def] at hm
  rw [hpayload]
  exact hz.admissible m (List.mem_of_getElem? hm)

theorem Serialized.turn (h5 : 5 ≤ n) (hn : n < 2 ^ 31) (hs : Serving first second k rest)
    (hz : Serialized fs₀ s₀ k) (hu : k.world.Undisturbed i) (h : k.turn i = some k') :
    Serialized fs₀ s₀ k' := by
  obtain ⟨world, hworld, h⟩ := Option.bind_eq_some_iff.mp h
  obtain ⟨entries, log, hserial⟩ := hz.serial
  obtain ⟨entries', log', hserial'⟩ := hserial.turn h5 hn (hs.admissible hz) hu hworld
  rw [← (World.step_requests hworld).2.1] at hserial'
  cases hreply : world.replyOf i with
  | none =>
    rw [hreply] at h
    cases h
    exact ⟨hz.admissible, entries', log', hserial'⟩
  | some reply =>
    rw [hreply] at h
    obtain ⟨net, hnet, h⟩ := Option.bind_eq_some_iff.mp h
    cases h
    refine ⟨?_, entries', log', hserial'⟩
    rw [(Duplex.step_reply hnet).1]
    exact hz.admissible

theorem Serialized.arrive (hz : Serialized fs₀ s₀ k) (cmdStr : Bytes) :
    Serialized fs₀ s₀ { k with world := k.world.arrive cmdStr } := by
  obtain ⟨entries, log, hserial⟩ := hz.serial
  refine ⟨hz.admissible, entries, log, ?_⟩
  have hcmds : (k.world.arrive cmdStr).requests.map Request.cmdStr =
      k.world.requests.map Request.cmdStr ++ [cmdStr] := by
    rw [World.arrive, List.map_append]
    rfl
  rw [hcmds]
  exact serial_arrive hserial cmdStr

theorem undisturbed_arrive (w : World dev) (cmdStr : Bytes) :
    (w.arrive cmdStr).Undisturbed w.requests.length := by
  intro r hr hs
  rw [World.arrive, List.getElem?_concat_length] at hr
  cases hr
  cases hs

theorem Serialized.accept_all (h5 : 5 ≤ n) (hn : n < 2 ^ 31) (hs : Serving first second k rest)
    (hz : Serialized fs₀ s₀ k) (h : rest.foldlM Kernel.accept k = some k') :
    Serialized fs₀ s₀ k' := by
  induction rest generalizing k with
  | nil =>
    cases h
    exact hz
  | cons c rest ih =>
    rw [List.foldlM_cons] at h
    obtain ⟨k₁, h₁, h⟩ := Option.bind_eq_some_iff.mp h
    exact ih (hs.accept h₁)
      ((hz.arrive c.payload).turn h5 hn (hs.arrive) (undisturbed_arrive k.world c.payload) h₁) h

theorem Serialized.step {e : Event} (h5 : 5 ≤ n) (hn : n < 2 ^ 31)
    (hs : Serving first second k []) (hz : Serialized fs₀ s₀ k) (hw : k.WithinWindow e)
    (hu : k.Undisturbed e) (h : k.step e = some k') : Serialized fs₀ s₀ k' := by
  cases e with
  | turn i => exact hz.turn h5 hn hs hu h
  | network e =>
    obtain ⟨hne, net, hnet, h⟩ := step_network h
    refine Serialized.accept_all h5 hn (hs.network hw hne hnet) ⟨?_, hz.serial⟩ h
    rcases hs.net.request_msgs hnet with hmsgs | ⟨m, rfl, hmsgs⟩
    · rw [hmsgs]
      exact hz.admissible
    · rw [hmsgs]
      intro m' hm'
      rcases List.mem_append.mp hm' with hold | hnew
      · exact hz.admissible m' hold
      · rw [List.mem_singleton.mp hnew]
        exact hu

end Serialized

end Kernel

end OCamlStudy.NanoOs
