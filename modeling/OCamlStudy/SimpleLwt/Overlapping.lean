import OCamlStudy.Program.Run
import OCamlStudy.SimpleLwt.Server

/-! # Requests that overlap

The server waits for the body of a `POST`, and calls `callback` for other
requests in the meantime. The store changes only in the turn that answers, so the
answers are those of the requests one after the other, in the order in which they
are given.
-/

namespace OCamlStudy.SimpleLwt

open OCaml JsonParser Program

instance (req : Request) : Decidable req.IsSet :=
  inferInstanceAs (Decidable (req.meth = .post ∧ req.path = bytes "/set"))

/-- The requests in the order of their arrival, by which they are numbered, those whose bodies are
awaited, the answers in the order in which they were given, and the answers to requests whose bodies
could not be read. -/
structure Server where
  store : Store
  requests : List Request
  awaited : List ℕ
  answers : List (ℕ × Request × Response)
  unread : List (ℕ × Response)

def Server.start : Server := ⟨∅, [], [], [], []⟩

/-- What `Cohttp_lwt.Body.to_string` raises: a `Failure`, or an exception with its text. -/
inductive BodyError where
  | failure (msg : String)
  | other (text : String)

def BodyError.response : BodyError → Response
  | .failure msg => ⟨.badRequest, bytes msg⟩
  | .other text => ⟨.internalServerError, bytes ("Unexpected error: " ++ text)⟩

inductive Event where
  | arrive (req : Request)
  | read (i : ℕ)
  | fail (i : ℕ) (error : BodyError)

section Step

variable {F : Type} (conv : FloatConv F)

/-- The turn of `callback` that answers. -/
def Server.answer (s : Server) (i : ℕ) (req : Request) : Server :=
  let (response, store) := callback conv s.store req
  { s with store := store, answers := s.answers ++ [(i, req, response)] }

/-- The body of a request is what its client sends; it is not looked at before it has been read. -/
def Server.step (s : Server) : Event → Option Server
  | .arrive req =>
    let arrived := { s with requests := s.requests ++ [req] }
    if req.IsSet then some { arrived with awaited := s.awaited ++ [s.requests.length] }
    else some (arrived.answer conv s.requests.length req)
  | .read i =>
    if i ∈ s.awaited then
      s.requests[i]?.map ({ s with awaited := s.awaited.erase i }.answer conv i)
    else none
  | .fail i error =>
    if i ∈ s.awaited then
      some { s with awaited := s.awaited.erase i, unread := s.unread ++ [(i, error.response)] }
    else none

/-- The runs of any number of requests. -/
abbrev Server.Runs : Server → Server → Prop := Reaches (Server.step conv) fun _ _ => True

/-- The requests that were answered, with their answers. -/
def Server.exchanges (s : Server) : List (Request × Response) := s.answers.map Prod.snd

/-- The answers are those of the requests one after the other. -/
structure Server.Sequential (s : Server) : Prop where
  /-- The answered requests are the ones that arrived. -/
  arrived : ∀ p ∈ s.answers, s.requests[p.1]? = some p.2.1
  served : serve conv (s.exchanges.map Prod.fst) = (s.exchanges, s.store)
  /-- Every request is awaited, answered or unread, and only one of these, once. -/
  once : (s.awaited ++ (s.answers.map Prod.fst ++ s.unread.map Prod.fst)).Perm
    (List.range s.requests.length)

end Step

namespace Server

variable {F : Type} {conv : FloatConv F} {s s' : Server} {req : Request} {i : ℕ}

@[simp]
theorem answer_requests : (s.answer conv i req).requests = s.requests := rfl

@[simp]
theorem answer_awaited : (s.answer conv i req).awaited = s.awaited := rfl

@[simp]
theorem answer_unread : (s.answer conv i req).unread = s.unread := rfl

@[simp]
theorem answer_answers : (s.answer conv i req).answers =
    s.answers ++ [(i, req, (callback conv s.store req).1)] := rfl

@[simp]
theorem answer_store : (s.answer conv i req).store = (callback conv s.store req).2 := rfl

theorem served_answer (h : serve conv (s.exchanges.map Prod.fst) = (s.exchanges, s.store)) :
    serve conv ((s.answer conv i req).exchanges.map Prod.fst) =
      ((s.answer conv i req).exchanges, (s.answer conv i req).store) := by
  simp only [exchanges, answer_answers, answer_store, List.map_append, List.map_cons,
    List.map_nil] at h ⊢
  rw [serve_concat, h]

theorem perm_erase_append {xs : List ℕ} (h : i ∈ xs) (ys zs : List ℕ) :
    (xs.erase i ++ (ys ++ i :: zs)).Perm (xs ++ (ys ++ zs)) := by
  have hmiddle : (xs.erase i ++ (ys ++ i :: zs)).Perm (i :: (xs.erase i ++ (ys ++ zs))) := by
    rw [← List.append_assoc, ← List.append_assoc]
    exact List.perm_middle
  exact hmiddle.trans ((List.perm_cons_erase h).symm.append_right (ys ++ zs))

theorem Sequential.arrive (h : s.Sequential conv) (req : Request) :
    ∀ p ∈ s.answers, (s.requests ++ [req])[p.1]? = some p.2.1 := by
  intro p hp
  have hget := h.arrived p hp
  rwa [List.getElem?_append_left (List.getElem?_eq_some_iff.mp hget).1]

theorem Sequential.step {e : Event} (h : s.Sequential conv) (hs : s.step conv e = some s') :
    s'.Sequential conv := by
  cases e with
  | arrive req =>
    rw [Server.step] at hs
    split_ifs at hs with hset
    · cases hs
      constructor
      · exact h.arrive req
      · exact h.served
      · rw [List.length_append, List.length_singleton, List.range_succ]
        refine List.Perm.trans ?_ (h.once.append_right _)
        rw [List.append_assoc, List.append_assoc]
        exact List.perm_append_comm.append_left _
    · cases hs
      constructor
      · intro p hp
        rcases List.mem_append.mp hp with hp | hp
        · exact h.arrive req p hp
        · obtain rfl := List.mem_singleton.mp hp
          simp
      · exact served_answer h.served
      · simp only [answer_requests, answer_awaited, answer_answers, answer_unread, List.map_append,
          List.map_cons, List.map_nil, List.length_append, List.length_singleton, List.range_succ]
        refine List.Perm.trans ?_ (h.once.append_right _)
        simp only [List.append_assoc]
        exact (List.perm_append_comm.append_left _).append_left _
  | read i =>
    rw [Server.step] at hs
    split_ifs at hs with hi
    obtain ⟨req, hreq, rfl⟩ := Option.map_eq_some_iff.mp hs
    constructor
    · intro p hp
      rcases List.mem_append.mp hp with hp | hp
      · exact h.arrived p hp
      · obtain rfl := List.mem_singleton.mp hp
        exact hreq
    · exact served_answer h.served
    · simp only [answer_requests, answer_awaited, answer_answers, answer_unread, List.map_append,
        List.map_cons, List.map_nil]
      rw [List.append_assoc, List.singleton_append]
      exact (perm_erase_append hi _ _).trans h.once
  | fail i error =>
    rw [Server.step] at hs
    split_ifs at hs with hi
    cases hs
    constructor
    · exact h.arrived
    · exact h.served
    · have hmove := perm_erase_append hi (s.answers.map Prod.fst ++ s.unread.map Prod.fst) []
      rw [List.append_nil, List.append_assoc] at hmove
      rw [List.map_append]
      exact hmove.trans h.once

theorem step_keeps {e : Event} (hs : s.step conv e = some s') :
    s.answers <+: s'.answers ∧ s.requests <+: s'.requests := by
  cases e with
  | arrive req =>
    rw [Server.step] at hs
    split_ifs at hs <;> cases hs
    · exact ⟨List.prefix_rfl, List.prefix_append _ _⟩
    · exact ⟨List.prefix_append _ _, List.prefix_append _ _⟩
  | read i =>
    rw [Server.step] at hs
    split_ifs at hs
    obtain ⟨req, -, rfl⟩ := Option.map_eq_some_iff.mp hs
    exact ⟨List.prefix_append _ _, List.prefix_rfl⟩
  | fail i error =>
    rw [Server.step] at hs
    split_ifs at hs
    cases hs
    exact ⟨List.prefix_rfl, List.prefix_rfl⟩

theorem sequential_start : start.Sequential conv := ⟨by simp [start], rfl, by simp [start]⟩

theorem Runs.sequential (h : Runs conv s s') (hs : s.Sequential conv) : s'.Sequential conv :=
  h.invariant (fun _ _ _ hi _ hstep => hi.step hstep) hs

theorem Runs.keeps (h : Runs conv s s') :
    s.answers <+: s'.answers ∧ s.requests <+: s'.requests := by
  apply h.invariant ?_ ⟨List.prefix_rfl, List.prefix_rfl⟩
  intro t e t' ⟨hanswers, hrequests⟩ _ hstep
  obtain ⟨hanswers', hrequests'⟩ := step_keeps hstep
  exact ⟨hanswers.trans hanswers', hrequests.trans hrequests'⟩

theorem step_get {k : Bytes} (hget : req.IsGet k) : s.step conv (.arrive req) =
    some ({ s with requests := s.requests ++ [req] }.answer conv s.requests.length req) := by
  have hne : ¬ req.IsSet := by
    intro hset
    cases hget.1.symm.trans hset.1
  rw [Server.step, if_neg hne]

/-- The store maps every key to the value that was saved last. -/
theorem Sequential.lookup (h : s.Sequential conv) (k v : Bytes) :
    s.store.lookup k = some v ↔ LastSaved conv s.exchanges k v := by
  have hlookup := lookup_serve conv (s.exchanges.map Prod.fst) k v
  rwa [h.served] at hlookup

/-- **Requests that overlap are answered one after the other.** Whenever any requests have arrived
and any of the awaited bodies have been read, or could not be, every request is awaited, answered or
unread; the answers, in the order in which they were given, and the store are those of the answered
requests one after the other, and no later event changes this order; and a `GET` that arrives is
answered with the value that was saved last in it. -/
theorem overlapping_runs (h : Runs conv start s) : s.Sequential conv ∧
    (∀ s', Runs conv s s' → s'.Sequential conv ∧ s.answers <+: s'.answers ∧
      s.requests <+: s'.requests) ∧
    ∀ req k, req.IsGet k → ∃ response, s.step conv (.arrive req) = some { s with
        requests := s.requests ++ [req]
        answers := s.answers ++ [(s.requests.length, req, response)] } ∧
      (response.status = .ok ↔ ∃ x ∈ s.exchanges, ∃ v, Saves conv k v x) ∧
      ∀ v, LastSaved conv s.exchanges k v →
        parseJson conv response.body = .ok (.object [(bytes "value", .string v)]) := by
  have hs := h.sequential sequential_start
  refine ⟨hs, fun s' hr => ⟨hr.sequential hs, hr.keeps⟩, ?_⟩
  intro req k hget
  refine ⟨(callback conv s.store req).1, ?_, ?_, ?_⟩
  · rw [step_get hget, answer, callback_get hget]
  · rw [callback_get hget]
    constructor
    · intro hok
      cases hlookup : s.store.lookup k with
      | none => simp [hlookup] at hok
      | some v =>
        obtain ⟨x, hx, hsaves⟩ := ((hs.lookup k v).mp hlookup).exists_saves
        exact ⟨x, hx, v, hsaves⟩
    · intro hsaved
      obtain ⟨v, hlast⟩ := exists_lastSaved hsaved
      rw [(hs.lookup k v).mpr hlast]
  · intro v hlast
    obtain ⟨x, -, hsaves⟩ := hlast.exists_saves
    rw [callback_get hget, (hs.lookup k v).mpr hlast]
    exact parseJson_toString_field (by decide) hsaves.2.2.quoteFree

section Example

def setRequest (v : Bytes) : Request := ⟨.post, bytes "/set", fun _ => none, setBody (bytes "a") v⟩

def getRequest : Request := ⟨.get, bytes "/get", fun _ => some (bytes "a"), []⟩

/-- Two bodies are awaited, and a `GET` has been answered. -/
def crossing : Server :=
  { start with
    requests := [setRequest (bytes "1"), setRequest (bytes "2"), getRequest]
    awaited := [0, 1] }.answer zeroFloat 2 getRequest

def crossed : Server :=
  ({ ({ crossing with awaited := [0] }.answer zeroFloat 1 (setRequest (bytes "2"))) with
    awaited := [] } : Server).answer zeroFloat 0 (setRequest (bytes "1"))

theorem runs_crossed : Runs zeroFloat start crossed := by
  apply Reaches.head (.arrive (setRequest (bytes "1"))) trivial rfl
  apply Reaches.head (.arrive (setRequest (bytes "2"))) trivial rfl
  apply Reaches.head (.arrive getRequest) trivial rfl
  apply Reaches.head (.read 1) trivial rfl
  apply Reaches.head (.read 0) trivial rfl
  exact Reaches.refl _

end Example

/-- Two `POST`s whose bodies are read in the other order, and a `GET` in between. The value of the
body that was read last is the one that is asked for afterwards. -/
theorem overlapping_runs_crossed :
    crossed.answers.map Prod.fst = [2, 1, 0] ∧ crossed.Sequential zeroFloat ∧
    ∃ response, crossed.step zeroFloat (.arrive getRequest) = some { crossed with
        requests := crossed.requests ++ [getRequest]
        answers := crossed.answers ++ [(3, getRequest, response)] } ∧
      response.status = .ok ∧
      parseJson zeroFloat response.body = .ok (.object [(bytes "value", .string (bytes "1"))]) := by
  obtain ⟨hseq, -, hget⟩ := overlapping_runs runs_crossed
  obtain ⟨response, hstep, hok, hbody⟩ := hget getRequest (bytes "a") ⟨rfl, rfl, rfl⟩
  have hlast : LastSaved zeroFloat crossed.exchanges (bytes "a") (bytes "1") := by
    have hcarries : Carries zeroFloat (setRequest (bytes "1")).body (bytes "a") (bytes "1") :=
      carries_setBody (by decide) (by decide)
    have hsaved (store : Store) :
        (callback zeroFloat store (setRequest (bytes "1"))).1 = saved := by
      rw [callback_set ⟨rfl, rfl⟩, save_carries hcarries]
    exact ⟨[_, _], _, [], rfl, ⟨⟨rfl, rfl⟩, hsaved _, hcarries⟩, by simp⟩
  obtain ⟨x, hx, hsaves⟩ := hlast.exists_saves
  exact ⟨rfl, hseq, response, hstep, hok.mpr ⟨x, hx, _, hsaves⟩, hbody _ hlast⟩

end Server

end OCamlStudy.SimpleLwt
