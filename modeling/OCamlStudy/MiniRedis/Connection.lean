import OCamlStudy.MiniRedis.Command

/-! # The connection loop

The server decodes requests from its buffer until it needs more bytes, then reads
at most 1024 bytes of what the peer sent. However the stream is cut, the loop
gives the responses, the store and the outcome of one pass over all the bytes.
-/

namespace OCamlStudy.MiniRedis

open OCaml

inductive Status where
  | waiting (buffer : Bytes)
  | disconnected
  | stopped (msg : Bytes)
  | raised (exn : Exn)

structure Conn where
  responses : List Bytes
  store : Store
  status : Status

/-- The arms of `handle_loop` for an error; the guard of the second may raise. -/
def onError (buffer msg : Bytes) : Status :=
  if msg = bytes "Empty buffer" then .waiting buffer
  else
    match stringSub msg 0 10 with
    | .error exn => .raised exn
    | .ok s => if s = bytes "Incomplete" then .waiting buffer else .stopped msg

def handleLoopFuel : ℕ → List Bytes → Store → Bytes → Conn
  | 0, oc, store, buffer => ⟨oc, store, .waiting buffer⟩
  | fuel + 1, oc, store, buffer =>
    match handleRequest store buffer with
    | .error exn => ⟨oc, store, .raised exn⟩
    | .ok (.ok (response, rest), store) => handleLoopFuel fuel (oc ++ [response]) store rest
    | .ok (.error msg, store) => ⟨oc, store, onError buffer msg⟩

/-- Handle requests until the buffer holds no complete one; `oc` is what was written before. -/
def handleLoop (oc : List Bytes) (store : Store) (buffer : Bytes) : Conn :=
  handleLoopFuel (buffer.length + 1) oc store buffer

/-- Go on with the bytes one `read_into` returned; none means the peer has closed. -/
def readMore (c : Conn) (newData : Bytes) : Conn :=
  match c.status with
  | .waiting old =>
    if newData = [] then { c with status := .disconnected }
    else handleLoop c.responses c.store (old ++ newData)
  | _ => c

/-- The reads of at most 1024 bytes that take up what the peer sent at once. -/
def readInto (chunk : Bytes) : List Bytes :=
  if _h : chunk = [] then [] else chunk.take 1024 :: readInto (chunk.drop 1024)
termination_by chunk.length
decreasing_by
  rw [List.length_drop]
  have := List.length_pos_iff.mpr _h
  omega

def serve (store : Store) (chunks : List Bytes) : Conn :=
  (chunks.flatMap readInto).foldl readMore (handleLoop [] store [])

theorem readInto_flatten (chunk : Bytes) : (readInto chunk).flatten = chunk := by
  induction chunk using readInto.induct with
  | case1 => rw [readInto, dif_pos rfl]; rfl
  | case2 chunk h ih =>
    rw [readInto, dif_neg h, List.flatten_cons, ih, List.take_append_drop]

theorem readInto_ne_nil {chunk data : Bytes} (h : data ∈ readInto chunk) : data ≠ [] := by
  induction chunk using readInto.induct with
  | case1 => rw [readInto, dif_pos rfl] at h; cases h
  | case2 chunk hc ih =>
    rw [readInto, dif_neg hc] at h
    rcases List.mem_cons.mp h with rfl | h
    · simpa using hc
    · exact ih h

theorem handleLoopFuel_eq {n m : ℕ} {b : Bytes} (hs : IsString b) (hn : b.length < n)
    (hm : b.length < m) (oc : List Bytes) (store : Store) :
    handleLoopFuel n oc store b = handleLoopFuel m oc store b := by
  induction n generalizing m b oc store with
  | zero => omega
  | succ n ih =>
    cases m with
    | zero => omega
    | succ m =>
      rw [handleLoopFuel, handleLoopFuel, handleRequest_eq]
      cases hd : decode b with
      | error exn => rfl
      | ok r =>
        cases r with
        | error msg => rfl
        | ok p =>
          have hl := (decode_consumes hs p.1 p.2 hd).2
          exact ih (hs.trans' hl.le) (by omega) (by omega) _ _

theorem handleLoop_eq {b : Bytes} (hs : IsString b) (oc : List Bytes) (store : Store) :
    handleLoop oc store b = match decode b with
      | .error exn => ⟨oc, store, .raised exn⟩
      | .ok (.ok (resp, rest)) =>
        handleLoop (oc ++ [encode (execute store (parseCommand resp)).1])
          (execute store (parseCommand resp)).2 rest
      | .ok (.error msg) => ⟨oc, store, onError b msg⟩ := by
  rw [handleLoop, handleLoopFuel, handleRequest_eq]
  cases hd : decode b with
  | error exn => rfl
  | ok r =>
    cases r with
    | error msg => rfl
    | ok p =>
      have hl := (decode_consumes hs p.1 p.2 hd).2
      exact handleLoopFuel_eq (hs.trans' hl.le) hl (by omega) _ _

theorem onError_waits {b msg : Bytes} (h : Waits msg) : onError b msg = .waiting b := by
  unfold onError
  by_cases he : msg = bytes "Empty buffer"
  · rw [if_pos he]
  · have ht := h.resolve_left he
    have hl : 10 ≤ msg.length := by
      have := congrArg List.length ht
      rw [List.length_take, show (bytes "Incomplete").length = 10 from rfl] at this
      omega
    rw [if_neg he, stringSub, if_neg (by omega)]
    simp [ht]

theorem onError_fatal (b b' : Bytes) {msg : Bytes} (h : ¬ Waits msg) :
    onError b msg = onError b' msg ∧ ∀ old, onError b msg ≠ .waiting old := by
  obtain ⟨he, ht⟩ := not_or.mp h
  simp only [onError, if_neg he]
  cases hsub : stringSub msg 0 10 with
  | error exn => exact ⟨rfl, fun old h => by cases h⟩
  | ok s =>
    have hs : s ≠ bytes "Incomplete" := by
      rintro rfl
      unfold stringSub at hsub
      split at hsub
      · cases hsub
      · exact ht (by simpa using hsub)
    simp [if_neg hs]

theorem readMore_handleLoop {b q : Bytes} (hq : q ≠ []) (hs : IsString (b ++ q))
    (oc : List Bytes) (store : Store) :
    readMore (handleLoop oc store b) q = handleLoop oc store (b ++ q) := by
  induction hn : b.length using Nat.strong_induction_on generalizing b oc store with
  | _ n ih =>
    have hb : IsString b := hs.trans' (by simp)
    have hd := decode_append hs
    rw [handleLoop_eq hb]
    cases hr : decode b with
    | error exn =>
      rw [hr] at hd
      rw [handleLoop_eq hs, hd]
      rfl
    | ok r =>
      rw [hr] at hd
      cases r with
      | ok p =>
        have hl := (decode_consumes hb p.1 p.2 hr).2
        have hp : IsString (p.2 ++ q) :=
          hs.trans' (by simp only [List.length_append]; omega)
        rw [handleLoop_eq hs, hd]
        exact ih p.2.length (by omega) hp _ _ rfl
      | error msg =>
        by_cases hw : Waits msg
        · simp only [onError_waits hw, readMore, if_neg hq]
        · rw [handleLoop_eq hs, hd.resolve_left hw]
          obtain ⟨he, hne⟩ := onError_fatal b (b ++ q) hw
          dsimp only
          rw [← he, readMore]
          split
          · rename_i old h; exact absurd h (hne old)
          · rfl

theorem foldl_readMore {b : Bytes} {reads : List Bytes} (hr : ∀ data ∈ reads, data ≠ [])
    (hs : IsString (b ++ reads.flatten)) (oc : List Bytes) (store : Store) :
    reads.foldl readMore (handleLoop oc store b) = handleLoop oc store (b ++ reads.flatten) := by
  induction reads generalizing b with
  | nil => simp
  | cons data reads ih =>
    rw [List.flatten_cons, ← List.append_assoc] at hs ⊢
    rw [List.foldl_cons, readMore_handleLoop (hr data List.mem_cons_self)
      (hs.trans' (by simp only [List.length_append]; omega))]
    exact ih (fun d hd => hr d (List.mem_cons_of_mem _ hd)) hs

theorem serve_eq_handleLoop (chunks : List Bytes) (hs : IsString chunks.flatten) (store : Store) :
    serve store chunks = handleLoop [] store chunks.flatten := by
  have hf : (chunks.flatMap readInto).flatten = chunks.flatten := by
    induction chunks with
    | nil => rfl
    | cons c chunks ih =>
      rw [List.flatMap_cons, List.flatten_append, readInto_flatten, List.flatten_cons,
        ih (hs.trans' (by simp))]
  have hne : ∀ data ∈ chunks.flatMap readInto, data ≠ [] := by
    intro data hd
    obtain ⟨c, _, hd⟩ := List.mem_flatMap.mp hd
    exact readInto_ne_nil hd
  have := foldl_readMore (b := []) hne (by simpa [hf] using hs) [] store
  rwa [List.nil_append, hf] at this

/-- **The cut of the stream does not matter.** -/
theorem serve_cut {chunks : List Bytes} (hs : IsString chunks.flatten) (store : Store) :
    serve store chunks = serve store [chunks.flatten] ∧
      serve store [chunks.flatten] = handleLoop [] store chunks.flatten := by
  have h := serve_eq_handleLoop _ hs store
  have h1 := serve_eq_handleLoop [chunks.flatten] (by simpa using hs) store
  rw [List.flatten_singleton] at h1
  exact ⟨h.trans h1.symm, h1⟩

/-- A request cut between the bytes of a line end. -/
theorem serve_cut_ping :
    serve ∅ [bytes "*1\r\n$4\r", bytes "\nPING\r\n*1"] =
        serve ∅ [bytes "*1\r\n$4\r\nPING\r\n*1"] ∧
      serve ∅ [bytes "*1\r\n$4\r\nPING\r\n*1"] =
        handleLoop [] ∅ (bytes "*1\r\n$4\r\nPING\r\n*1") :=
  serve_cut
    (by unfold IsString maxStringLength; decide) ∅

end OCamlStudy.MiniRedis
