import OCamlStudy.SimpleLwt.JsonParser

/-! # The web server

A key-value store behind two routes. The printer does not escape, so a saved value
is read back from a response because the parser never returns a string with a
double quote in it.
-/

namespace OCamlStudy.SimpleLwt

open OCaml JsonParser

variable {F : Type}

inductive Meth where
  | get
  | post
  | other
  deriving DecidableEq, Repr

structure Request where
  meth : Meth
  path : Bytes
  /-- `Uri.get_query_param` of its URI. -/
  getQueryParam : Bytes → Option Bytes
  body : Bytes

inductive Status where
  | ok
  | badRequest
  | notFound
  | internalServerError
  deriving DecidableEq, Repr

structure Response where
  status : Status
  body : Bytes
  deriving DecidableEq, Repr

abbrev Store := Hashtbl Bytes Bytes

def printexc : Exn → String
  | .failure msg => "Failure(\"" ++ msg ++ "\")"
  | .invalidArgument msg => "Invalid_argument(\"" ++ msg ++ "\")"

def saved : Response := ⟨.ok, bytes "Saved"⟩

section Callback

variable (conv : FloatConv F)

def respondGet (store : Store) (req : Request) : Response :=
  match req.getQueryParam (bytes "key") with
  | some key =>
    match store.lookup key with
    | some value => ⟨.ok, Json.toString conv (.object [(bytes "value", .string value)])⟩
    | none => ⟨.notFound, bytes "Key not found"⟩
  | none => ⟨.badRequest, bytes "Missing key param"⟩

/-- `POST /set`, before exceptions are caught. -/
def save (store : Store) (bodyStr : Bytes) : Raises (Response × Store) := do
  let json ← match parseJson conv bodyStr with
    | .error (.failure msg) => .error (.failure ("JSON parse error: " ++ msg))
    | parsed => parsed
  match (some json).bind (member (bytes "key")), (some json).bind (member (bytes "value")) with
  | some (.string k), some (.string v) => return (saved, store.insert k v)
  | _, _ => return (⟨.badRequest, bytes "Invalid JSON format"⟩, store)

def callback (store : Store) (req : Request) : Response × Store :=
  if req.meth = .get ∧ req.path = bytes "/get" then (respondGet conv store req, store)
  else if req.meth = .post ∧ req.path = bytes "/set" then
    match save conv store req.body with
    | .ok answer => answer
    | .error (.failure msg) => (⟨.badRequest, bytes msg⟩, store)
    | .error exn => (⟨.internalServerError, bytes ("Unexpected error: " ++ printexc exn)⟩, store)
  else (⟨.notFound, bytes "Route not found"⟩, store)

def exchange (served : List (Request × Response) × Store) (req : Request) :
    List (Request × Response) × Store :=
  let (response, store) := callback conv served.2 req
  (served.1 ++ [(req, response)], store)

/-- The requests one after the other, from an empty store. -/
def serve (reqs : List Request) : List (Request × Response) × Store :=
  reqs.foldl (exchange conv) ([], ∅)

end Callback

def Request.IsSet (req : Request) : Prop := req.meth = .post ∧ req.path = bytes "/set"

def Request.IsGet (req : Request) (k : Bytes) : Prop :=
  req.meth = .get ∧ req.path = bytes "/get" ∧ req.getQueryParam (bytes "key") = some k

section Callback

variable (conv : FloatConv F)

/-- The body is an object with two strings, a key and a value. -/
def Carries (body k v : Bytes) : Prop :=
  ∃ json, parseJson conv body = .ok json ∧ member (bytes "key") json = some (.string k) ∧
    member (bytes "value") json = some (.string v)

/-- The request was answered `Saved` with the key and the value. -/
def Saves (k v : Bytes) (x : Request × Response) : Prop :=
  x.1.IsSet ∧ x.2 = saved ∧ Carries conv x.1.body k v

variable {conv}

theorem Carries.unique {body k v k' v' : Bytes} (h : Carries conv body k v)
    (h' : Carries conv body k' v') : k = k' ∧ v = v' := by
  obtain ⟨json, hparse, hkey, hvalue⟩ := h
  obtain ⟨json', hparse', hkey', hvalue'⟩ := h'
  cases hparse.symm.trans hparse'
  cases hkey.symm.trans hkey'
  cases hvalue.symm.trans hvalue'
  exact ⟨rfl, rfl⟩

theorem Carries.quoteFree {body k v : Bytes} (h : Carries conv body k v) : 34 ∉ v := by
  obtain ⟨json, hparse, -, hvalue⟩ := h
  exact quoteFree_of_member hparse hvalue

theorem save_carries {store : Store} {body k v : Bytes} (h : Carries conv body k v) :
    save conv store body = .ok (saved, store.insert k v) := by
  obtain ⟨json, hparse, hkey, hvalue⟩ := h
  simp only [save, hparse, Raises.ok_bind, Option.bind_some, hkey, hvalue]
  rfl

/-- A body that is not saved is refused, and the store is as it was. -/
theorem save_cases (conv : FloatConv F) (store : Store) (body : Bytes) :
    (∃ k v, Carries conv body k v) ∨ (∃ exn, save conv store body = .error exn) ∨
      save conv store body = .ok (⟨.badRequest, bytes "Invalid JSON format"⟩, store) := by
  rw [save]
  cases hparse : parseJson conv body with
  | error exn =>
    refine .inr (.inl ?_)
    cases exn with
    | failure msg => exact ⟨_, rfl⟩
    | invalidArgument msg => exact ⟨_, rfl⟩
  | ok json =>
    simp only [Raises.ok_bind, Option.bind_some]
    split
    · rename_i k v hkey hvalue
      exact .inl ⟨k, v, json, hparse, hkey, hvalue⟩
    · exact .inr (.inr rfl)

theorem callback_set {store : Store} {req : Request} (h : req.IsSet) : callback conv store req =
    match save conv store req.body with
    | .ok answer => answer
    | .error (.failure msg) => (⟨.badRequest, bytes msg⟩, store)
    | .error exn =>
      (⟨.internalServerError, bytes ("Unexpected error: " ++ printexc exn)⟩, store) := by
  have hne : ¬ (req.meth = .get ∧ req.path = bytes "/get") := by
    rintro ⟨hget, -⟩
    cases h.1.symm.trans hget
  rw [callback, if_neg hne]
  exact if_pos h

theorem callback_get {store : Store} {req : Request} {k : Bytes} (h : req.IsGet k) :
    callback conv store req = (match store.lookup k with
      | some value => ⟨.ok, Json.toString conv (.object [(bytes "value", .string value)])⟩
      | none => ⟨.notFound, bytes "Key not found"⟩, store) := by
  obtain ⟨hmeth, hpath, hkey⟩ := h
  rw [callback, if_pos ⟨hmeth, hpath⟩, respondGet, hkey]

/-- **What a request does to the store.** Either it is answered `Saved` and its value is stored,
or the store is as it was. -/
theorem callback_cases (conv : FloatConv F) (store : Store) (req : Request) :
    (∃ k v, Saves conv k v (req, (callback conv store req).1) ∧
      (callback conv store req).2 = store.insert k v) ∨
    ((callback conv store req).2 = store ∧
      (req.IsSet → (callback conv store req).1 ≠ saved)) := by
  by_cases hset : req.IsSet
  · rw [callback_set hset]
    rcases save_cases conv store req.body with ⟨k, v, hcarries⟩ | ⟨exn, hexn⟩ | hinvalid
    · rw [save_carries hcarries]
      exact .inl ⟨k, v, ⟨hset, rfl, hcarries⟩, rfl⟩
    · rw [hexn]
      cases exn <;> exact .inr ⟨rfl, fun _ => by simp [saved]⟩
    · rw [hinvalid]
      exact .inr ⟨rfl, fun _ => by simp [saved]⟩
  · refine .inr ⟨?_, fun h => absurd h hset⟩
    unfold callback Request.IsSet at *
    rw [if_neg hset]
    split_ifs <;> rfl

end Callback

section Serve

variable (conv : FloatConv F)

/-- The last request of the history answered `Saved` with the key had the value. -/
def LastSaved (history : List (Request × Response)) (k v : Bytes) : Prop :=
  ∃ before x after, history = before ++ x :: after ∧ Saves conv k v x ∧
    ∀ y ∈ after, ∀ v', ¬ Saves conv k v' y

variable {conv}

theorem lastSaved_concat {history : List (Request × Response)} {x : Request × Response}
    {k v : Bytes} : LastSaved conv (history ++ [x]) k v ↔
      Saves conv k v x ∨ ((∀ v', ¬ Saves conv k v' x) ∧ LastSaved conv history k v) := by
  constructor
  · rintro ⟨before, y, after, heq, hy, hafter⟩
    cases after using List.reverseRecOn with
    | nil =>
      obtain ⟨-, hx⟩ := List.append_inj' heq rfl
      cases hx
      exact .inl hy
    | append_singleton after z =>
      rw [← List.cons_append, ← List.append_assoc] at heq
      obtain ⟨rfl, hx⟩ := List.append_inj' heq rfl
      cases hx
      refine .inr ⟨hafter x (by simp), before, y, after, rfl, hy, ?_⟩
      exact fun w hw => hafter w (List.mem_append_left _ hw)
  · rintro (hx | ⟨hno, before, y, after, rfl, hy, hafter⟩)
    · exact ⟨history, x, [], rfl, hx, by simp⟩
    · refine ⟨before, y, after ++ [x], by simp, hy, ?_⟩
      rintro z hz
      rcases List.mem_append.mp hz with hz | hz
      · exact hafter z hz
      · cases List.mem_singleton.mp hz
        exact hno

theorem LastSaved.exists_saves {history : List (Request × Response)} {k v : Bytes}
    (h : LastSaved conv history k v) : ∃ x ∈ history, Saves conv k v x := by
  obtain ⟨before, x, after, rfl, hx, -⟩ := h
  exact ⟨x, by simp, hx⟩

theorem exists_lastSaved {history : List (Request × Response)} {k : Bytes}
    (h : ∃ x ∈ history, ∃ v, Saves conv k v x) : ∃ v, LastSaved conv history k v := by
  induction history using List.reverseRecOn with
  | nil => simp at h
  | append_singleton history x ih =>
    by_cases hx : ∃ v, Saves conv k v x
    · obtain ⟨v, hx⟩ := hx
      exact ⟨v, lastSaved_concat.mpr (.inl hx)⟩
    · rw [not_exists] at hx
      obtain ⟨y, hy, v', hsaves⟩ := h
      rcases List.mem_append.mp hy with hy | hy
      · obtain ⟨v, hlast⟩ := ih ⟨y, hy, v', hsaves⟩
        exact ⟨v, lastSaved_concat.mpr (.inr ⟨hx, hlast⟩)⟩
      · cases List.mem_singleton.mp hy
        exact absurd hsaves (hx v')

theorem serve_concat (conv : FloatConv F) (reqs : List Request) (req : Request) :
    serve conv (reqs ++ [req]) =
      ((serve conv reqs).1 ++ [(req, (callback conv (serve conv reqs).2 req).1)],
        (callback conv (serve conv reqs).2 req).2) := by
  rw [serve, List.foldl_concat]
  rfl

/-- The store maps every key to the value that was saved last. -/
theorem lookup_serve (conv : FloatConv F) (reqs : List Request) (k v : Bytes) :
    (serve conv reqs).2.lookup k = some v ↔ LastSaved conv (serve conv reqs).1 k v := by
  induction reqs using List.reverseRecOn generalizing v with
  | nil =>
    constructor
    · intro h
      cases h
    · rintro ⟨before, x, after, heq, -⟩
      simp [serve] at heq
  | append_singleton reqs req ih =>
    rw [serve_concat]
    dsimp only
    rw [lastSaved_concat, ← ih]
    rcases callback_cases conv (serve conv reqs).2 req with ⟨k', v', hsaves, hstore⟩ | ⟨hstore, hno⟩
    · rw [hstore]
      by_cases hk : k = k'
      · subst hk
        rw [AList.lookup_insert]
        constructor
        · intro h
          cases h
          exact .inl hsaves
        · rintro (h | ⟨hno, -⟩)
          · rw [(h.2.2.unique hsaves.2.2).2]
          · exact absurd hsaves (hno v')
      · rw [AList.lookup_insert_ne hk]
        constructor
        · exact fun h => .inr ⟨fun w hw => hk (hw.2.2.unique hsaves.2.2).1, h⟩
        · rintro (h | ⟨-, h⟩)
          · exact absurd (h.2.2.unique hsaves.2.2).1 hk
          · exact h
    · rw [hstore]
      have hnone : ∀ w, ¬ Saves conv k w (req, (callback conv (serve conv reqs).2 req).1) :=
        fun w hw => hno hw.1 hw.2.1
      constructor
      · exact fun h => .inr ⟨hnone, h⟩
      · rintro (h | ⟨-, h⟩)
        · exact absurd h (hnone v)
        · exact h

/-- **The server answers with the last saved value.** After any requests, a `POST` that is not
answered `Saved` leaves the store as it is, and a `GET` for a key succeeds exactly if the key was
saved, with a body that is read back as the value that was saved last. -/
theorem get_last_saved (conv : FloatConv F) (reqs : List Request) (req : Request) :
    (req.IsSet → (callback conv (serve conv reqs).2 req).1 ≠ saved →
      (callback conv (serve conv reqs).2 req).2 = (serve conv reqs).2) ∧
    ∀ k, req.IsGet k →
      ((callback conv (serve conv reqs).2 req).1.status = .ok ↔
        ∃ x ∈ (serve conv reqs).1, ∃ v, Saves conv k v x) ∧
      ∀ v, LastSaved conv (serve conv reqs).1 k v →
        parseJson conv (callback conv (serve conv reqs).2 req).1.body =
          .ok (.object [(bytes "value", .string v)]) := by
  constructor
  · intro _ hne
    rcases callback_cases conv (serve conv reqs).2 req with ⟨k, v, hsaves, -⟩ | ⟨hstore, -⟩
    · exact absurd hsaves.2.1 hne
    · exact hstore
  · intro k hget
    rw [callback_get hget]
    constructor
    · constructor
      · intro hok
        cases hlookup : (serve conv reqs).2.lookup k with
        | none => simp [hlookup] at hok
        | some v =>
          obtain ⟨x, hx, hsaves⟩ := ((lookup_serve conv reqs k v).mp hlookup).exists_saves
          exact ⟨x, hx, v, hsaves⟩
      · intro hsaved
        obtain ⟨v, hlast⟩ := exists_lastSaved hsaved
        rw [(lookup_serve conv reqs k v).mpr hlast]
    · intro v hlast
      obtain ⟨x, -, hsaves⟩ := hlast.exists_saves
      rw [(lookup_serve conv reqs k v).mpr hlast]
      exact parseJson_toString_field (by decide) hsaves.2.2.quoteFree

def setBody (k v : Bytes) : Bytes :=
  bytes "\x7b\"key\":\"" ++ k ++ bytes "\",\"value\":\"" ++ v ++ bytes "\"\x7d"

theorem carries_setBody {k v : Bytes} (hk : 34 ∉ k) (hv : 34 ∉ v) :
    Carries conv (setBody k v) k v := by
  have hclose : lex conv [125] = .ok [.rBrace] := Steps.lex_token rfl (lex_nil conv)
  have hvalue : lex conv (bytes ",\"value\":\"" ++ (v ++ 34 :: [125])) =
      .ok [.comma, .str (bytes "value"), .colon, .str v, .rBrace] := by
    apply Steps.lex_token rfl
    refine lex_string (s := bytes "value") (by decide) ?_
    exact Steps.lex_token rfl (lex_string hv hclose)
  have htext : setBody k v = 123 :: 34 :: (bytes "key" ++ 34 :: 58 :: 34 ::
      (k ++ 34 :: (bytes ",\"value\":\"" ++ (v ++ 34 :: [125])))) := by
    simp [setBody, bytes]
  have hlex : lex conv (setBody k v) = .ok (toks (.object [(bytes "key", .string k),
      (bytes "value", .string v)])) := by
    rw [htext]
    apply Steps.lex_token rfl
    refine lex_string (s := bytes "key") (by decide) ?_
    exact Steps.lex_token rfl (lex_string hk hvalue)
  have hparse := (reads_toks (.object [(bytes "key", .string k),
    (bytes "value", .string v)] : Json F)).parse []
  rw [List.append_nil] at hparse
  refine ⟨.object [(bytes "key", .string k), (bytes "value", .string v)], ?_, rfl, rfl⟩
  rw [parseJson, hlex, Raises.ok_bind, hparse]
  rfl

theorem serve_setBody {reqs : List Request} (h : ∀ req ∈ reqs, req.IsSet ∧
      ∃ k v, req.body = setBody k v ∧ 34 ∉ k ∧ 34 ∉ v) :
    (serve conv reqs).1 = reqs.map fun req => (req, saved) := by
  induction reqs using List.reverseRecOn with
  | nil => rfl
  | append_singleton reqs req ih =>
    obtain ⟨hset, k, v, hbody, hk, hv⟩ := h req (by simp)
    rw [serve_concat, ih fun req hreq => h req (List.mem_append_left _ hreq), callback_set hset,
      hbody, save_carries (carries_setBody hk hv), List.map_append]
    rfl

end Serve

/-- A key is saved twice and another one once, a body is refused, and the key is asked for. -/
theorem get_last_saved_run :
    let post (body : Bytes) : Request := ⟨.post, bytes "/set", fun _ => none, body⟩
    let get : Request := ⟨.get, bytes "/get", fun _ => some (bytes "a"), []⟩
    let reqs := [post (setBody (bytes "a") (bytes "1")), post (setBody (bytes "a") (bytes "2")),
      post (setBody (bytes "b") (bytes "3"))]
    (serve zeroFloat reqs).1.map Prod.snd = [saved, saved, saved] ∧
      (callback zeroFloat (serve zeroFloat reqs).2 (post [])).2 = (serve zeroFloat reqs).2 ∧
      (callback zeroFloat (serve zeroFloat reqs).2 get).1.status = .ok ∧
      parseJson zeroFloat (callback zeroFloat (serve zeroFloat reqs).2 get).1.body =
        .ok (.object [(bytes "value", .string (bytes "2"))]) := by
  intro post get reqs
  have hset (body : Bytes) : (post body).IsSet := ⟨rfl, rfl⟩
  have hserve : (serve zeroFloat reqs).1 = reqs.map fun req => (req, saved) := by
    apply serve_setBody
    intro req hreq
    simp only [reqs, List.mem_cons, List.not_mem_nil, or_false] at hreq
    rcases hreq with rfl | rfl | rfl <;> exact ⟨hset _, _, _, rfl, by decide, by decide⟩
  have hlast : LastSaved zeroFloat (serve zeroFloat reqs).1 (bytes "a") (bytes "2") := by
    rw [hserve]
    refine ⟨[_], _, [_], rfl, ⟨hset _, rfl, carries_setBody (by decide) (by decide)⟩, ?_⟩
    rintro y hy v ⟨-, -, hb⟩
    cases List.mem_singleton.mp hy
    have hkey := (hb.unique (carries_setBody (by decide) (by decide))).1
    exact absurd hkey (by decide)
  have hrefused : (callback zeroFloat (serve zeroFloat reqs).2 (post [])).1 ≠ saved := by
    have hparse : parseJson zeroFloat [] = .error (.failure "Unexpected token") := by
      rw [parseJson, lex_nil, Raises.ok_bind, parseValue_eq]
      rfl
    rw [callback_set (hset _), save, hparse]
    intro h
    cases congrArg Response.status h
  obtain ⟨hok, hbody⟩ := (get_last_saved zeroFloat reqs get).2 (bytes "a") ⟨rfl, rfl, rfl⟩
  refine ⟨?_, (get_last_saved zeroFloat reqs (post [])).1 (hset _) hrefused, ?_, hbody _ hlast⟩
  · rw [hserve]
    rfl
  · obtain ⟨x, hx, hsaves⟩ := hlast.exists_saves
    exact hok.mpr ⟨x, hx, _, hsaves⟩

end OCamlStudy.SimpleLwt
