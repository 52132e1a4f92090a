import OCamlStudy.NanoOs.Answering
import OCamlStudy.NanoOs.Transcript

/-! # From a line of the client to the reply that it prints

What the user of the client sees in every run of the client and the kernel: each
line is evaluated at most once, each reply is printed at most once, and where no
turn disturbs another all replies come from one sequence of evaluations.
-/

namespace OCamlStudy.NanoOs

open OCaml Program Shell

namespace Kernel

variable {n : ℕ} {dev : Device n}

def clientCfg : Stack.Config where
  maxRetries := 4
  dedupeWindowNs := 10000000000
  window_bounds := by decide

def stackCfg : Stack.Config where
  maxRetries := 6
  dedupeWindowNs := 30000000000
  window_bounds := Stack.defaultConfig.window_bounds

def startNet : Duplex where
  client := Stack.create clientCfg 0 1234
  server := Stack.create stackCfg 0 8080
  requests := .empty 0
  responses := .empty 0

def booted (c : Disk) : Kernel (Disk.device 2048) where
  net := startNet
  world := {
    fs := ⟨deviceInfo 2048, cacheOf []⟩
    disk := c
    requests := [] }
  answered := []

theorem startNet_initial : startNet.Initial where
  client := ⟨rfl, rfl⟩
  server := ⟨rfl, rfl⟩
  nextSeq := by decide
  ports := by decide
  distinct := by decide
  window := by decide
  requests := rfl
  responses := rfl

theorem startNet_idle : startNet.Idle 0 where
  up := ⟨by decide, rfl, by simp [startNet, Duplex.up, Lane.empty]⟩
  down := ⟨by decide, rfl, by simp [startNet, Duplex.down, Lane.empty]⟩
  clock := by decide

variable (c : Disk)

theorem booted_initial : (booted c).Initial := ⟨startNet_initial, rfl, rfl⟩

theorem settle_ls : (eval (bytes "ls")).settle (booted c).world.fs =
    (.ret (bytes "Directory is empty."), (booted c).world.fs) := by
  have hls : parse (bytes "ls") = .ls := by decide
  rw [eval, hls]
  rfl

/-- **One reply for each line.** In every run whose network delivers late copies of no message and
in which the client sends at most 256 lines, every request is one line of the client and no line
is two requests; a line whose `send` returned `Ok` is a request; everything that the client prints
is the reply to a request, and no reply is printed twice; a reply whose `send` returned `Ok` is
printed. -/
theorem answered_once {k k' : Kernel dev} (hi : k.Initial)
    (hrun : Reaches step WithinWindow k k') :
    (∀ j < k'.world.requests.length, ∃ i, k'.Asked i j ∧ ∀ j', k'.Asked i j' → j' = j) ∧
    (∀ i, k'.net.up.Acked i → ∃ j, k'.Asked i j) ∧
    (∀ p < k'.net.responses.callbacks.length, ∃ j, k'.Told p j ∧ ∀ p', k'.Told p' j → p' = p) ∧
    ∀ q, k'.net.down.Acked q → ∃ j p, k'.answered[q]? = some j ∧ k'.Told p j := by
  have hs := hi.serving.run hrun
  refine ⟨?_, ?_, ?_, ?_⟩
  · intro j hj
    rw [hs.length_eq] at hj
    have hasked := hs.asked_of_callback (List.getElem?_eq_getElem hj)
    exact ⟨_, hasked, fun j' => hs.asked_unique hasked⟩
  · intro i hacked
    obtain ⟨m, -, c, hc, rfl, -⟩ := hs.net.up.linked.acked hacked
    obtain ⟨j, hj⟩ := List.mem_iff_getElem?.mp hc
    exact ⟨j, hs.asked_of_callback hj⟩
  · intro p hp
    obtain ⟨j, -, htold⟩ := hs.told_of_callback (List.getElem?_eq_getElem hp)
    exact ⟨j, htold, fun p' => hs.told_unique htold⟩
  · intro q hacked
    obtain ⟨m, -, c, hc, rfl, -⟩ := hs.net.down.linked.acked hacked
    obtain ⟨p, hp⟩ := List.mem_iff_getElem?.mp hc
    obtain ⟨j, hj, htold⟩ := hs.told_of_callback hp
    exact ⟨j, p, hj, htold⟩

/-- Two lines. The first line and its reply are sent twice; of the line both copies arrive, of the
reply the first copy is lost. The second line arrives twice. -/
def lossy : List Event :=
  [.network (.up (.send (bytes "ls"))), .network (.up (.written 0 (.ok ()))),
    .network (.up (.timeout 0)), .network (.up (.deliver 1 false 5)),
    .network (.up (.deliver 0 false 7)), .network (.down (.written 0 (.ok ()))),
    .network (.down (.timeout 0)), .network (.down (.deliver 1 false 8)),
    .network (.up (.written 0 (.ok ()))), .network (.up (.deliver 0 false 9)),
    .network (.up (.acked 0)), .network (.up (.send (bytes "cat b"))),
    .network (.up (.deliver 1 true 12)), .network (.up (.deliver 1 false 13)),
    .network (.down (.deliver 2 false 14))]

theorem answered_once_lossy : ∃ k' : Kernel (Disk.device 2048),
    follow step WithinWindow (booted fun _ => 0) lossy = some k' ∧
      k'.world.requests.map Request.cmdStr = [bytes "ls", bytes "cat b"] ∧
      k'.net.responses.callbacks.map Callback.payload =
        [bytes "Directory is empty.", bytes "Error: File not found: b"] ∧
      (∀ j < 2, ∃ i, k'.Asked i j ∧ ∀ j', k'.Asked i j' → j' = j) ∧
      ∀ p < 2, ∃ j, k'.Told p j ∧ ∀ p', k'.Told p' j → p' = p := by
  have hends : (follow step WithinWindow (booted fun _ => 0) lossy).map (fun k =>
      (k.world.requests.map Request.cmdStr, k.net.responses.callbacks.map Callback.payload)) =
        some ([bytes "ls", bytes "cat b"],
          [bytes "Directory is empty.", bytes "Error: File not found: b"]) := by
    decide +kernel
  obtain ⟨k', hfollow, hend⟩ := Option.map_eq_some_iff.mp hends
  obtain ⟨hrequests, hshown⟩ := Prod.mk.inj hend
  obtain ⟨hasked, -, htold, -⟩ := answered_once (booted_initial _) (.of_follow hfollow)
  have hcount : k'.world.requests.length = 2 := by simpa using congrArg List.length hrequests
  have hprinted : k'.net.responses.callbacks.length = 2 := by
    simpa using congrArg List.length hshown
  exact ⟨k', hfollow, hrequests, hshown, hcount ▸ hasked, hprinted ▸ htold⟩

/-- **Lines that arrive are answered in order.** From every state that is reached and in which no
packet is on its way, lines sent one after another over a network that loses nothing print exactly
the replies of their evaluation on the files, which are left as that evaluation leaves them. -/
theorem lines_answered {k₀ k : Kernel dev} (h₀ : k₀.Initial)
    (hrun : Reaches step WithinWindow k₀ k) {nowNs : ℤ} (hi : k.net.Idle nowNs)
    {lines replies : List Bytes} (hcalls : k.net.requests.sends.length + lines.length ≤ 256)
    (hlen : ∀ cmdStr ∈ lines, cmdStr.length < 0x10000)
    (hreply : ∀ reply ∈ replies, reply.length < 0x10000) {fs : Fs} {disk : dev.State}
    (heval : (evalAll lines).run dev.handler k.world.fs k.world.disk =
      (.done replies, fs, disk)) :
    ∃ k', Reaches step WithinWindow k k' ∧ k'.net.Idle nowNs ∧
      k'.net.responses.callbacks.map Callback.payload =
        k.net.responses.callbacks.map Callback.payload ++ replies ∧
      k'.world.fs = fs ∧ k'.world.disk = disk :=
  answer_lines (h₀.serving.run hrun) hi hcalls hlen hreply heval

/-- Three lines on a disk without files. -/
theorem lines_answered_session : ∃ k k' : Kernel (Disk.device 2048), k.Initial ∧
    Mounted 2048 [] k.world.fs k.world.disk ∧ Reaches step WithinWindow k k' ∧ k'.net.Idle 0 ∧
    k'.net.responses.callbacks.map Callback.payload =
      [bytes "Directory is empty.", bytes "File created successfully.", bytes "hello"] := by
  have hm : Mounted 2048 [] ⟨deviceInfo 2048, cacheOf []⟩
      (Disk.write (fun _ => 0) 0 (layout [] 5)) :=
    mounted_layout (WellFormed.nil : WellFormed ⟨deviceInfo 2048, ∅⟩ []) 5
  generalize Disk.write (fun _ => 0) 0 (layout [] 5) = c at hm
  have hfit : ∀ line ∈ [bytes "ls", bytes "write a hello", bytes "cat a"], NamesFit line := by
    decide
  obtain ⟨replies, -, fs, c', hruns, -, -, hall⟩ := hm.evalAll_agrees shows_nil hfit
  have hanswers : (Reference.evalAll ∅ [bytes "ls", bytes "write a hello", bytes "cat a"]).1 =
      [bytes "Directory is empty.", bytes "File created successfully.", bytes "hello"].map .text :=
    rfl
  rw [hanswers] at hall
  obtain rfl := forall₂_matches_text hall
  have hcalls : (booted c).net.requests.sends.length +
      [bytes "ls", bytes "write a hello", bytes "cat a"].length ≤ 256 :=
    (by decide : startNet.requests.sends.length + 3 ≤ 256)
  obtain ⟨k', hrun, hidle, hshown, -⟩ := lines_answered (booted_initial c) (.refl _) startNet_idle
    hcalls (by decide) (by decide) hruns
  exact ⟨booted c, k', booted_initial c, hm, hrun, hidle, hshown⟩

end Kernel

end OCamlStudy.NanoOs
