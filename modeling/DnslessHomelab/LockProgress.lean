import DnslessHomelab.SendOrder

/-!
# No thread waits forever

The main thread holds the lock of the client list while it reports a dropped client, and
for that it waits for the lock of the browsers; the accept thread gives the first lock
back before it takes the second. So whichever sends fail, the main thread gets back to
its next poll, through the sleep, and the accept thread to the listener, within a number
of steps known in advance.
-/
namespace DnslessHomelab.LockProgress
open Protocol Runs EventSinks ServerProcess SendOrder
open ServerLoop (ServerConfig Server Main afterBroadcast nas)
open Broadcast (Threads ClientList)

/-- Steps that wait for nothing but a lock, the end of a write or the clock: the sleep of
a round is part of the lock of its heartbeat. Polls, connections and new browsers come
from outside. -/
def ofServer : ServerLoop.Action → Bool
  | .lock | .visit | .unlock | .heartbeatSent | .accept .announce => true
  | .poll _ | .accept (.push _) | .accept .cloneFails | .accept (.acceptFails _)
  | .accept (.broadcast _) | .accept .visit | .accept .unlock | .accept (.report _) => false

def Internal : ServerProcess.Action → Bool
  | .loop a => ofServer a
  | .lockBrowsers _ | .sendBrowser _ | .unlockBrowsers => true
  | .browserOpens => false

/-- The main thread is about to poll, the accept thread is at the listener; no lock is
held. -/
structure Quiet (p : Process) : Prop where
  main : p.server.main = .polling
  accept : p.server.threads.accepting = none
  clients : ∃ clients, p.server.threads.list = .free clients
  browsers : ∃ browsers, p.browsers = .free browsers
  sends : p.inFlight = .none

/-- The main thread is traversing exactly while the list is locked. -/
def Placed (s : Server) : Prop :=
  match s.main with
  | .traversing _ => ∃ line kept rest, s.threads.list = .held line kept rest
  | _ => ∃ clients, s.threads.list = .free clients

section Placed
variable {cfg : ServerConfig} {json : SerdeJson} {accepts : ℕ → ℕ → ℕ} {s s' : Server}

theorem Placed.congr (h : Placed s) (hmain : s'.main = s.main)
    (hlist : s'.threads.list = s.threads.list) : Placed s' := by
  unfold Placed
  rw [hmain, hlist]
  exact h

theorem placed_step {a : ServerLoop.Action} (h : Placed s)
    (hstep : ServerLoop.step cfg json accepts s a = some s') : Placed s' := by
  cases ServerLoop.effect_of_step hstep with
  | accepts b threads hb hthreads =>
      cases Broadcast.effect_of_step hthreads with
      | pushes peer clients hlist _ =>
          unfold Placed at h ⊢
          dsimp only at h ⊢
          split at h
          · obtain ⟨line, kept, rest, hheld⟩ := h
            rw [hheld] at hlist
            cases hlist
          · exact ⟨_, rfl⟩
      | announces | cloneFails | acceptFails => exact h.congr rfl rfl
      | unserialized | reports | locks | keeps | drops | unlocks => cases hb
  | changed _ hmain | unchanged _ hmain | undetected _ hmain | heartbeatSent hmain =>
      unfold Placed at h
      rw [hmain] at h
      exact h
  | unserialized msg hmain hline =>
      unfold Placed at h
      rw [hmain] at h
      cases msg <;> exact h
  | locks msg line threads hmain hline hthreads _ =>
      cases Broadcast.effect_of_step hthreads with
      | unserialized _ hnone =>
          rw [hnone] at hline
          cases hline
      | locks _ clients l _ _ => exact ⟨l, [], clients, rfl⟩
  | visits msg threads hmain hthreads _ =>
      unfold Placed
      dsimp only
      rw [hmain]
      cases Broadcast.effect_of_step hthreads with
      | keeps line kept rest c => exact ⟨line, kept ++ [c], rest, rfl⟩
      | drops line kept rest c => exact ⟨line, kept, rest, rfl⟩
  | unlocks msg threads _ hthreads _ =>
      cases Broadcast.effect_of_step hthreads with
      | unlocks line kept _ => cases msg <;> exact ⟨kept, rfl⟩

end Placed

/-! ### How much is left to do -/

/-- Steps of a broadcast, when reporting a dropped client takes `k` of them. -/
def broadcastWork (k clients : ℕ) : ℕ := clients * k + 2

def afterWork (k clients : ℕ) : Message → ℕ
  | .ipUpdate _ => broadcastWork k clients + k
  | .heartbeat => k

def mainWork (k : ℕ) (list : ClientList) : Main → ℕ
  | .polling => 0
  | .broadcasting msg => broadcastWork k list.listed.length + afterWork k list.listed.length msg
  | .traversing msg => list.awaiting.length * k + 1 + afterWork k list.listed.length msg
  | .reporting => k

def serverWork (k : ℕ) (s : Server) : ℕ :=
  mainWork k s.threads.list s.main + if s.threads.accepting.isSome then k else 0

/-- What is left of the sends in flight. -/
def browserWork (inFlight : InFlight) : BrowserList → ℕ
  | .free browsers => inFlight.events.length * (browsers.length + 2)
  | .held _ _ kept rest =>
      rest.length + 1 + (inFlight.events.length - 1) * ((kept ++ rest).length + 2)

/-- A bound on the steps until both threads are quiet. -/
def work (p : Process) : ℕ :=
  serverWork (p.browsers.listed.length + 3) p.server + browserWork p.inFlight p.browsers

section Server
variable {k k' : ℕ}

theorem broadcastWork_mono {clients clients' : ℕ} (hk : k' ≤ k) (h : clients' ≤ clients) :
    broadcastWork k' clients' ≤ broadcastWork k clients :=
  Nat.add_le_add_right (Nat.mul_le_mul h hk) 2

theorem afterWork_mono {clients clients' : ℕ} (hk : k' ≤ k) (h : clients' ≤ clients)
    (msg : Message) : afterWork k' clients' msg ≤ afterWork k clients msg := by
  cases msg with
  | ipUpdate u => exact Nat.add_le_add (broadcastWork_mono hk h) hk
  | heartbeat => exact hk

theorem serverWork_mono (hk : k' ≤ k) (s : Server) : serverWork k' s ≤ serverWork k s := by
  unfold serverWork
  apply Nat.add_le_add
  · cases s.main with
    | polling => exact Nat.le_refl _
    | broadcasting msg =>
        exact Nat.add_le_add (broadcastWork_mono hk (Nat.le_refl _))
          (afterWork_mono hk (Nat.le_refl _) msg)
    | traversing msg =>
        exact Nat.add_le_add (Nat.add_le_add_right (Nat.mul_le_mul_left _ hk) 1)
          (afterWork_mono hk (Nat.le_refl _) msg)
    | reporting => exact hk
  · split_ifs
    · exact hk
    · exact Nat.le_refl _

theorem mainWork_afterBroadcast (clients : List Broadcast.ClientConn) (msg : Message) :
    mainWork k (.free clients) (afterBroadcast msg) = afterWork k clients.length msg := by
  cases msg <;> rfl

variable {cfg : ServerConfig} {json : SerdeJson} {accepts : ℕ → ℕ → ℕ} {s s' : Server}

/-- What handing over the event of a step will take, and the step itself. -/
def stepWork (k : ℕ) (s s' : Server) : ℕ :=
  match emitted s s' with
  | none => 1
  | some _ => k

theorem le_of_silent (hwork : serverWork k s' + 1 ≤ serverWork k s)
    (h : s'.threads.events = s.threads.events) :
    serverWork k s' + stepWork k s s' ≤ serverWork k s := by
  unfold stepWork emitted
  rw [h, List.drop_length]
  exact hwork

theorem le_of_emit {ev : ServerEvent} (hwork : serverWork k s' + k ≤ serverWork k s)
    (h : s'.threads.events = s.threads.events ++ [ev]) :
    serverWork k s' + stepWork k s s' ≤ serverWork k s := by
  unfold stepWork emitted
  rw [h, List.drop_left]
  exact hwork

/-- A step leaves less to do, by what its event takes. -/
theorem serverWork_step (hk : 0 < k) {a : ServerLoop.Action} (hinternal : ofServer a = true)
    (hplaced : Placed s) (h : ServerLoop.step cfg json accepts s a = some s') :
    serverWork k s' + stepWork k s s' ≤ serverWork k s := by
  cases ServerLoop.effect_of_step h with
  | changed | unchanged | undetected => cases hinternal
  | accepts b threads hb hthreads =>
      cases Broadcast.effect_of_step hthreads with
      | announces peer haccepting =>
          refine le_of_emit ?_ rfl
          simp [serverWork, haccepting, Threads.emit]
      | pushes | cloneFails | acceptFails | unserialized | reports | locks | keeps | drops
      | unlocks => cases hinternal
  | unserialized msg hmain hline =>
      refine le_of_silent ?_ rfl
      unfold Placed at hplaced
      rw [hmain] at hplaced
      obtain ⟨clients, hlist⟩ := hplaced
      unfold serverWork
      dsimp only
      rw [hmain, hlist, mainWork_afterBroadcast, mainWork, broadcastWork, ClientList.listed]
      omega
  | locks msg line threads hmain hline hthreads _ =>
      cases Broadcast.effect_of_step hthreads with
      | unserialized _ hnone =>
          rw [hnone] at hline
          cases hline
      | locks _ clients l hlist _ =>
          refine le_of_silent ?_ rfl
          unfold serverWork
          dsimp only
          rw [hmain, hlist, mainWork, mainWork, broadcastWork, ClientList.awaiting,
            ClientList.listed, ClientList.listed, List.nil_append]
          omega
  | visits msg threads hmain hthreads _ =>
      cases Broadcast.effect_of_step hthreads with
      | keeps line kept rest c hlist _ =>
          refine le_of_silent ?_ rfl
          unfold serverWork
          dsimp only
          rw [hmain, hlist, mainWork, mainWork, ClientList.awaiting, ClientList.awaiting,
            ClientList.listed, ClientList.listed, List.append_assoc, List.singleton_append,
            List.length_cons, Nat.succ_mul]
          show _ + (if s.threads.accepting.isSome then k else 0) + 1 ≤ _
          omega
      | drops line kept rest c hlist _ =>
          refine le_of_emit ?_ rfl
          have hafter : afterWork k (kept ++ rest).length msg ≤
              afterWork k (kept ++ c :: rest).length msg := by
            apply afterWork_mono (Nat.le_refl _)
            simp
          unfold serverWork
          dsimp only
          rw [hmain, hlist, mainWork, mainWork, ClientList.awaiting, ClientList.awaiting,
            ClientList.listed, ClientList.listed, List.length_cons, Nat.succ_mul]
          show _ + (if s.threads.accepting.isSome then k else 0) + k ≤ _
          omega
  | unlocks msg threads hmain hthreads _ =>
      cases Broadcast.effect_of_step hthreads with
      | unlocks line kept hlist =>
          refine le_of_silent ?_ rfl
          unfold serverWork
          dsimp only
          rw [hmain, hlist, mainWork_afterBroadcast, mainWork, ClientList.awaiting,
            ClientList.listed, List.append_nil, List.length_nil, Nat.zero_mul]
          omega
  | heartbeatSent hmain =>
      refine le_of_emit ?_ rfl
      unfold serverWork
      dsimp only [Server.emit]
      rw [hmain, mainWork, mainWork]
      show 0 + (if s.threads.accepting.isSome then k else 0) + k ≤ _
      omega

end Server

/-- What the waiting rests on: where the main thread is, and whose event is being sent. -/
structure Steady (p : Process) : Prop where
  placed : Placed p.server
  holder : ∀ t ev kept rest, p.browsers = .held t ev kept rest → sending p.inFlight t = some ev

section Sends
variable {inFlight : InFlight} {t : Thread} {ev : ServerEvent}

theorem finish_length {r : ServerEvent × InFlight} (h : finish inFlight t = some r) :
    inFlight.events.length = r.2.events.length + 1 := by
  unfold finish at h
  split at h
  · cases h
  · split_ifs at h
    cases h
    rfl
  · split_ifs at h
    · cases h
      rfl
    · cases h
      rfl

theorem events_pos_of_sending (h : sending inFlight t = some ev) :
    0 < inFlight.events.length := by
  obtain ⟨r, hr, -⟩ := Option.map_eq_some_iff.mp h
  rw [finish_length hr]
  exact Nat.succ_pos _

end Sends

section Process
variable {cfg : ServerConfig} {json : SerdeJson} {events : ServerEvent → Except Text Text}
variable {accepts : ℕ → ℕ → ℕ} {p p' : Process} {a : ServerProcess.Action}

/-- Every internal step leaves less to do. -/
theorem work_step (hevents : ∀ ev, ∃ text, events ev = .ok text) (hsteady : Steady p)
    (hinternal : Internal a = true)
    (h : ServerProcess.step cfg json events accepts p a = some p') : work p' < work p := by
  have hk : 0 < p.browsers.listed.length + 3 := by omega
  cases effect_of_step hevents h with
  | quiet a server hidle hserver hevent =>
      have hless := serverWork_step hk hinternal hsteady.placed hserver
      rw [stepWork, hevent] at hless
      unfold work
      dsimp only at hless ⊢
      omega
  | emits a server ev inFlight hidle hserver hevent hbegin =>
      have hless := serverWork_step hk hinternal hsteady.placed hserver
      rw [stepWork, hevent] at hless
      have hevents' := congrArg List.length (events_begin hbegin)
      rw [List.length_append, List.length_singleton] at hevents'
      have hmore : browserWork inFlight p.browsers =
          browserWork p.inFlight p.browsers + (p.browsers.listed.length + 2) := by
        cases hbrowsers : p.browsers with
        | free browsers =>
            rw [browserWork, browserWork, hevents', Nat.succ_mul, BrowserList.listed]
        | held t ev' kept rest =>
            have hpos := events_pos_of_sending (hsteady.holder t ev' kept rest hbrowsers)
            have hsucc : inFlight.events.length - 1 = p.inFlight.events.length - 1 + 1 := by omega
            rw [browserWork, browserWork, hsucc, Nat.succ_mul, BrowserList.listed]
            omega
      unfold work
      dsimp only at hless ⊢
      omega
  | locks t r browsers hfinish hfree =>
      unfold work
      dsimp only
      rw [hfree, BrowserList.listed, BrowserList.listed, browserWork, browserWork, List.nil_append,
        finish_length hfinish, Nat.add_sub_cancel, Nat.succ_mul]
      omega
  | sends sent t ev kept rest ws hheld =>
      have hlisted : ((if sent then kept ++ [received ws ev] else kept) ++ rest).length ≤
          (kept ++ ws :: rest).length := by
        cases sent <;> simp
      have hserver := serverWork_mono (Nat.add_le_add_right hlisted 3) p.server
      have hwaiting := Nat.mul_le_mul_left (p.inFlight.events.length - 1)
        (Nat.add_le_add_right hlisted 2)
      unfold work
      dsimp only
      rw [hheld, BrowserList.listed, BrowserList.listed, browserWork, browserWork, List.length_cons]
      omega
  | unlocks t ev kept r hheld hfinish =>
      have hpos := finish_length hfinish
      have hpred : p.inFlight.events.length - 1 = r.2.events.length := by omega
      unfold work
      dsimp only
      rw [hheld, BrowserList.listed, BrowserList.listed, browserWork, browserWork,
        List.append_nil, hpred]
      omega
  | opens => cases hinternal

theorem loop_enabled {a : ServerLoop.Action} (hflight : p.inFlight = .none)
    (h : (ServerLoop.step cfg json accepts p.server a).isSome) :
    (ServerProcess.step cfg json events accepts p (.loop a)).isSome := by
  obtain ⟨server, hserver⟩ := Option.isSome_iff_exists.mp h
  simp only [ServerProcess.step, hflight, finish, hserver, Option.bind_some]
  cases emitted p.server server with
  | none => rfl
  | some ev => rfl

/-- The server's own loops can go on unless both are waiting. -/
theorem server_enabled {s : Server} (hplaced : Placed s)
    (hbusy : ¬ (s.main = .polling ∧ s.threads.accepting = none)) :
    ∃ a, ofServer a = true ∧ (ServerLoop.step cfg json accepts s a).isSome := by
  unfold Placed at hplaced
  cases hmain : s.main with
  | polling =>
      obtain ⟨peer, hpeer⟩ := Option.ne_none_iff_exists'.mp fun hnone => hbusy ⟨hmain, hnone⟩
      refine ⟨.accept .announce, rfl, ?_⟩
      simp [ServerLoop.step, ServerLoop.ofAcceptThread, Broadcast.step, hpeer]
  | broadcasting msg =>
      rw [hmain] at hplaced
      obtain ⟨clients, hlist⟩ := hplaced
      refine ⟨.lock, rfl, ?_⟩
      cases hline : Broadcast.broadcastLine json msg with
      | none => simp [ServerLoop.step, hmain, hline]
      | some line => simp [ServerLoop.step, hmain, hline, Broadcast.step, hlist]
  | traversing msg =>
      rw [hmain] at hplaced
      obtain ⟨line, kept, rest, hlist⟩ := hplaced
      cases rest with
      | nil => exact ⟨.unlock, rfl, by simp [ServerLoop.step, hmain, Broadcast.step, hlist]⟩
      | cons c rest =>
          refine ⟨.visit, rfl, ?_⟩
          simp only [ServerLoop.step, hmain, Broadcast.step, hlist, Option.isSome_map]
          split_ifs
          · rfl
          · rfl
  | reporting => exact ⟨.heartbeatSent, rfl, by simp [ServerLoop.step, hmain]⟩

/-- A send that waits for the browsers gets their lock when it is free. -/
theorem lock_enabled (hevents : ∀ ev, ∃ text, events ev = .ok text) {browsers : List WebSocket}
    (hfree : p.browsers = .free browsers) {t : Thread} {r : ServerEvent × InFlight}
    (hfinish : finish p.inFlight t = some r) :
    (ServerProcess.step cfg json events accepts p (.lockBrowsers t)).isSome := by
  obtain ⟨text, htext⟩ := hevents r.1
  simp [ServerProcess.step, hfinish, htext, hfree]

/-- Unless all is quiet, a thread can go on, whichever way its write ends. -/
theorem internal_enabled (hevents : ∀ ev, ∃ text, events ev = .ok text) (hsteady : Steady p)
    (hbusy : ¬ Quiet p) (sent : Bool) :
    ∃ a, Internal a = true ∧ (∀ b, a = .sendBrowser b → b = sent) ∧
      (ServerProcess.step cfg json events accepts p a).isSome := by
  cases hbrowsers : p.browsers with
  | held t ev kept rest =>
      cases rest with
      | cons ws rest =>
          refine ⟨.sendBrowser sent, rfl, fun b hb => ?_, ?_⟩
          · cases hb
            rfl
          · simp [ServerProcess.step, hbrowsers]
      | nil =>
          obtain ⟨r, hfinish, -⟩ :=
            Option.map_eq_some_iff.mp (hsteady.holder t ev kept [] hbrowsers)
          refine ⟨.unlockBrowsers, rfl, by simp, ?_⟩
          simp [ServerProcess.step, hbrowsers, hfinish]
  | free browsers =>
      cases hflight : p.inFlight with
      | one t ev =>
          have hfinish : finish p.inFlight t = some (ev, .none) := by
            rw [hflight]
            exact if_pos rfl
          exact ⟨.lockBrowsers t, rfl, by simp, lock_enabled hevents hbrowsers hfinish⟩
      | two t ev ev' =>
          have hfinish : finish p.inFlight t = some (ev, .one (other t) ev') := by
            rw [hflight]
            exact if_pos rfl
          exact ⟨.lockBrowsers t, rfl, by simp, lock_enabled hevents hbrowsers hfinish⟩
      | none =>
          have hserver : ¬ (p.server.main = .polling ∧ p.server.threads.accepting = none) := by
            rintro ⟨hmain, haccept⟩
            have hclients := hsteady.placed
            unfold Placed at hclients
            rw [hmain] at hclients
            exact hbusy ⟨hmain, haccept, hclients, ⟨browsers, hbrowsers⟩, hflight⟩
          obtain ⟨a, hinternal, henabled⟩ := server_enabled hsteady.placed hserver
          exact ⟨.loop a, hinternal, by simp, loop_enabled hflight henabled⟩

end Process

/-- The invariant of a run: what the waiting rests on, with the order of the sends. -/
def Reached (cfg : ServerConfig) (opened : ℕ) (p : Process) : Prop :=
  Placed p.server ∧ ∃ journal, Ordered cfg opened p journal

theorem Reached.steady {cfg : ServerConfig} {opened : ℕ} {p : Process} (h : Reached cfg opened p) :
    Steady p := by
  obtain ⟨hplaced, journal, hordered⟩ := h
  exact ⟨hplaced, hordered.holder⟩

theorem reached_step {cfg : ServerConfig} {json : SerdeJson}
    {events : ServerEvent → Except Text Text} (hevents : ∀ ev, ∃ text, events ev = .ok text)
    {accepts : ℕ → ℕ → ℕ} {opened : ℕ} (p : Process) (a : ServerProcess.Action) (p' : Process)
    (h : Reached cfg opened p)
    (hstep : ServerProcess.step cfg json events accepts p a = some p') :
    Reached cfg opened p' := by
  obtain ⟨hplaced, journal, hordered⟩ := h
  refine ⟨?_, _, ordered_step hevents p a p' journal hordered hstep⟩
  cases effect_of_step hevents hstep with
  | quiet a server _ hserver => exact placed_step hplaced hserver
  | emits a server ev inFlight _ hserver => exact placed_step hplaced hserver
  | locks | sends | unlocks | opens => exact hplaced

/-- In every state of every run, unless the main thread is about to poll and the accept
thread at the listener, with no lock held: some thread can go on by itself, whichever way
its write ends, and however the threads go on by themselves, `work` bounds the steps that
are left. -/
theorem locks_released (cfg : ServerConfig) (json : SerdeJson)
    (events : ServerEvent → Except Text Text) (hevents : ∀ ev, ∃ text, events ev = .ok text)
    (accepts : ℕ → ℕ → ℕ) (opened : ℕ) (actions : List ServerProcess.Action) (p : Process)
    (h : run (ServerProcess.step cfg json events accepts) (start cfg opened) actions = some p) :
    (¬ Quiet p → ∀ sent, ∃ a, Internal a = true ∧ (∀ b, a = .sendBrowser b → b = sent) ∧
      (ServerProcess.step cfg json events accepts p a).isSome) ∧
    ∀ more p', (∀ a ∈ more, Internal a = true) →
      run (ServerProcess.step cfg json events accepts) p more = some p' →
        more.length + work p' ≤ work p := by
  have hplaced : Placed (start cfg opened).server := ⟨[], rfl⟩
  have hreached : Reached cfg opened p :=
    invariant_run (reached_step hevents) ⟨hplaced, [], ordered_start cfg opened⟩ h
  constructor
  · exact fun hbusy sent => internal_enabled hevents hreached.steady hbusy sent
  · intro more p' hinternal hmore
    apply length_le_of_variant (reached_step hevents) _ hreached hmore
    intro q a ha q' hq hstep
    exact work_step hevents hq.steady (hinternal a ha) hstep

/-- Both threads are sending; the main thread holds both locks. -/
def bothLocked : List ServerProcess.Action :=
  [.loop (.accept (.push ConnectedClients.laptop)), .loop (.poll (.ok ⟨10, 0, 0, 1⟩)),
    .lockBrowsers .main, .sendBrowser true, .unlockBrowsers, .loop .lock, .loop .visit,
    .loop (.accept .announce), .lockBrowsers .main]

theorem bothLocked_released : ∃ p,
    run (ServerProcess.step nas MessageText.compactJson compactEvents fun _ _ => 0) (start nas 1)
        bothLocked = some p ∧
      work p = 12 ∧ ∃ a, Internal a = true ∧
        (ServerProcess.step nas MessageText.compactJson compactEvents (fun _ _ => 0) p a).isSome := by
  have hrun : ∃ p, run (ServerProcess.step nas MessageText.compactJson compactEvents fun _ _ => 0)
      (start nas 1) bothLocked = some p ∧ work p = 12 ∧ p.inFlight ≠ .none := by
    decide +kernel
  obtain ⟨p, hp, hwork, hflight⟩ := hrun
  have hreleased := locks_released nas MessageText.compactJson compactEvents
    (fun ev => ⟨printEvent ev, rfl⟩) (fun _ _ => 0) 1 bothLocked p hp
  obtain ⟨a, hinternal, -, henabled⟩ := hreleased.1 (fun hquiet => hflight hquiet.sends) false
  exact ⟨p, hp, hwork, a, hinternal, henabled⟩

end DnslessHomelab.LockProgress
