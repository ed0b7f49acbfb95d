import DnslessHomelab.Broadcast
import DnslessHomelab.BroadcastDelivery

/-!
# The server's main loop

Each round polls the interface, reports what it found, broadcasts an address that
differs from the last one, sleeps, and broadcasts a heartbeat. The accept thread runs
beside it. Of the configuration only what the loop reads is kept; the interval and
the admin server are left out.

`history` records the broadcasts that took the lock with the value `last_ip` had.
-/
namespace DnslessHomelab.ServerLoop
open Protocol Runs Broadcast BroadcastDelivery

structure ServerConfig where
  hostname : Text
  port : UInt16
  interface : Text

/-- Where the main thread stands; the sleep is part of a heartbeat still to come. -/
inductive Main where
  | polling
  | broadcasting (msg : Message)
  | traversing (msg : Message)
  | reporting

structure Server where
  threads : Threads
  main : Main
  lastIp : Option Text
  history : List (Message × Option Text)

inductive Action where
  | accept (a : Broadcast.Action)
  | poll (detected : Except Text Ipv4Addr)
  | lock
  | visit
  | unlock
  | heartbeatSent

/-- The listener is bound and reported before the accept thread starts. -/
def start (cfg : ServerConfig) : Server where
  threads := Broadcast.start.emit (.listening ⟨⟨0, 0, 0, 0⟩, cfg.port⟩)
  main := .polling
  lastIp := none
  history := []

/-- The steps of the accept thread. -/
def ofAcceptThread : Broadcast.Action → Bool
  | .push _ | .announce | .cloneFails | .acceptFails _ => true
  | .broadcast _ | .visit | .unlock | .report _ => false

theorem not_report_of_acceptThread {a : Broadcast.Action} (ha : ofAcceptThread a = true)
    (ev : ServerEvent) : a ≠ .report ev := by
  intro heq
  subst heq
  cases ha

/-- What the main thread does after a broadcast has returned. -/
def afterBroadcast : Message → Main
  | .ipUpdate _ => .broadcasting .heartbeat
  | .heartbeat => .reporting

namespace Server

def emit (s : Server) (ev : ServerEvent) : Server := { s with threads := s.threads.emit ev }

/-- The result of a poll: a changed address is kept and will be broadcast. -/
def poll (s : Server) (cfg : ServerConfig) : Except Text Ipv4Addr → Server
  | .ok ip =>
      if s.lastIp ≠ some ip.toString then
        { s.emit (.ipChanged cfg.hostname ip.toString s.lastIp.isNone) with
          lastIp := some ip.toString
          main := .broadcasting (.ipUpdate ⟨cfg.hostname, ip.toString⟩) }
      else
        { s.emit (.pollUnchanged ip.toString) with main := .broadcasting .heartbeat }
  | .error e =>
      let message := "Could not detect IP for interface '".toList ++ cfg.interface ++
        "': ".toList ++ e
      { s.emit (.error message) with main := .broadcasting .heartbeat }

end Server

def step (cfg : ServerConfig) (json : SerdeJson) (accepts : ℕ → ℕ → ℕ) (s : Server)
    (a : Action) : Option Server :=
  match a, s.main with
  | .accept a, _ =>
      if ofAcceptThread a then
        (Broadcast.step json accepts s.threads a).map fun threads => { s with threads }
      else none
  | .poll detected, .polling => some (s.poll cfg detected)
  | .lock, .broadcasting msg =>
      match broadcastLine json msg with
      | none => some { s with main := afterBroadcast msg }
      | some _ =>
          (Broadcast.step json accepts s.threads (.broadcast msg)).map fun threads =>
            { s with
              threads
              main := .traversing msg
              history := s.history ++ [(msg, s.lastIp)] }
  | .visit, .traversing _ =>
      (Broadcast.step json accepts s.threads .visit).map fun threads => { s with threads }
  | .unlock, .traversing msg =>
      (Broadcast.step json accepts s.threads .unlock).map fun threads =>
        { s with threads, main := afterBroadcast msg }
  | .heartbeatSent, .reporting => some { s.emit .heartbeatSent with main := .polling }
  | _, _ => none

/-- Everything a step of the server can do, with what it rests on. -/
inductive Effect (cfg : ServerConfig) (json : SerdeJson) (accepts : ℕ → ℕ → ℕ) (s : Server) :
    Action → Server → Prop
  | accepts (b : Broadcast.Action) (threads : Threads) (hb : ofAcceptThread b = true)
      (hthreads : Broadcast.step json accepts s.threads b = some threads) :
      Effect cfg json accepts s (.accept b) { s with threads }
  | changed (ip : Ipv4Addr) (hmain : s.main = .polling) (hip : s.lastIp ≠ some ip.toString) :
      Effect cfg json accepts s (.poll (.ok ip))
        { s.emit (.ipChanged cfg.hostname ip.toString s.lastIp.isNone) with
          lastIp := some ip.toString
          main := .broadcasting (.ipUpdate ⟨cfg.hostname, ip.toString⟩) }
  | unchanged (ip : Ipv4Addr) (hmain : s.main = .polling) (hip : s.lastIp = some ip.toString) :
      Effect cfg json accepts s (.poll (.ok ip))
        { s.emit (.pollUnchanged ip.toString) with main := .broadcasting .heartbeat }
  | undetected (e : Text) (hmain : s.main = .polling) :
      Effect cfg json accepts s (.poll (.error e))
        { s.emit (.error ("Could not detect IP for interface '".toList ++ cfg.interface ++
            "': ".toList ++ e)) with main := .broadcasting .heartbeat }
  | unserialized (msg : Message) (hmain : s.main = .broadcasting msg)
      (hline : broadcastLine json msg = none) :
      Effect cfg json accepts s .lock { s with main := afterBroadcast msg }
  | locks (msg : Message) (line : Bytes) (threads : Threads) (hmain : s.main = .broadcasting msg)
      (hline : broadcastLine json msg = some line)
      (hthreads : Broadcast.step json accepts s.threads (.broadcast msg) = some threads)
      (hsent : threads.sent = s.threads.sent ++ [line]) :
      Effect cfg json accepts s .lock
        { s with threads, main := .traversing msg, history := s.history ++ [(msg, s.lastIp)] }
  | visits (msg : Message) (threads : Threads) (hmain : s.main = .traversing msg)
      (hthreads : Broadcast.step json accepts s.threads .visit = some threads)
      (hsent : threads.sent = s.threads.sent) :
      Effect cfg json accepts s .visit { s with threads }
  | unlocks (msg : Message) (threads : Threads) (hmain : s.main = .traversing msg)
      (hthreads : Broadcast.step json accepts s.threads .unlock = some threads)
      (hsent : threads.sent = s.threads.sent) :
      Effect cfg json accepts s .unlock { s with threads, main := afterBroadcast msg }
  | heartbeatSent (hmain : s.main = .reporting) :
      Effect cfg json accepts s .heartbeatSent { s.emit .heartbeatSent with main := .polling }

theorem effect_of_step {cfg : ServerConfig} {json : SerdeJson} {accepts : ℕ → ℕ → ℕ}
    {s s' : Server} {a : Action} (h : step cfg json accepts s a = some s') :
    Effect cfg json accepts s a s' := by
  unfold step at h
  split at h
  · split_ifs at h with hb
    obtain ⟨threads, hthreads, rfl⟩ := Option.map_eq_some_iff.mp h
    exact .accepts _ threads hb hthreads
  · rename_i detected hmain
    cases h
    cases detected with
    | error e => exact .undetected e hmain
    | ok ip =>
        unfold Server.poll
        simp only
        split_ifs with hip
        · exact .changed ip hmain hip
        · exact .unchanged ip hmain (by simpa using hip)
  · rename_i msg hmain
    split at h
    · rename_i hline
      cases h
      exact .unserialized msg hmain hline
    · rename_i line hline
      obtain ⟨threads, hthreads, rfl⟩ := Option.map_eq_some_iff.mp h
      apply Effect.locks msg line threads hmain hline hthreads
      cases Broadcast.effect_of_step hthreads with
      | unserialized _ hnone =>
          rw [hnone] at hline
          cases hline
      | locks _ clients l _ hl =>
          rw [hl] at hline
          cases hline
          rfl
  · rename_i msg hmain
    obtain ⟨threads, hthreads, rfl⟩ := Option.map_eq_some_iff.mp h
    apply Effect.visits msg threads hmain hthreads
    cases Broadcast.effect_of_step hthreads with
    | keeps | drops => rfl
  · rename_i msg hmain
    obtain ⟨threads, hthreads, rfl⟩ := Option.map_eq_some_iff.mp h
    apply Effect.unlocks msg threads hmain hthreads
    cases Broadcast.effect_of_step hthreads with
    | unlocks => rfl
  · rename_i hmain
    cases h
    exact .heartbeatSent hmain
  · cases h

/-- An event that is not about a client is a step of the two threads. -/
theorem step_report {json : SerdeJson} {accepts : ℕ → ℕ → ℕ} (t : Threads) {ev : ServerEvent}
    (hev : aboutClient ev = false) :
    Broadcast.step json accepts t (.report ev) = some (t.emit ev) := by
  cases hlist : t.list <;> simp [Broadcast.step, hev]

/-- What a step of the server does to the connections is a step of the two threads. -/
theorem threads_of_step {cfg : ServerConfig} {json : SerdeJson} {accepts : ℕ → ℕ → ℕ}
    {s s' : Server} {a : Action} (h : step cfg json accepts s a = some s') :
    s'.threads = s.threads ∨ ∃ b, Broadcast.step json accepts s.threads b = some s'.threads := by
  cases effect_of_step h with
  | accepts b threads _ hthreads => exact .inr ⟨b, hthreads⟩
  | changed | unchanged | undetected | heartbeatSent => exact .inr ⟨_, step_report _ rfl⟩
  | unserialized => exact .inl rfl
  | locks msg line threads _ _ hthreads _ => exact .inr ⟨_, hthreads⟩
  | visits msg threads _ hthreads _ => exact .inr ⟨_, hthreads⟩
  | unlocks msg threads _ hthreads _ => exact .inr ⟨_, hthreads⟩

theorem delivery_start (accepts : ℕ → ℕ → ℕ) (cfg : ServerConfig) :
    Delivery accepts (start cfg).threads :=
  (BroadcastDelivery.delivery_start accepts).congr rfl rfl rfl rfl rfl

theorem delivery_step {cfg : ServerConfig} {json : SerdeJson} {accepts : ℕ → ℕ → ℕ}
    {s s' : Server} {a : Action} (h : Delivery accepts s.threads)
    (hstep : step cfg json accepts s a = some s') : Delivery accepts s'.threads := by
  cases threads_of_step hstep with
  | inl heq => exact heq ▸ h
  | inr hb =>
      obtain ⟨b, hb⟩ := hb
      exact BroadcastDelivery.delivery_step _ b _ h hb

/-- The address of the last update among the messages. -/
def lastUpdate (msgs : List Message) : Option Text :=
  msgs.foldl (fun last msg => match msg with
    | .ipUpdate u => some u.ip
    | .heartbeat => last) none

@[simp] theorem lastUpdate_nil : lastUpdate [] = none := rfl

theorem lastUpdate_concat (msgs : List Message) (msg : Message) :
    lastUpdate (msgs ++ [msg]) = match msg with
      | .ipUpdate u => some u.ip
      | .heartbeat => lastUpdate msgs := by
  simp [lastUpdate]

/-- The last update of two stretches is that of the second, if it has one. -/
theorem lastUpdate_append (ms ns : List Message) :
    lastUpdate (ms ++ ns) = (lastUpdate ns).or (lastUpdate ms) := by
  induction ns using List.reverseRecOn with
  | nil => simp
  | append_singleton ns n ih =>
      rw [← List.append_assoc, lastUpdate_concat, lastUpdate_concat]
      cases n with
      | ipUpdate u => rfl
      | heartbeat => exact ih

theorem lastUpdate_isSome_iff {msgs : List Message} :
    (lastUpdate msgs).isSome ↔ ∃ u, .ipUpdate u ∈ msgs := by
  induction msgs using List.reverseRecOn with
  | nil => simp
  | append_singleton msgs msg ih =>
      rw [lastUpdate_concat]
      cases msg with
      | ipUpdate u => simp
      | heartbeat => simpa using ih

/-- Every broadcast carried the configured hostname and went out with the address of
the last update, which is what `last_ip` holds. -/
structure Recorded (cfg : ServerConfig) (json : SerdeJson) (s : Server) : Prop where
  lines : s.threads.sent.map some = s.history.map fun e => broadcastLine json e.1
  hostname : ∀ e ∈ s.history, ∀ u, e.1 = .ipUpdate u → u.hostname = cfg.hostname
  addresses : ∀ before e after, s.history = before ++ e :: after →
    e.2 = lastUpdate ((before ++ [e]).map Prod.fst)
  main : match s.main with
    | .broadcasting (.ipUpdate u) => u.hostname = cfg.hostname ∧ s.lastIp = some u.ip
    | _ => s.lastIp = lastUpdate (s.history.map Prod.fst)

theorem recorded_start (cfg : ServerConfig) (json : SerdeJson) : Recorded cfg json (start cfg) := by
  constructor
  · rfl
  · simp [start]
  · intro before e after h
    simp [start] at h
  · rfl

section Step
variable {cfg : ServerConfig} {json : SerdeJson} {accepts : ℕ → ℕ → ℕ} {s s' : Server}

/-- A step that is no broadcast keeps the record; the main thread's next state fits. -/
theorem Recorded.quiet (h : Recorded cfg json s) (hsent : s'.threads.sent = s.threads.sent)
    (hhistory : s'.history = s.history)
    (hmain : match s'.main with
      | .broadcasting (.ipUpdate u) => u.hostname = cfg.hostname ∧ s'.lastIp = some u.ip
      | _ => s'.lastIp = lastUpdate (s'.history.map Prod.fst)) : Recorded cfg json s' := by
  constructor
  · rw [hsent, hhistory]
    exact h.lines
  · rw [hhistory]
    exact h.hostname
  · rw [hhistory]
    exact h.addresses
  · exact hmain

theorem Recorded.lock (h : Recorded cfg json s) {msg : Message} {line : Bytes}
    (hmain : s.main = .broadcasting msg) (hline : broadcastLine json msg = some line)
    (hsent : s'.threads.sent = s.threads.sent ++ [line]) (hmain' : s'.main = .traversing msg)
    (hlastIp : s'.lastIp = s.lastIp) (hhistory : s'.history = s.history ++ [(msg, s.lastIp)]) :
    Recorded cfg json s' := by
  have hlast := h.main
  rw [hmain] at hlast
  have hcurrent : s.lastIp = lastUpdate ((s.history ++ [(msg, s.lastIp)]).map Prod.fst) := by
    rw [List.map_append, List.map_cons, List.map_nil, lastUpdate_concat]
    cases msg with
    | ipUpdate u => exact hlast.2
    | heartbeat => exact hlast
  constructor
  · rw [hsent, hhistory, List.map_append, List.map_append, h.lines]
    simp [hline]
  · rw [hhistory]
    intro e he u hu
    cases List.mem_append.mp he with
    | inl he => exact h.hostname e he u hu
    | inr he =>
        cases List.mem_singleton.mp he
        cases hu
        exact hlast.1
  · intro before e after hsplit
    rw [hhistory] at hsplit
    rcases List.eq_nil_or_concat' after with rfl | ⟨init, x, rfl⟩
    · obtain ⟨rfl, hlastEntry⟩ := List.append_inj' hsplit rfl
      cases hlastEntry
      exact hcurrent
    · have hsplit' : s.history ++ [(msg, s.lastIp)] = (before ++ e :: init) ++ [x] := by
        simpa using hsplit
      obtain ⟨hfront, -⟩ := List.append_inj' hsplit' rfl
      exact h.addresses before e init hfront
  · rw [hmain', hlastIp, hhistory]
    exact hcurrent

theorem sent_eq_of_acceptThread {t t' : Threads} {b : Broadcast.Action}
    (hb : ofAcceptThread b = true) (h : Broadcast.step json accepts t b = some t') :
    t'.sent = t.sent := by
  cases Broadcast.effect_of_step h with
  | pushes | announces | cloneFails | acceptFails => rfl
  | unserialized | reports | locks | keeps | drops | unlocks => cases hb

theorem recorded_step (hjson : ∀ msg, broadcastLine json msg ≠ none) {a : Action}
    (h : Recorded cfg json s) (hstep : step cfg json accepts s a = some s') :
    Recorded cfg json s' := by
  have hlast := h.main
  cases effect_of_step hstep with
  | accepts b threads hb hthreads =>
      exact h.quiet (sent_eq_of_acceptThread hb hthreads) rfl h.main
  | changed ip => exact h.quiet rfl rfl ⟨rfl, rfl⟩
  | unchanged ip hmain | undetected e hmain | heartbeatSent hmain =>
      rw [hmain] at hlast
      exact h.quiet rfl rfl hlast
  | unserialized msg _ hline => exact absurd hline (hjson msg)
  | locks msg line threads hmain hline _ hsent => exact h.lock hmain hline hsent rfl rfl rfl
  | visits msg threads _ _ hsent => exact h.quiet hsent rfl h.main
  | unlocks msg threads hmain _ hsent =>
      rw [hmain] at hlast
      refine h.quiet hsent rfl ?_
      cases msg with
      | ipUpdate u => exact hlast
      | heartbeat => exact hlast

end Step

/-- A server to run examples with. -/
def nas : ServerConfig := ⟨"nas".toList, 5353, "eth0".toList⟩

end DnslessHomelab.ServerLoop
