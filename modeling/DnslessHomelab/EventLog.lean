import DnslessHomelab.LateObserver
import DnslessHomelab.ServerProcess

/-!
# What the main thread's events tell of the wire

The main thread reports in rounds: what the poll found, the connections that were dropped
while broadcasting, and a heartbeat. A listener that checks this grammar never meets an event
it does not allow, and always knows the address the server holds and whether a round is going
on. From the events alone it can tell what is on the wire.
-/
namespace DnslessHomelab.EventLog
open Protocol Runs Broadcast BroadcastDelivery ServerLoop ServerProcess EventSinks

/-- What a listener keeps. -/
structure Listener where
  lastIp : Option Text
  inRound : Bool
  deriving DecidableEq, Repr

/-- The events allowed next. A change is marked as initial exactly when it is the first, and
is one; an unchanged address is the one last told. -/
def hear (l : Listener) : ServerEvent → Option Listener
  | .ipChanged _ ip isInitial =>
      if l.inRound = false ∧ l.lastIp ≠ some ip ∧ isInitial = l.lastIp.isNone then
        some ⟨some ip, true⟩
      else none
  | .pollUnchanged ip =>
      if l.inRound = false ∧ l.lastIp = some ip then some ⟨some ip, true⟩ else none
  | .error _ => if l.inRound then none else some ⟨l.lastIp, true⟩
  | .clientDisconnected _ => if l.inRound then some l else none
  | .heartbeatSent => if l.inRound then some ⟨l.lastIp, false⟩ else none
  | .listening _ | .clientConnected _ => none

/-- The messages of a round, from the event that begins it. -/
def messages : ServerEvent → List Message
  | .ipChanged hostname ip _ => [.ipUpdate ⟨hostname, ip⟩, .heartbeat]
  | .pollUnchanged _ | .error _ => [.heartbeat]
  | .listening _ | .clientConnected _ | .clientDisconnected _ | .heartbeatSent => []

/-- The messages of the round that are still to be broadcast. -/
def following : Message → List Message
  | .ipUpdate _ => [.heartbeat]
  | .heartbeat => []

def toCome : Main → List Message
  | .broadcasting msg => msg :: following msg
  | .traversing msg => following msg
  | .polling | .reporting => []

/-- The event of a step of the main thread. -/
def mainEvent (s : Server) (a : ServerLoop.Action) (s' : Server) : List ServerEvent :=
  match threadOf a with
  | .main => (emitted s s').toList
  | .accept => []

/-- The octets of a line. -/
def lineOf (json : SerdeJson) (msg : Message) : Bytes := (broadcastLine json msg).getD []

/-- The octets on a connection are the lines of a stretch of the messages, and at most a
strict prefix of the line of the next one. -/
def Carries (json : SerdeJson) (told : List Message) (octets : Bytes) : Prop :=
  ∃ before stretch rest torn, told = before ++ (stretch ++ rest) ∧
    octets = (stretch.map (lineOf json)).flatten ++ torn ∧
    (torn = [] ∨ ∃ msg later, rest = msg :: later ∧ torn <+: lineOf json msg ∧
      torn ≠ lineOf json msg)

/-- A round begins with its poll and ends with the heartbeat's own event. -/
def inRound : Main → Bool
  | .polling => false
  | .broadcasting _ | .traversing _ | .reporting => true

/-- The listener has the server's address and knows whether a round is going on. -/
def Hears (s : Server) (l : Listener) : Prop := l = ⟨s.lastIp, inRound s.main⟩

/-- The messages told and broadcast, but for those of the round still to come. -/
def Told (s : Server) (told : List ServerEvent) : Prop :=
  s.history.map Prod.fst ++ toCome s.main = told.flatMap messages

section Steps
variable {cfg : ServerConfig} {json : SerdeJson} {accepts : ℕ → ℕ → ℕ} {s s' : Server}

theorem emitted_emit {ev : ServerEvent} (h : s'.threads.events = s.threads.events ++ [ev]) :
    emitted s s' = some ev := by
  rw [emitted, h, List.drop_left]
  rfl

theorem emitted_none (h : s'.threads.events = s.threads.events) : emitted s s' = none := by
  rw [emitted, h, List.drop_length]
  rfl

/-- While connections are visited they can only be dropped. -/
theorem visit_event {threads : Threads}
    (h : Broadcast.step json accepts s.threads .visit = some threads) :
    emitted s { s with threads } = none ∨
      ∃ peer, emitted s { s with threads } = some (.clientDisconnected peer) := by
  cases Broadcast.effect_of_step h with
  | keeps => exact .inl (emitted_none rfl)
  | drops line kept rest c => exact .inr ⟨c.peer, emitted_emit rfl⟩

theorem events_of_lock {threads : Threads} {msg : Message}
    (h : Broadcast.step json accepts s.threads (.broadcast msg) = some threads) :
    threads.events = s.threads.events := by
  cases Broadcast.effect_of_step h with
  | unserialized | locks => rfl

theorem events_of_unlock {threads : Threads}
    (h : Broadcast.step json accepts s.threads .unlock = some threads) :
    threads.events = s.threads.events := by
  cases Broadcast.effect_of_step h with
  | unlocks => rfl

/-- What a step of the main thread tells, and what is left to broadcast after it. -/
inductive Tells (s s' : Server) (new : List ServerEvent) : Prop
  | begins (ev : ServerEvent) (hnew : new = [ev]) (hmain : s.main = .polling)
      (hhistory : s'.history = s.history) (hcome : toCome s'.main = messages ev)
      (hhear : hear ⟨s.lastIp, false⟩ ev = some ⟨s'.lastIp, inRound s'.main⟩)
  | goesOn (hnew : new = [] ∨ ∃ peer, new = [.clientDisconnected peer])
      (hlast : s'.lastIp = s.lastIp) (hround : inRound s'.main = inRound s.main)
      (hdropped : new = [] ∨ inRound s.main = true)
      (hcome : s'.history.map Prod.fst ++ toCome s'.main = s.history.map Prod.fst ++ toCome s.main)
  | ends (hnew : new = [.heartbeatSent]) (hmain : s.main = .reporting)
      (hafter : s'.main = .polling) (hlast : s'.lastIp = s.lastIp)
      (hhistory : s'.history = s.history)

theorem following_afterBroadcast (msg : Message) :
    toCome (afterBroadcast msg) = following msg ∧ inRound (afterBroadcast msg) = true := by
  cases msg with
  | ipUpdate | heartbeat => exact ⟨rfl, rfl⟩

theorem tells_of_step (hjson : ∀ msg, broadcastLine json msg ≠ none) {a : ServerLoop.Action}
    (h : ServerLoop.step cfg json accepts s a = some s') : Tells s s' (mainEvent s a s') := by
  cases ServerLoop.effect_of_step h with
  | accepts b threads => exact .goesOn (.inl rfl) rfl rfl (.inl rfl) rfl
  | changed ip hmain hip =>
      refine .begins (.ipChanged cfg.hostname ip.toString s.lastIp.isNone) ?_ hmain rfl rfl ?_
      · rw [mainEvent, threadOf, emitted_emit rfl]
        rfl
      · rw [hear, if_pos ⟨rfl, hip, rfl⟩]
        rfl
  | unchanged ip hmain hip =>
      refine .begins (.pollUnchanged ip.toString) ?_ hmain rfl rfl ?_
      · rw [mainEvent, threadOf, emitted_emit rfl]
        rfl
      · rw [hear, if_pos ⟨rfl, hip⟩, ← hip]
        rfl
  | undetected e hmain =>
      let message := "Could not detect IP for interface '".toList ++ cfg.interface ++
        "': ".toList ++ e
      refine .begins (.error message) ?_ hmain rfl rfl rfl
      rw [mainEvent, threadOf, emitted_emit rfl]
      rfl
  | unserialized msg _ hline => exact absurd hline (hjson msg)
  | locks msg line threads hmain _ hthreads =>
      have hnone : mainEvent s .lock { s with
          threads, main := .traversing msg, history := s.history ++ [(msg, s.lastIp)] } = [] := by
        rw [mainEvent, threadOf, emitted_none (events_of_lock hthreads)]
        rfl
      refine .goesOn (.inl hnone) rfl ?_ (.inl hnone) ?_
      · rw [hmain]
        rfl
      · rw [hmain, List.map_append, List.append_assoc]
        rfl
  | visits msg threads hmain hthreads =>
      have hround : inRound s.main = true := by rw [hmain]; rfl
      refine .goesOn ?_ rfl rfl (.inr hround) rfl
      rcases visit_event hthreads with hnone | ⟨peer, hdropped⟩
      · left
        rw [mainEvent, threadOf, hnone]
        rfl
      · right
        refine ⟨peer, ?_⟩
        rw [mainEvent, threadOf, hdropped]
        rfl
  | unlocks msg threads hmain hthreads =>
      have hnone : mainEvent s .unlock { s with threads, main := afterBroadcast msg } = [] := by
        rw [mainEvent, threadOf, emitted_none (events_of_unlock hthreads)]
        rfl
      obtain ⟨hcome, hround⟩ := following_afterBroadcast msg
      refine .goesOn (.inl hnone) rfl ?_ (.inl hnone) ?_
      · rw [hmain]
        exact hround
      · rw [hmain]
        exact congrArg _ hcome
  | heartbeatSent hmain =>
      refine .ends ?_ hmain rfl rfl rfl
      rw [mainEvent, threadOf, emitted_emit rfl]
      rfl

theorem hears_step (hjson : ∀ msg, broadcastLine json msg ≠ none) (s : Server)
    (a : ServerLoop.Action) (s' : Server) (l : Listener) (h : Hears s l)
    (hstep : ServerLoop.step cfg json accepts s a = some s') :
    ∃ l', run hear l (mainEvent s a s') = some l' ∧ Hears s' l' := by
  refine ⟨⟨s'.lastIp, inRound s'.main⟩, ?_, rfl⟩
  rw [h]
  cases tells_of_step hjson hstep with
  | begins ev hnew hmain _ _ hhear =>
      rw [hnew, hmain]
      exact run_cons_iff.mpr ⟨_, hhear, rfl⟩
  | goesOn hnew hlast hround hdropped =>
      rw [hlast, hround]
      rcases hnew with hnone | ⟨peer, hpeer⟩
      · rw [hnone]
        rfl
      · have hin : inRound s.main = true := by
          rcases hdropped with hnone | hin
          · rw [hpeer] at hnone
            cases hnone
          · exact hin
        rw [hpeer, hin]
        rfl
  | ends hnew hmain hafter hlast =>
      rw [hnew, hmain, hafter, hlast]
      rfl

theorem told_step (hjson : ∀ msg, broadcastLine json msg ≠ none) (s : Server)
    (a : ServerLoop.Action) (s' : Server) (told : List ServerEvent) (h : Told s told)
    (hstep : ServerLoop.step cfg json accepts s a = some s') :
    Told s' (told ++ mainEvent s a s') := by
  unfold Told at h ⊢
  rw [List.flatMap_append, ← h]
  cases tells_of_step hjson hstep with
  | begins ev hnew hmain hhistory hcome =>
      rw [hnew, hmain, hhistory, hcome, List.flatMap_singleton, List.append_assoc]
      rfl
  | goesOn hnew _ _ _ hcome =>
      have hsilent : (mainEvent s a s').flatMap messages = [] := by
        rcases hnew with hnone | ⟨peer, hpeer⟩
        · rw [hnone]
          rfl
        · rw [hpeer]
          rfl
      rw [hsilent, List.append_nil, hcome]
  | ends hnew hmain hafter _ hhistory =>
      rw [hnew, hmain, hafter, hhistory]
      exact (List.append_nil _).symm

/-- What was sent are the lines of the messages broadcast. -/
theorem sent_eq_lines (h : Recorded cfg json s) :
    s.threads.sent = (s.history.map Prod.fst).map (lineOf json) := by
  have hlines := congrArg (List.map fun line : Option Bytes => line.getD []) h.lines
  simp only [List.map_map] at hlines ⊢
  have hsome : (fun line : Option Bytes => line.getD []) ∘ some = id := rfl
  rw [hsome, List.map_id] at hlines
  exact hlines

theorem carries_of_received {told : List ServerEvent} {id : ℕ} (hrecorded : Recorded cfg json s)
    (htold : Told s told) (h : Received s.threads id) :
    Carries json (told.flatMap messages) (s.threads.written id) := by
  obtain ⟨front, torn, back, hsent, hwritten, hin, hout⟩ := h
  -- the messages whose lines were written whole
  rw [sent_eq_lines hrecorded, ← List.map_drop] at hsent
  obtain ⟨stretch, later, hsplit, rfl, rfl⟩ := List.map_eq_append_iff.mp hsent
  refine ⟨(s.history.map Prod.fst).take (s.threads.joined id), stretch, later ++ toCome s.main,
    torn, ?_, hwritten, ?_⟩
  · rw [← htold, ← List.append_assoc stretch, ← hsplit, ← List.append_assoc, List.take_append_drop]
  · by_cases hlisted : id ∈ ids s.threads.list.listed
    · exact .inl (hin hlisted).1
    · right
      obtain ⟨line, rest, hback, htorn, hne⟩ := hout hlisted
      obtain ⟨msg, later, rfl, rfl, -⟩ := List.map_eq_cons_iff.mp hback
      exact ⟨msg, later ++ toCome s.main, rfl, htorn, hne⟩

end Steps

/-- In every state of every run, however the accept thread is interleaved: the main thread's
events keep the grammar of its rounds, and a listener to them knows the address the server
holds and whether a round is going on; they tell the messages broadcast so far and those of
the round still to come; and every connection has got the lines of a stretch of what they
tell, with at most a strict prefix of one more. -/
theorem log_tells_wire (cfg : ServerConfig) (json : SerdeJson)
    (hjson : ∀ msg, broadcastLine json msg ≠ none) (accepts : ℕ → ℕ → ℕ)
    (actions : List ServerLoop.Action) (s : Server)
    (h : run (ServerLoop.step cfg json accepts) (ServerLoop.start cfg) actions = some s)
    (told : List ServerEvent)
    (htold : told =
      observe (ServerLoop.step cfg json accepts) mainEvent (ServerLoop.start cfg) actions) :
    run hear ⟨none, false⟩ told = some ⟨s.lastIp, inRound s.main⟩ ∧
      s.history.map Prod.fst ++ toCome s.main = told.flatMap messages ∧
      ∀ id < s.threads.nextId, Carries json (told.flatMap messages) (s.threads.written id) := by
  have hheard : ∃ l, run hear ⟨none, false⟩ told = some l ∧ Hears s l := by
    rw [htold]
    exact simulation_run (hears_step hjson) rfl h
  have hmessages : Told s told := by
    rw [htold]
    exact invariant_observe (b := []) (told_step hjson) rfl h
  have hrecorded : Recorded cfg json s :=
    invariant_run (fun _ _ _ hs hstep => recorded_step hjson hs hstep)
      (recorded_start cfg json) h
  let Delivers (s : Server) : Prop := Delivery accepts s.threads
  have hdelivery : Delivers s :=
    invariant_run (fun _ _ _ hs hstep => ServerLoop.delivery_step hs hstep)
      (ServerLoop.delivery_start accepts cfg) h
  obtain ⟨l, hl, rfl⟩ := hheard
  refine ⟨hl, hmessages, ?_⟩
  exact fun id hid => carries_of_received hrecorded hmessages (hdelivery.received hid)

/-- A client comes in the middle of a round, and is lost in the next one after a few octets. -/
def lostInSecondRound : List ServerLoop.Action :=
  [.poll (.ok ⟨10, 0, 0, 1⟩), .lock, .unlock, .accept (.push ConnectedClients.laptop), .lock,
    .visit, .unlock, .heartbeatSent, .accept .announce, .poll (.ok ⟨10, 0, 0, 2⟩), .lock, .visit]

/-- It has taken the first two lines whole, and no more than two octets of the third. -/
def twoOctets (_ round : ℕ) : ℕ := if round < 2 then 100 else 2

theorem lostInSecondRound_told : ∃ s,
    run (ServerLoop.step nas MessageText.compactJson twoOctets) (ServerLoop.start nas)
        lostInSecondRound = some s ∧
      run hear ⟨none, false⟩ (observe (ServerLoop.step nas MessageText.compactJson twoOctets)
          mainEvent (ServerLoop.start nas) lostInSecondRound) =
        some ⟨some "10.0.0.2".toList, true⟩ ∧
      s.threads.list.listed = [] ∧
      Carries MessageText.compactJson
        [.ipUpdate ⟨"nas".toList, "10.0.0.1".toList⟩, .heartbeat,
          .ipUpdate ⟨"nas".toList, "10.0.0.2".toList⟩, .heartbeat] (s.threads.written 0) := by
  have hrun : ∃ s, run (ServerLoop.step nas MessageText.compactJson twoOctets)
      (ServerLoop.start nas) lostInSecondRound = some s ∧
        (s.lastIp = some "10.0.0.2".toList ∧ inRound s.main = true ∧
          s.threads.list.listed = [] ∧ 0 < s.threads.nextId) := by
    decide +kernel
  obtain ⟨s, hs, hip, hround, hlisted, hid⟩ := hrun
  have htold : observe (ServerLoop.step nas MessageText.compactJson twoOctets) mainEvent
      (ServerLoop.start nas) lostInSecondRound =
        [.ipChanged "nas".toList "10.0.0.1".toList true, .heartbeatSent,
          .ipChanged "nas".toList "10.0.0.2".toList false,
          .clientDisconnected ConnectedClients.laptop] := by
    decide +kernel
  have hjson : ∀ msg, broadcastLine MessageText.compactJson msg ≠ none := by
    rintro msg ⟨⟩
  obtain ⟨hheard, -, hwire⟩ := log_tells_wire nas MessageText.compactJson hjson twoOctets
    lostInSecondRound s hs _ rfl
  refine ⟨s, hs, ?_, hlisted, ?_⟩
  · rw [hheard, hip, hround]
  · have hcarries := hwire 0 hid
    rw [htold] at hcarries
    exact hcarries

end DnslessHomelab.EventLog
