import DnslessHomelab.EventSinks
import DnslessHomelab.ServerLoop

/-!
# The server process with its admin server

The main loop and the accept thread as in `ServerLoop`, with every send taken apart: the
channel first, then the browsers, under a lock of their own, one at a time. A thread does
nothing else until its send is done; the main thread may be holding the lock of the
client list meanwhile. Handshake threads add browsers when the lock is free.

What is in the process when the accept thread starts is where the model begins: the
listener was reported to the channel and to the browsers opened until then. Without an
admin server a send is its first half.
-/
namespace DnslessHomelab.ServerProcess
open Protocol Runs EventSinks
open ServerLoop (ServerConfig Server nas)

/-- The browsers behind their lock. The holder has an event to send, browsers that stay
and browsers still to be sent to. -/
inductive BrowserList where
  | free (browsers : List WebSocket)
  | held (t : Thread) (ev : ServerEvent) (kept rest : List WebSocket)

/-- The browsers that are connected, also while they are being sent to. -/
def BrowserList.listed : BrowserList → List WebSocket
  | .free browsers => browsers
  | .held _ _ kept rest => kept ++ rest

structure Process where
  server : Server
  inFlight : InFlight
  browsers : BrowserList
  nextBrowser : ℕ

inductive Action where
  | loop (a : ServerLoop.Action)
  | lockBrowsers (t : Thread)
  | sendBrowser (sent : Bool)
  | unlockBrowsers
  | browserOpens

def start (cfg : ServerConfig) (opened : ℕ) : Process where
  server := ServerLoop.start cfg
  inFlight := .none
  browsers := .free ((List.range opened).map fun id => ⟨id, (ServerLoop.start cfg).threads.events⟩)
  nextBrowser := opened

def threadOf : ServerLoop.Action → Thread
  | .accept _ => .accept
  | .poll _ | .lock | .visit | .unlock | .heartbeatSent => .main

/-- The event a step of the server has put into the channel. -/
def emitted (s s' : Server) : Option ServerEvent :=
  (s'.threads.events.drop s.threads.events.length).head?

def received (ws : WebSocket) (ev : ServerEvent) : WebSocket :=
  { ws with received := ws.received ++ [ev] }

def step (cfg : ServerConfig) (json : SerdeJson) (events : ServerEvent → Except Text Text)
    (accepts : ℕ → ℕ → ℕ) (p : Process) : Action → Option Process
  | .loop a =>
      if (finish p.inFlight (threadOf a)).isSome then none
      else
        (ServerLoop.step cfg json accepts p.server a).bind fun server =>
          match emitted p.server server with
          | none => some { p with server }
          | some ev => (begin p.inFlight (threadOf a) ev).map fun inFlight =>
              { p with server, inFlight }
  | .lockBrowsers t =>
      (finish p.inFlight t).bind fun r =>
        match events r.1, p.browsers with
        | .error _, _ => some { p with inFlight := r.2 }
        | .ok _, .free browsers => some { p with browsers := .held t r.1 [] browsers }
        | .ok _, .held .. => none
  | .sendBrowser sent =>
      match p.browsers with
      | .held t ev kept (ws :: rest) =>
          let kept := if sent then kept ++ [received ws ev] else kept
          some { p with browsers := .held t ev kept rest }
      | .held _ _ _ [] | .free _ => none
  | .unlockBrowsers =>
      match p.browsers with
      | .held t _ kept [] =>
          (finish p.inFlight t).map fun r => { p with browsers := .free kept, inFlight := r.2 }
      | .held _ _ _ (_ :: _) | .free _ => none
  | .browserOpens =>
      match p.browsers with
      | .free browsers => some { p with
          browsers := .free (browsers ++ [⟨p.nextBrowser, []⟩])
          nextBrowser := p.nextBrowser + 1 }
      | .held .. => none

/-- Everything a step can do when every event can be serialized. -/
inductive Effect (cfg : ServerConfig) (json : SerdeJson) (accepts : ℕ → ℕ → ℕ) (p : Process) :
    Action → Process → Prop
  | quiet (a : ServerLoop.Action) (server : Server)
      (hidle : finish p.inFlight (threadOf a) = none)
      (hserver : ServerLoop.step cfg json accepts p.server a = some server)
      (hevent : emitted p.server server = none) :
      Effect cfg json accepts p (.loop a) { p with server }
  | emits (a : ServerLoop.Action) (server : Server) (ev : ServerEvent) (inFlight : InFlight)
      (hidle : finish p.inFlight (threadOf a) = none)
      (hserver : ServerLoop.step cfg json accepts p.server a = some server)
      (hevent : emitted p.server server = some ev)
      (hbegin : begin p.inFlight (threadOf a) ev = some inFlight) :
      Effect cfg json accepts p (.loop a) { p with server, inFlight }
  | locks (t : Thread) (r : ServerEvent × InFlight) (browsers : List WebSocket)
      (hfinish : finish p.inFlight t = some r) (hfree : p.browsers = .free browsers) :
      Effect cfg json accepts p (.lockBrowsers t) { p with browsers := .held t r.1 [] browsers }
  | sends (sent : Bool) (t : Thread) (ev : ServerEvent) (kept rest : List WebSocket)
      (ws : WebSocket) (hheld : p.browsers = .held t ev kept (ws :: rest)) :
      Effect cfg json accepts p (.sendBrowser sent)
        { p with
          browsers := .held t ev (if sent then kept ++ [received ws ev] else kept) rest }
  | unlocks (t : Thread) (ev : ServerEvent) (kept : List WebSocket) (r : ServerEvent × InFlight)
      (hheld : p.browsers = .held t ev kept []) (hfinish : finish p.inFlight t = some r) :
      Effect cfg json accepts p .unlockBrowsers
        { p with browsers := .free kept, inFlight := r.2 }
  | opens (browsers : List WebSocket) (hfree : p.browsers = .free browsers) :
      Effect cfg json accepts p .browserOpens
        { p with
          browsers := .free (browsers ++ [⟨p.nextBrowser, []⟩])
          nextBrowser := p.nextBrowser + 1 }

section Effect
variable {cfg : ServerConfig} {json : SerdeJson} {events : ServerEvent → Except Text Text}
variable {accepts : ℕ → ℕ → ℕ} {p p' : Process} {a : Action}

theorem effect_of_step (hevents : ∀ ev, ∃ text, events ev = .ok text)
    (h : step cfg json events accepts p a = some p') : Effect cfg json accepts p a p' := by
  cases a with
  | loop a =>
      dsimp only [step] at h
      split_ifs at h with hbusy
      have hidle : finish p.inFlight (threadOf a) = none := Option.not_isSome_iff_eq_none.mp hbusy
      obtain ⟨server, hserver, h⟩ := Option.bind_eq_some_iff.mp h
      split at h
      · rename_i hevent
        cases h
        exact .quiet a server hidle hserver hevent
      · rename_i ev hevent
        obtain ⟨inFlight, hbegin, rfl⟩ := Option.map_eq_some_iff.mp h
        exact .emits a server ev inFlight hidle hserver hevent hbegin
  | lockBrowsers t =>
      obtain ⟨r, hfinish, h⟩ := Option.bind_eq_some_iff.mp h
      obtain ⟨text, htext⟩ := hevents r.1
      simp only [htext] at h
      split at h
      · rename_i hfalse
        cases hfalse
      · rename_i browsers _ hfree
        cases h
        exact .locks t r browsers hfinish hfree
      · cases h
  | sendBrowser sent =>
      dsimp only [step] at h
      split at h
      · rename_i t ev kept ws rest hheld
        cases h
        exact .sends sent t ev kept rest ws hheld
      · cases h
      · cases h
  | unlockBrowsers =>
      dsimp only [step] at h
      split at h
      · rename_i t ev kept hheld
        obtain ⟨r, hfinish, rfl⟩ := Option.map_eq_some_iff.mp h
        exact .unlocks t ev kept r hheld hfinish
      · cases h
      · cases h
  | browserOpens =>
      dsimp only [step] at h
      split at h
      · rename_i browsers hfree
        cases h
        exact .opens browsers hfree
      · cases h

end Effect

section Emitted
variable {cfg : ServerConfig} {json : SerdeJson} {accepts : ℕ → ℕ → ℕ}

theorem new_event_of_threads {t t' : Broadcast.Threads} {b : Broadcast.Action}
    (h : Broadcast.step json accepts t b = some t') :
    ∃ ev : Option ServerEvent, t'.events = t.events ++ ev.toList := by
  cases Broadcast.effect_of_step h with
  | pushes | cloneFails | unserialized | locks | keeps | unlocks =>
      exact ⟨none, (List.append_nil _).symm⟩
  | announces | acceptFails | reports | drops => exact ⟨some _, rfl⟩

/-- A step of the server puts at most one event into the channel. -/
theorem events_emitted {s s' : Server} {a : ServerLoop.Action}
    (h : ServerLoop.step cfg json accepts s a = some s') :
    s'.threads.events = s.threads.events ++ (emitted s s').toList := by
  have hnew : ∃ ev : Option ServerEvent,
      s'.threads.events = s.threads.events ++ ev.toList := by
    cases ServerLoop.threads_of_step h with
    | inl heq => exact ⟨none, by simp [heq]⟩
    | inr hb =>
        obtain ⟨b, hb⟩ := hb
        exact new_event_of_threads hb
  obtain ⟨ev, hev⟩ := hnew
  have hemitted : emitted s s' = ev := by
    unfold emitted
    rw [hev, List.drop_left]
    cases ev <;> rfl
  rw [hemitted, hev]

end Emitted

section Sends
variable {inFlight inFlight' : InFlight} {t t' : Thread} {ev : ServerEvent}

/-- A send that begins leaves the other thread's send as it was. -/
theorem finish_begin {e : ServerEvent} {r : InFlight} (h : begin inFlight t ev = some inFlight')
    (hfinish : finish inFlight t' = some (e, r)) :
    ∃ r', finish inFlight' t' = some (e, r') := by
  unfold begin at h
  split at h
  · cases hfinish
  · split_ifs at h with hne
    cases h
    dsimp only [finish] at hfinish ⊢
    split_ifs at hfinish with ht
    cases hfinish
    exact ⟨_, if_pos ht⟩
  · cases h

end Sends

/-- The steps of the two sinks that a step of the process takes: an event goes into the
channel, and it has gone to the browsers when their lock is given back. -/
def sinkActions (p : Process) (a : Action) (p' : Process) : List EventSinks.Action :=
  match a with
  | .loop a => (emitted p.server p'.server).toList.map (.channelSend (threadOf a))
  | .unlockBrowsers =>
      match p.browsers with
      | .held t _ kept _ =>
          [.adminBroadcast t fun id => decide (id ∈ kept.map WebSocket.id)]
      | .free _ => []
  | .browserOpens => [.browserOpens]
  | .lockBrowsers _ | .sendBrowser _ => []

/-- While the lock is held the sinks still have the browsers as they were before. -/
def Holds (inFlight : InFlight) (before : List WebSocket) : BrowserList → Prop
  | .free browsers => before = browsers
  | .held t ev kept rest => (∃ r, finish inFlight t = some (ev, r)) ∧ ∃ seen,
      before = seen ++ rest ∧
        kept = (seen.filter fun ws => decide (ws.id ∈ kept.map WebSocket.id)).map fun ws =>
          received ws ev

structure Refines (p : Process) (s : Sinks) : Prop where
  channel : s.channel = p.server.threads.events
  inFlight : s.inFlight = p.inFlight
  nextId : s.nextId = p.nextBrowser
  known : ∀ ws ∈ s.browsers, ws.id < s.nextId
  distinct : (s.browsers.map WebSocket.id).Nodup
  browsers : Holds p.inFlight s.browsers p.browsers

/-- The listener's own event, before the accept thread starts. -/
def listening (cfg : ServerConfig) : List EventSinks.Action :=
  (ServerLoop.start cfg).threads.events.flatMap fun ev =>
    [.channelSend .main ev, .adminBroadcast .main fun _ => true]

theorem refines_start (cfg : ServerConfig) {events : ServerEvent → Except Text Text}
    (hevents : ∀ ev, ∃ text, events ev = .ok text) (opened : ℕ) :
    ∃ s, run (EventSinks.step events) (EventSinks.start opened) (listening cfg) = some s ∧
      Refines (start cfg opened) s := by
  obtain ⟨text, htext⟩ := hevents (.listening ⟨⟨0, 0, 0, 0⟩, cfg.port⟩)
  let s : Sinks := ⟨(ServerLoop.start cfg).threads.events,
    (List.range opened).map fun id => ⟨id, (ServerLoop.start cfg).threads.events⟩, opened, .none⟩
  refine ⟨s, ?_, ?_⟩
  · have hall : ((EventSinks.start opened).browsers.filter fun _ => true) =
        (EventSinks.start opened).browsers := List.filter_true _
    have hbrowsers : EventSinks.broadcast events (fun _ => true) (EventSinks.start opened).browsers
        (.listening ⟨⟨0, 0, 0, 0⟩, cfg.port⟩) = s.browsers := by
      simp only [EventSinks.broadcast, htext, hall]
      simp [EventSinks.start, s, ServerLoop.start, Broadcast.start, Broadcast.Threads.emit]
    have hbroadcast : EventSinks.step events ⟨(ServerLoop.start cfg).threads.events,
        (EventSinks.start opened).browsers, opened, .one .main (.listening ⟨⟨0, 0, 0, 0⟩, cfg.port⟩)⟩
        (.adminBroadcast .main fun _ => true) = some s := by
      simp only [EventSinks.step, finish, if_pos, Option.map_some, hbrowsers]
      rfl
    exact hbroadcast
  · constructor
    · rfl
    · rfl
    · rfl
    · simp [s]
    · simpa [s, Function.comp_def] using List.nodup_range
    · rfl

section Step
variable {cfg : ServerConfig} {json : SerdeJson} {events : ServerEvent → Except Text Text}
variable {accepts : ℕ → ℕ → ℕ}

/-- One more browser has been sent to, or dropped. -/
theorem Holds.send {inFlight : InFlight} {before : List WebSocket} {t : Thread}
    {ev : ServerEvent} {kept rest : List WebSocket} {ws : WebSocket}
    (h : Holds inFlight before (.held t ev kept (ws :: rest)))
    (hdistinct : (before.map WebSocket.id).Nodup) (sent : Bool) :
    Holds inFlight before
      (.held t ev (if sent then kept ++ [received ws ev] else kept) rest) := by
  obtain ⟨hfinish, seen, hbefore, hkept⟩ := h
  refine ⟨hfinish, seen ++ [ws], by rw [hbefore, List.append_assoc]; rfl, ?_⟩
  have hnew : ws.id ∉ seen.map WebSocket.id := by
    rw [hbefore, List.map_append, List.map_cons] at hdistinct
    have hdisjoint := List.disjoint_of_nodup_append hdistinct
    exact fun hmem => hdisjoint hmem (List.mem_cons_self ..)
  have hids : ws.id ∉ kept.map WebSocket.id := by
    intro hmem
    rw [hkept, List.map_map] at hmem
    obtain ⟨ws', hws', hid⟩ := List.mem_map.mp hmem
    exact hnew (List.mem_map.mpr ⟨ws', List.mem_of_mem_filter hws', hid⟩)
  cases sent with
  | false =>
      have hdropped : ([ws].filter fun ws => decide (ws.id ∈ kept.map WebSocket.id)) = [] :=
        List.filter_cons_of_neg (by simpa using hids)
      rw [if_neg Bool.false_ne_true, List.filter_append, List.map_append, ← hkept, hdropped]
      exact (List.append_nil _).symm
  | true =>
      have hsame : ∀ ws' ∈ seen,
          decide (ws'.id ∈ (kept ++ [received ws ev]).map WebSocket.id) =
            decide (ws'.id ∈ kept.map WebSocket.id) := by
        intro ws' hws'
        have hne : ws'.id ≠ ws.id := fun heq => hnew (heq ▸ List.mem_map_of_mem hws')
        simp [received, hne]
      have hstays : ([ws].filter fun ws' =>
          decide (ws'.id ∈ (kept ++ [received ws ev]).map WebSocket.id)) = [ws] :=
        List.filter_cons_of_pos (by simp [received])
      rw [if_pos rfl, List.filter_append, List.map_append, List.filter_congr hsame, ← hkept,
        hstays]
      rfl

/-- With everyone sent to, the sinks' broadcast leaves what the holder kept. -/
theorem Holds.broadcast {inFlight : InFlight} {before : List WebSocket} {t : Thread}
    {ev : ServerEvent} {kept : List WebSocket} (h : Holds inFlight before (.held t ev kept []))
    {text : Text} (htext : events ev = .ok text) :
    EventSinks.broadcast events (fun id => decide (id ∈ kept.map WebSocket.id)) before ev =
      kept := by
  obtain ⟨-, seen, hbefore, hkept⟩ := h
  rw [List.append_nil] at hbefore
  rw [EventSinks.broadcast, htext, hbefore]
  exact hkept.symm

theorem Holds.begin {inFlight inFlight' : InFlight} {before : List WebSocket} {t : Thread}
    {ev : ServerEvent} {browsers : BrowserList} (h : Holds inFlight before browsers)
    (hbegin : EventSinks.begin inFlight t ev = some inFlight') :
    Holds inFlight' before browsers := by
  cases browsers with
  | free browsers => exact h
  | held t' ev' kept rest =>
      obtain ⟨⟨r, hr⟩, hseen⟩ := h
      exact ⟨finish_begin hbegin hr, hseen⟩

theorem refines_step (hevents : ∀ ev, ∃ text, events ev = .ok text) (p : Process) (a : Action)
    (p' : Process) (s : Sinks) (h : Refines p s)
    (hstep : step cfg json events accepts p a = some p') :
    ∃ s', run (EventSinks.step events) s (sinkActions p a p') = some s' ∧ Refines p' s' := by
  cases effect_of_step hevents hstep with
  | quiet a server hidle hserver hevent =>
      have hsame := events_emitted hserver
      rw [hevent] at hsame
      refine ⟨s, ?_, ?_, h.inFlight, h.nextId, h.known, h.distinct, h.browsers⟩
      · simp [sinkActions, hevent, run]
      · rw [h.channel, hsame]
        exact (List.append_nil _).symm
  | emits a server ev inFlight hidle hserver hevent hbegin =>
      have hmore := events_emitted hserver
      rw [hevent] at hmore
      refine ⟨{ s with channel := s.channel ++ [ev], inFlight }, ?_, ?_, rfl, h.nextId, h.known,
        h.distinct, h.browsers.begin hbegin⟩
      · have hsends : sinkActions p (.loop a) { p with server, inFlight } =
            [.channelSend (threadOf a) ev] := by
          simp [sinkActions, hevent]
        rw [hsends, run_cons_iff]
        refine ⟨_, ?_, rfl⟩
        rw [EventSinks.step, h.inFlight, hbegin]
        rfl
      · rw [h.channel, hmore]
        rfl
  | locks t r browsers hfinish hfree =>
      refine ⟨s, rfl, h.channel, h.inFlight, h.nextId, h.known, h.distinct, ?_⟩
      have hbrowsers := h.browsers
      rw [hfree] at hbrowsers
      exact ⟨⟨r.2, hfinish⟩, [], hbrowsers, rfl⟩
  | sends sent t ev kept rest ws hheld =>
      refine ⟨s, rfl, h.channel, h.inFlight, h.nextId, h.known, h.distinct, ?_⟩
      have hbrowsers := h.browsers
      rw [hheld] at hbrowsers
      exact hbrowsers.send h.distinct sent
  | unlocks t ev kept r hheld hfinish =>
      have hbrowsers := h.browsers
      rw [hheld] at hbrowsers
      obtain ⟨r', hr'⟩ := hbrowsers.1
      rw [hfinish, Option.some.injEq] at hr'
      obtain ⟨text, htext⟩ := hevents ev
      have hkept := hbrowsers.broadcast htext
      have hsub : (kept.map WebSocket.id).Sublist (s.browsers.map WebSocket.id) := by
        obtain ⟨-, seen, hbefore, hseen⟩ := hbrowsers
        rw [hseen, hbefore, List.append_nil, List.map_map]
        exact List.filter_sublist.map WebSocket.id
      refine ⟨{ s with browsers := kept, inFlight := r.2 }, ?_, h.channel, rfl, h.nextId, ?_,
        h.distinct.sublist hsub, rfl⟩
      · have hbroadcasts : sinkActions p .unlockBrowsers
            { p with browsers := .free kept, inFlight := r.2 } =
              [.adminBroadcast t fun id => decide (id ∈ kept.map WebSocket.id)] := by
          simp only [sinkActions, hheld]
        rw [hbroadcasts, run_cons_iff]
        refine ⟨_, ?_, rfl⟩
        rw [EventSinks.step, h.inFlight, hfinish, Option.map_some, hr', hkept]
      · intro ws hws
        obtain ⟨ws', hws', hid⟩ := List.mem_map.mp (hsub.subset (List.mem_map_of_mem hws))
        exact hid ▸ h.known ws' hws'
  | opens browsers hfree =>
      have hbrowsers := h.browsers
      rw [hfree] at hbrowsers
      refine ⟨_, rfl, h.channel, h.inFlight, ?_, ?_, ?_, ?_⟩
      · exact congrArg (· + 1) h.nextId
      · intro ws hws
        cases List.mem_append.mp hws with
        | inl hws => exact Nat.lt_succ_of_lt (h.known ws hws)
        | inr hws =>
            cases List.mem_singleton.mp hws
            exact Nat.lt_succ_self _
      · rw [List.map_append]
        apply List.Nodup.append h.distinct (List.nodup_singleton _)
        rw [List.disjoint_singleton]
        intro hmem
        obtain ⟨ws, hws, hid⟩ := List.mem_map.mp hmem
        exact absurd (h.known ws hws) (by simp [hid])
      · rw [h.nextId]
        exact congrArg (· ++ _) hbrowsers

end Step

/-- The steps of the two loops that a step of the process takes. -/
def loopActions (_ : Process) (a : Action) (_ : Process) : List ServerLoop.Action :=
  match a with
  | .loop a => [a]
  | .lockBrowsers _ | .sendBrowser _ | .unlockBrowsers | .browserOpens => []

/-- Every run of the process is a run of the server's loops and, at the same time, a run
of the two sinks that ends with the same channel and sends in flight, and with the same
browsers; while a thread holds their lock, with the browsers from before it took it. -/
theorem process_refines (cfg : ServerConfig) (json : SerdeJson)
    (events : ServerEvent → Except Text Text) (hevents : ∀ ev, ∃ text, events ev = .ok text)
    (accepts : ℕ → ℕ → ℕ) (opened : ℕ) (actions : List Action) (p : Process)
    (h : run (step cfg json events accepts) (start cfg opened) actions = some p) :
    run (ServerLoop.step cfg json accepts) (ServerLoop.start cfg)
        (observe (step cfg json events accepts) loopActions (start cfg opened) actions) =
      some p.server ∧
    ∃ s, run (EventSinks.step events) (EventSinks.start opened)
        (listening cfg ++
          observe (step cfg json events accepts) sinkActions (start cfg opened) actions) = some s ∧
      Refines p s := by
  constructor
  · have hloop : ∀ q a q' server, q.server = server →
        step cfg json events accepts q a = some q' →
        ∃ server', run (ServerLoop.step cfg json accepts) server (loopActions q a q') =
          some server' ∧ q'.server = server' := by
      intro q a q' server hq hstep
      subst hq
      refine ⟨q'.server, ?_, rfl⟩
      cases effect_of_step hevents hstep with
      | quiet a server _ hserver | emits a server _ _ _ hserver =>
          exact run_cons_iff.mpr ⟨server, hserver, rfl⟩
      | locks | sends | unlocks | opens => rfl
    obtain ⟨server, hserver, heq⟩ :=
      simulation_run (R := fun p s => p.server = s) hloop rfl h
    rw [heq]
    exact hserver
  · obtain ⟨s₀, hlistening, hstart⟩ := refines_start cfg hevents opened
    obtain ⟨s, hs, hrefines⟩ := simulation_run (refines_step hevents) hstart h
    refine ⟨s, ?_, hrefines⟩
    rw [run_append, hlistening]
    exact hs

/-- A client is accepted while the main thread polls; both threads are sending, and one
of two browsers is gone. -/
def bothSending : List Action :=
  [.browserOpens, .loop (.accept (.push ConnectedClients.laptop)), .loop (.accept .announce),
    .loop (.poll (.ok ⟨10, 0, 0, 1⟩)), .lockBrowsers .main, .sendBrowser true,
    .sendBrowser false, .unlockBrowsers, .lockBrowsers .accept, .sendBrowser true,
    .unlockBrowsers, .loop .lock, .loop .visit]

theorem bothSending_refines : ∃ p s,
    run (step nas MessageText.compactJson compactEvents fun _ _ => 0) (start nas 1) bothSending =
        some p ∧
      p.inFlight = .one .main (.clientDisconnected ConnectedClients.laptop) ∧ Refines p s := by
  have hrun : ∃ p, run (step nas MessageText.compactJson compactEvents fun _ _ => 0) (start nas 1)
      bothSending = some p ∧
        p.inFlight = .one .main (.clientDisconnected ConnectedClients.laptop) := by
    decide +kernel
  obtain ⟨p, hp, hflight⟩ := hrun
  obtain ⟨-, s, -, hrefines⟩ := process_refines nas MessageText.compactJson compactEvents
    (fun ev => ⟨printEvent ev, rfl⟩) (fun _ _ => 0) 1 bothSending p hp
  exact ⟨p, s, hp, hflight, hrefines⟩

end DnslessHomelab.ServerProcess
