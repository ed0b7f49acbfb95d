import DnslessHomelab.ClientLoop
import DnslessHomelab.LateObserver
import DnslessHomelab.Mailbox

/-!
# The native app

The server's thread and the client's thread send their events into two channels; every
frame of the app drains the server's channel, then the client's, and draws both panels. The
threads go on while a frame drains. What a frame draws is the server as it was when its
channel was found empty, and the client as it was when the other was.
-/
namespace DnslessHomelab.NativeApp
open Protocol Runs PanelState ClientPanel Mailbox
open ServerLoop (ServerConfig Server)
open ClientLoop (Client)
open ClientStream (ClientConfig)

/-- Where a frame stands. -/
inductive Drawing where
  | waiting | drainingServer | drainingClient
  deriving DecidableEq

/-- The two threads, their channels, the app, and the panels of the frame drawn last. -/
structure App (σ : Type*) where
  server : Server
  client : Client σ
  serverRx : List ServerEvent
  clientRx : List ClientEvent
  serverState : ServerState
  clientState : ClientState
  drawing : Drawing
  shown : Option (ServerState × ClientState)

/-- A receive takes the local time with it, for the entry of the log. -/
inductive Action where
  | server (a : ServerLoop.Action)
  | client (a : ClientLoop.Action)
  | update
  | receiveServer (now : Text)
  | receiveClient (now : Text)

section App
variable {σ : Type*} (serverCfg : ServerConfig) (clientCfg : ClientConfig) (hostsFile : Text)
variable (json : SerdeJson) (accepts : ℕ → ℕ → ℕ)
variable (update : σ → Text → Text → σ × Except Text Unit)

def serverPanel : ServerState := .new serverCfg.hostname serverCfg.interface

def clientPanel : ClientState := .new clientCfg.serverAddr hostsFile

/-- `Listening` and `Connecting` have been sent already when a run begins. -/
def start (hosts : σ) : App σ where
  server := ServerLoop.start serverCfg
  client := ClientLoop.start clientCfg hosts
  serverRx := (ServerLoop.start serverCfg).threads.events
  clientRx := (ClientLoop.start clientCfg hosts).events
  serverState := serverPanel serverCfg
  clientState := clientPanel clientCfg hostsFile
  drawing := .waiting
  shown := none

def step (app : App σ) : Action → Option (App σ)
  | .server a =>
      (ServerLoop.step serverCfg json accepts app.server a).map fun server =>
        { app with
          server
          serverRx := app.serverRx ++ appended app.server.threads.events server.threads.events }
  | .client a =>
      (ClientLoop.step clientCfg json update app.client a).map fun client =>
        { app with
          client
          clientRx := app.clientRx ++ appended app.client.events client.events }
  | .update =>
      match app.drawing with
      | .waiting => some { app with drawing := .drainingServer }
      | .drainingServer | .drainingClient => none
  | .receiveServer now =>
      match app.drawing, app.serverRx with
      | .drainingServer, ev :: serverRx =>
          some { app with serverRx, serverState := app.serverState.applyServerEvent now ev }
      | .drainingServer, [] => some { app with drawing := .drainingClient }
      | .waiting, _ | .drainingClient, _ => none
  | .receiveClient now =>
      match app.drawing, app.clientRx with
      | .drainingClient, ev :: clientRx =>
          some { app with clientRx, clientState := app.clientState.applyClientEvent now ev }
      | .drainingClient, [] =>
          some { app with drawing := .waiting, shown := some (app.serverState, app.clientState) }
      | .waiting, _ | .drainingServer, _ => none

/-- A thread as it was when its channel was found empty. -/
inductive Check (σ : Type*) where
  | server (s : Server)
  | client (c : Client σ)

def checks (app : App σ) (a : Action) (_ : App σ) : List (Check σ) :=
  match a with
  | .receiveServer _ => if app.serverRx = [] then [.server app.server] else []
  | .receiveClient _ => if app.clientRx = [] then [.client app.client] else []
  | .server _ | .client _ | .update => []

/-- A panel that has every event of the server and its address. -/
structure ServerShown (s : Server) (panel : ServerState) : Prop where
  folds : Folds ServerState.applyServerEvent (serverPanel serverCfg) s.threads.events panel
  currentIp : panel.currentIp = s.lastIp

/-- A panel that has every event of the client and shows whether it is connected. -/
structure ClientShown (c : Client σ) (panel : ClientState) : Prop where
  folds : Folds ClientState.applyClientEvent (clientPanel clientCfg hostsFile) c.events panel
  connected : panel.connected = true ↔ c.phase = .reading

/-- What is drawn are the threads at the last two checks. -/
def Drawn (shown : Option (ServerState × ClientState)) (past : List (Check σ)) : Prop :=
  ∀ panels ∈ shown, ∃ front s c, past = front ++ [.server s, .client c] ∧
    ServerShown serverCfg s panels.1 ∧ ClientShown clientCfg hostsFile c panels.2

/-- A frame that has checked the server's channel has all the server had sent by then. -/
def Checked (app : App σ) (past : List (Check σ)) : Prop :=
  match app.drawing with
  | .waiting | .drainingServer => Drawn serverCfg clientCfg hostsFile app.shown past
  | .drainingClient => ∃ front s, past = front ++ [.server s] ∧
      ServerShown serverCfg s app.serverState ∧
        Drawn serverCfg clientCfg hostsFile app.shown front

structure Faithful (app : App σ) (past : List (Check σ)) : Prop where
  server : Delivers ServerState.applyServerEvent (serverPanel serverCfg)
    app.server.threads.events app.serverRx app.serverState
  client : Delivers ClientState.applyClientEvent (clientPanel clientCfg hostsFile)
    app.client.events app.clientRx app.clientState
  address : app.server.threads.events.foldl ServerState.ipAfter none = app.server.lastIp
  phase : app.client.events.foldl ClientState.connectedAfter false =
    decide (app.client.phase = .reading)
  checked : Checked serverCfg clientCfg hostsFile app past

end App

section Steps
variable {σ : Type*} {serverCfg : ServerConfig} {clientCfg : ClientConfig} {hostsFile : Text}
variable {json : SerdeJson} {accepts : ℕ → ℕ → ℕ}
variable {update : σ → Text → Text → σ × Except Text Unit} {app app' : App σ}
variable {past : List (Check σ)}

theorem faithful_start (hosts : σ) :
    Faithful serverCfg clientCfg hostsFile (start serverCfg clientCfg hostsFile hosts) [] := by
  constructor
  · exact delivers_start ..
  · exact delivers_start ..
  · rfl
  · rfl
  · rintro _ ⟨⟩

/-- An empty channel of the server: the panel is as the server is. -/
theorem Faithful.serverShown (h : Faithful serverCfg clientCfg hostsFile app past)
    (hempty : app.serverRx = []) : ServerShown serverCfg app.server app.serverState := by
  have hserver := h.server
  rw [hempty] at hserver
  have hfolds := hserver.all
  obtain ⟨stamped, hstamped, hpanel⟩ := hfolds
  refine ⟨hserver.all, ?_⟩
  have hip := ServerState.currentIp_applyAll (serverPanel serverCfg) stamped
  rw [hstamped] at hip
  rw [← hpanel, ← h.address]
  exact hip

theorem Faithful.clientShown (h : Faithful serverCfg clientCfg hostsFile app past)
    (hempty : app.clientRx = []) :
    ClientShown clientCfg hostsFile app.client app.clientState := by
  have hclient := h.client
  rw [hempty] at hclient
  obtain ⟨stamped, hstamped, hpanel⟩ := hclient.all
  refine ⟨hclient.all, ?_⟩
  have hconnected := ClientState.connected_applyAll (clientPanel clientCfg hostsFile) stamped
  rw [hstamped] at hconnected
  rw [← hpanel]
  exact (congrArg (· = true) (hconnected.trans h.phase)).to_iff.trans decide_eq_true_iff

theorem phase_step {c c' : Client σ} {a : ClientLoop.Action}
    (h : c.events.foldl ClientState.connectedAfter false = decide (c.phase = .reading))
    (hstep : ClientLoop.step clientCfg json update c a = some c') :
    c.events <+: c'.events ∧
      c'.events.foldl ClientState.connectedAfter false = decide (c'.phase = .reading) := by
  obtain ⟨new, hevents, htells⟩ := ClientLoop.tells_of_step hstep
  refine ⟨⟨new, hevents.symm⟩, ?_⟩
  rw [hevents, List.foldl_append, h]
  exact htells.connected

theorem Faithful.sendServer (h : Faithful serverCfg clientCfg hostsFile app past) {s : Server}
    {a : ServerLoop.Action} (hstep : ServerLoop.step serverCfg json accepts app.server a = some s) :
    Faithful serverCfg clientCfg hostsFile
      { app with
        server := s
        serverRx := app.serverRx ++ appended app.server.threads.events s.threads.events } past := by
  obtain ⟨hgrown, haddress⟩ := LateObserver.address_step h.address hstep
  refine ⟨?_, h.client, haddress, h.phase, h.checked⟩
  have hsent := h.server.send (appended app.server.threads.events s.threads.events)
  rw [append_appended hgrown] at hsent
  exact hsent

theorem Faithful.sendClient (h : Faithful serverCfg clientCfg hostsFile app past) {c : Client σ}
    {a : ClientLoop.Action} (hstep : ClientLoop.step clientCfg json update app.client a = some c) :
    Faithful serverCfg clientCfg hostsFile
      { app with
        client := c
        clientRx := app.clientRx ++ appended app.client.events c.events } past := by
  obtain ⟨hgrown, hphase⟩ := phase_step h.phase hstep
  refine ⟨h.server, ?_, h.address, hphase, h.checked⟩
  have hsent := h.client.send (appended app.client.events c.events)
  rw [append_appended hgrown] at hsent
  exact hsent

theorem faithful_step (app : App σ) (a : Action) (app' : App σ) (past : List (Check σ))
    (h : Faithful serverCfg clientCfg hostsFile app past)
    (hstep : step serverCfg clientCfg json accepts update app a = some app') :
    Faithful serverCfg clientCfg hostsFile app' (past ++ checks app a app') := by
  cases a with
  | server a =>
      obtain ⟨s, hs, rfl⟩ := Option.map_eq_some_iff.mp hstep
      simpa [checks] using h.sendServer hs
  | client a =>
      obtain ⟨c, hc, rfl⟩ := Option.map_eq_some_iff.mp hstep
      simpa [checks] using h.sendClient hc
  | update =>
      have hchecked := h.checked
      dsimp only [step] at hstep
      split at hstep
      · rename_i hdrawing
        cases hstep
        rw [Checked, hdrawing] at hchecked
        refine ⟨h.server, h.client, h.address, h.phase, ?_⟩
        simpa [checks, Checked] using hchecked
      · cases hstep
      · cases hstep
  | receiveServer now =>
      have hchecked := h.checked
      dsimp only [step] at hstep
      split at hstep
      · rename_i ev serverRx hdrawing hpending
        cases hstep
        have hserver := h.server
        rw [hpending] at hserver
        refine ⟨hserver.receive now, h.client, h.address, h.phase, ?_⟩
        simpa [checks, hpending, Checked, hdrawing] using hchecked
      · rename_i hdrawing hempty
        cases hstep
        rw [Checked, hdrawing] at hchecked
        refine ⟨h.server, h.client, h.address, h.phase, past, app.server, ?_, ?_, hchecked⟩
        · rw [checks, if_pos hempty]
        · exact h.serverShown hempty
      · cases hstep
      · cases hstep
  | receiveClient now =>
      have hchecked := h.checked
      dsimp only [step] at hstep
      split at hstep
      · rename_i ev clientRx hdrawing hpending
        cases hstep
        have hclient := h.client
        rw [hpending] at hclient
        refine ⟨h.server, hclient.receive now, h.address, h.phase, ?_⟩
        simpa [checks, hpending, Checked, hdrawing] using hchecked
      · rename_i hdrawing hempty
        cases hstep
        rw [Checked, hdrawing] at hchecked
        obtain ⟨front, s, rfl, hserver, -⟩ := hchecked
        refine ⟨h.server, h.client, h.address, h.phase, ?_⟩
        rintro panels ⟨⟩
        refine ⟨front, s, app.client, ?_, hserver, h.clientShown hempty⟩
        rw [checks, if_pos hempty, List.append_assoc]
        rfl
      · cases hstep
      · cases hstep

end Steps

section Drains
variable {σ : Type*} (serverCfg : ServerConfig) (clientCfg : ClientConfig)
variable (json : SerdeJson) (accepts : ℕ → ℕ → ℕ)
variable (update : σ → Text → Text → σ × Except Text Unit)

/-- With the server's thread silent its channel is soon found empty. -/
theorem drain_server (app : App σ) (now : Text) (hdrawing : app.drawing = .drainingServer) :
    ∃ app', run (step serverCfg clientCfg json accepts update) app
        (List.replicate (app.serverRx.length + 1) (.receiveServer now)) = some app' ∧
      app'.drawing = .drainingClient ∧ app'.serverRx = [] ∧ app'.server = app.server ∧
        app'.client = app.client ∧ app'.clientRx = app.clientRx := by
  generalize hpending : app.serverRx = pending
  induction pending generalizing app with
  | nil =>
      refine ⟨{ app with drawing := .drainingClient }, ?_, rfl, hpending, rfl, rfl, rfl⟩
      simp [run, step, hdrawing, hpending]
  | cons ev pending ih =>
      have hstep : step serverCfg clientCfg json accepts update app (.receiveServer now) =
          some { app with
            serverRx := pending
            serverState := app.serverState.applyServerEvent now ev } := by
        simp only [step, hdrawing, hpending]
      obtain ⟨app', hrun, hrest⟩ := ih { app with
        serverRx := pending
        serverState := app.serverState.applyServerEvent now ev } hdrawing rfl
      refine ⟨app', ?_, hrest⟩
      rw [List.length_cons, List.replicate_succ]
      exact run_cons_iff.mpr ⟨_, hstep, hrun⟩

theorem drain_client (app : App σ) (now : Text) (hdrawing : app.drawing = .drainingClient) :
    ∃ app', run (step serverCfg clientCfg json accepts update) app
        (List.replicate (app.clientRx.length + 1) (.receiveClient now)) = some app' ∧
      app'.shown = some (app'.serverState, app'.clientState) ∧ app'.clientRx = [] ∧
        app'.server = app.server ∧ app'.client = app.client ∧ app'.serverRx = app.serverRx := by
  generalize hpending : app.clientRx = pending
  induction pending generalizing app with
  | nil =>
      refine ⟨{ app with
        drawing := .waiting
        shown := some (app.serverState, app.clientState) }, ?_, rfl, hpending, rfl, rfl, rfl⟩
      simp [run, step, hdrawing, hpending]
  | cons ev pending ih =>
      have hstep : step serverCfg clientCfg json accepts update app (.receiveClient now) =
          some { app with
            clientRx := pending
            clientState := app.clientState.applyClientEvent now ev } := by
        simp only [step, hdrawing, hpending]
      obtain ⟨app', hrun, hrest⟩ := ih { app with
        clientRx := pending
        clientState := app.clientState.applyClientEvent now ev } hdrawing rfl
      refine ⟨app', ?_, hrest⟩
      rw [List.length_cons, List.replicate_succ]
      exact run_cons_iff.mpr ⟨_, hstep, hrun⟩

end Drains

/-- A frame during which both threads are silent. -/
def frame {σ : Type*} (app : App σ) (now : Text) : List Action :=
  .update :: (List.replicate (app.serverRx.length + 1) (.receiveServer now) ++
    List.replicate (app.clientRx.length + 1) (.receiveClient now))

/-- However the threads and the frames are interleaved: no event is lost, doubled or
reordered on its way into a panel, what was drawn last shows the server and the client as
they were at the last two checks, and a frame in which both are silent ends with both
panels up to date. -/
theorem window_shows_threads {σ : Type*} (serverCfg : ServerConfig) (clientCfg : ClientConfig)
    (hostsFile : Text) (json : SerdeJson) (accepts : ℕ → ℕ → ℕ)
    (update : σ → Text → Text → σ × Except Text Unit) (hosts : σ) (actions : List Action)
    (app : App σ) (h : run (step serverCfg clientCfg json accepts update)
      (start serverCfg clientCfg hostsFile hosts) actions = some app) (now : Text) :
    Delivers ServerState.applyServerEvent (serverPanel serverCfg)
        app.server.threads.events app.serverRx app.serverState ∧
      Delivers ClientState.applyClientEvent (clientPanel clientCfg hostsFile)
        app.client.events app.clientRx app.clientState ∧
      Checked serverCfg clientCfg hostsFile app
        (observe (step serverCfg clientCfg json accepts update) checks
          (start serverCfg clientCfg hostsFile hosts) actions) ∧
      (app.drawing = .waiting → ∃ app' panels,
        run (step serverCfg clientCfg json accepts update) app (frame app now) = some app' ∧
          app'.shown = some panels ∧ ServerShown serverCfg app.server panels.1 ∧
            ClientShown clientCfg hostsFile app.client panels.2) := by
  have hfaithful : Faithful serverCfg clientCfg hostsFile app
      (observe (step serverCfg clientCfg json accepts update) checks
        (start serverCfg clientCfg hostsFile hosts) actions) :=
    invariant_observe (b := []) faithful_step (faithful_start hosts) h
  refine ⟨hfaithful.server, hfaithful.client, hfaithful.checked, ?_⟩
  intro hwaiting
  have hupdate : step serverCfg clientCfg json accepts update app .update =
      some { app with drawing := .drainingServer } := by simp only [step, hwaiting]
  obtain ⟨m, hserver, hdrawing, hserverRx, hsame, hclient, hclientRx⟩ :=
    drain_server serverCfg clientCfg json accepts update
      { app with drawing := .drainingServer } now rfl
  obtain ⟨app', hrest, hshown, hempty, hsame', hclient', hserverRx'⟩ :=
    drain_client serverCfg clientCfg json accepts update m now hdrawing
  have hframe : run (step serverCfg clientCfg json accepts update) app (frame app now) =
      some app' := by
    refine run_cons_iff.mpr ⟨_, hupdate, ?_⟩
    rw [run_append, hserver, Option.bind_some, ← hclientRx]
    exact hrest
  have hafter : Faithful serverCfg clientCfg hostsFile app' _ :=
    invariant_observe faithful_step hfaithful hframe
  have hservers := hafter.serverShown (hserverRx'.trans hserverRx)
  have hclients := hafter.clientShown hempty
  rw [hsame', hsame] at hservers
  rw [hclient', hclient] at hclients
  exact ⟨app', _, hframe, hshown, hservers, hclients⟩

/-- Between the two checks of one frame the address is found, and reaches the client. -/
def tornFrame : List Action :=
  [.update, .receiveServer [], .receiveServer [], .server (.poll (.ok ⟨10, 0, 0, 1⟩)),
    .client .connected, .client (ClientLoop.received "10.0.0.1"), .receiveClient [],
    .receiveClient [], .receiveClient [], .receiveClient [], .receiveClient []]

/-- The client's panel is ahead of the server's; the next frame puts it right. -/
theorem tornFrame_caught_up : ∃ app,
    run (step ServerLoop.nas ClientLoop.nasClient MessageText.compactJson (fun _ _ => 0)
        ClientLoop.deniedSometimes)
      (start ServerLoop.nas ClientLoop.nasClient [] 0) tornFrame = some app ∧
      app.shown.map (fun panels => (panels.1.currentIp, panels.2.lastUpdate)) =
        some (none, some ("nas".toList, "10.0.0.1".toList)) ∧
      ∃ app' panels,
        run (step ServerLoop.nas ClientLoop.nasClient MessageText.compactJson (fun _ _ => 0)
            ClientLoop.deniedSometimes) app (frame app []) = some app' ∧
          app'.shown = some panels ∧ panels.1.currentIp = some "10.0.0.1".toList := by
  have hrun : ∃ app, run (step ServerLoop.nas ClientLoop.nasClient MessageText.compactJson
      (fun _ _ => 0) ClientLoop.deniedSometimes)
      (start ServerLoop.nas ClientLoop.nasClient [] 0) tornFrame = some app ∧
        (app.shown.map (fun panels => (panels.1.currentIp, panels.2.lastUpdate)) =
          some (none, some ("nas".toList, "10.0.0.1".toList)) ∧
        app.drawing = .waiting ∧ app.server.lastIp = some "10.0.0.1".toList) := by
    decide +kernel
  obtain ⟨app, happ, hshown, hwaiting, hip⟩ := hrun
  obtain ⟨-, -, -, hnext⟩ := window_shows_threads ServerLoop.nas ClientLoop.nasClient []
    MessageText.compactJson (fun _ _ => 0) ClientLoop.deniedSometimes 0 tornFrame app happ []
  obtain ⟨app', panels, hframe, hpanels, hserver, -⟩ := hnext hwaiting
  exact ⟨app, happ, hshown, app', panels, hframe, hpanels, hserver.currentIp.trans hip⟩

end DnslessHomelab.NativeApp
