import DnslessHomelab.PanelState

/-!
# The client panel's state

The state that the panel folds from the client's events, as for the server: the local
time of an event is an input, the log and the history of updates keep their newest
entries.
-/
namespace DnslessHomelab.ClientPanel
open Protocol PanelState

def clientEventToLogEntry (now : Text) : ClientEvent → LogEntry
  | .connecting serverAddr => ⟨now, "Connecting to ".toList ++ serverAddr ++ "…".toList, .info⟩
  | .connected serverAddr => ⟨now, "Connected to ".toList ++ serverAddr, .info⟩
  | .connectionLost serverAddr =>
      ⟨now, "Connection lost to ".toList ++ serverAddr ++ "; reconnecting".toList, .warn⟩
  | .connectionFailed serverAddr error =>
      ⟨now, "Cannot connect to ".toList ++ serverAddr ++ ": ".toList ++ error, .error⟩
  | .ipUpdateReceived hostname ip =>
      ⟨now, "Received IP update: ".toList ++ hostname ++ " -> ".toList ++ ip, .info⟩
  | .hostsFileUpdated hostname ip =>
      ⟨now, "Hosts file updated: ".toList ++ hostname ++ " -> ".toList ++ ip, .info⟩
  | .hostsFileError hostname ip error =>
      ⟨now, "Failed to update hosts file (".toList ++ hostname ++ " -> ".toList ++ ip ++
        "): ".toList ++ error, .error⟩
  | .heartbeatReceived => ⟨now, "Heartbeat received".toList, .info⟩
  | .parseError raw error =>
      ⟨now, "Failed to parse message (".toList ++ error ++ "): ".toList ++ raw, .warn⟩

structure ClientState where
  serverAddr : Option Text
  hostsFile : Text
  connected : Bool
  lastUpdate : Option (Text × Text)
  updateHistory : List (Text × Text × Text)
  log : List LogEntry
  deriving DecidableEq, Repr

namespace ClientState

def new (serverAddr hostsFile : Text) : ClientState :=
  ⟨some serverAddr, hostsFile, false, none, [], []⟩

def pushLog (s : ClientState) (entry : LogEntry) : ClientState :=
  { s with log := capped (s.log ++ [entry]) }

/-- The structured fields after an event with the given log entry. -/
def applyFields (s : ClientState) (entry : LogEntry) : ClientEvent → ClientState
  | .connecting serverAddr => { s with serverAddr := some serverAddr, connected := false }
  | .connected serverAddr => { s with serverAddr := some serverAddr, connected := true }
  | .connectionLost _ | .connectionFailed .. => { s with connected := false }
  | .ipUpdateReceived hostname ip => { s with lastUpdate := some (hostname, ip) }
  | .hostsFileUpdated hostname ip =>
      { s with
        lastUpdate := some (hostname, ip)
        updateHistory := capped (s.updateHistory ++ [(entry.timestamp, hostname, ip)]) }
  | .hostsFileError hostname ip _ => { s with lastUpdate := some (hostname, ip) }
  | .heartbeatReceived | .parseError .. => s

def applyClientEvent (s : ClientState) (now : Text) (ev : ClientEvent) : ClientState :=
  let entry := clientEventToLogEntry now ev
  (s.applyFields entry ev).pushLog entry

/-- Events in order, each with its local time. -/
def applyAll (s : ClientState) (events : List (Text × ClientEvent)) : ClientState :=
  events.foldl (fun s e => s.applyClientEvent e.1 e.2) s

/-- Whether the panel shows a connection after the event. -/
def connectedAfter (connected : Bool) : ClientEvent → Bool
  | .connected _ => true
  | .connecting _ | .connectionLost _ | .connectionFailed .. => false
  | .ipUpdateReceived .. | .hostsFileUpdated .. | .hostsFileError .. | .heartbeatReceived
  | .parseError .. => connected

/-- The update an event is about. -/
def about? : ClientEvent → Option (Text × Text)
  | .ipUpdateReceived hostname ip | .hostsFileUpdated hostname ip
  | .hostsFileError hostname ip _ => some (hostname, ip)
  | .connecting _ | .connected _ | .connectionLost _ | .connectionFailed ..
  | .heartbeatReceived | .parseError .. => none

/-- The update that reached the hosts file. -/
def updated? : ClientEvent → Option (Text × Text)
  | .hostsFileUpdated hostname ip => some (hostname, ip)
  | .ipUpdateReceived .. | .hostsFileError .. | .connecting _ | .connected _
  | .connectionLost _ | .connectionFailed .. | .heartbeatReceived | .parseError .. => none

section Fields
variable (s : ClientState) (now : Text) (ev : ClientEvent)

theorem connected_applyClientEvent :
    (s.applyClientEvent now ev).connected = connectedAfter s.connected ev := by
  dsimp only [applyClientEvent, pushLog]
  generalize clientEventToLogEntry now ev = entry
  cases ev <;> rfl

theorem lastUpdate_applyClientEvent :
    (s.applyClientEvent now ev).lastUpdate = (about? ev).or s.lastUpdate := by
  dsimp only [applyClientEvent, pushLog]
  generalize clientEventToLogEntry now ev = entry
  cases ev <;> rfl

theorem log_applyFields (entry : LogEntry) : (s.applyFields entry ev).log = s.log := by
  cases ev <;> rfl

/-- Every event is logged. -/
theorem log_applyClientEvent :
    (s.applyClientEvent now ev).log = capped (s.log ++ [clientEventToLogEntry now ev]) := by
  dsimp only [applyClientEvent, pushLog]
  rw [log_applyFields]

/-- Only an update of the hosts file touches the history. -/
theorem updateHistory_applyClientEvent :
    (s.applyClientEvent now ev).updateHistory =
      match updated? ev with
      | none => s.updateHistory
      | some update =>
          capped (s.updateHistory ++ [((clientEventToLogEntry now ev).timestamp, update)]) := by
  dsimp only [applyClientEvent, pushLog]
  generalize clientEventToLogEntry now ev = entry
  cases ev <;> dsimp only [applyFields, updated?]

end Fields

theorem applyAll_concat (s : ClientState) (stamped : List (Text × ClientEvent))
    (e : Text × ClientEvent) :
    s.applyAll (stamped ++ [e]) = (s.applyAll stamped).applyClientEvent e.1 e.2 := by
  rw [applyAll, List.foldl_append, List.foldl_cons, List.foldl_nil, applyAll]

theorem connected_applyAll (s : ClientState) (stamped : List (Text × ClientEvent)) :
    (s.applyAll stamped).connected =
      (stamped.map Prod.snd).foldl connectedAfter s.connected := by
  induction stamped using List.reverseRecOn with
  | nil => rfl
  | append_singleton stamped e ih =>
      rw [applyAll_concat, connected_applyClientEvent, ih, List.map_append, List.foldl_append]
      rfl

/-- The last update is the last one an event is about. -/
theorem lastUpdate_applyAll (s : ClientState) (stamped : List (Text × ClientEvent)) :
    (s.applyAll stamped).lastUpdate =
      ((stamped.map Prod.snd).filterMap about?).getLast?.or s.lastUpdate := by
  induction stamped using List.reverseRecOn with
  | nil => rfl
  | append_singleton stamped e ih =>
      rw [applyAll_concat, lastUpdate_applyClientEvent, ih, List.map_append,
        List.filterMap_append, List.map_singleton, List.getLast?_append]
      cases h : about? e.2 with
      | none => simp [h]
      | some update => simp [h]

/-- An update that reached the file, under the time at which it was logged. -/
def updateRecord? (e : Text × ClientEvent) : Option (Text × Text × Text) :=
  (updated? e.2).map fun update => ((clientEventToLogEntry e.1 e.2).timestamp, update)

/-- The history is the newest part of the updates that reached the file. -/
theorem updateHistory_newest (serverAddr hostsFile : Text)
    (stamped : List (Text × ClientEvent)) :
    ((new serverAddr hostsFile).applyAll stamped).updateHistory =
      (stamped.filterMap updateRecord?).rtake logCapacity := by
  apply Newest.foldl_newest
  · intro s e
    rw [updateHistory_applyClientEvent]
    unfold updateRecord?
    cases updated? e.2 with
    | none => rfl
    | some update => rfl
  · rfl

/-- The same without the times. -/
theorem updateHistory_applyAll (serverAddr hostsFile : Text)
    (stamped : List (Text × ClientEvent)) :
    ((new serverAddr hostsFile).applyAll stamped).updateHistory.map Prod.snd =
      capped ((stamped.map Prod.snd).filterMap updated?) := by
  have hupdate : (fun e => (updateRecord? e).map Prod.snd) = updated? ∘ Prod.snd := by
    funext e
    simp [updateRecord?, Function.comp_def]
  rw [updateHistory_newest, capped_eq_rtake, Newest.map_rtake, List.map_filterMap, hupdate,
    List.filterMap_map]

end ClientState

end DnslessHomelab.ClientPanel
