import DnslessHomelab.Newest
import DnslessHomelab.Protocol

/-!
# The server panel's state

The state that the native and the web panel fold from the server's events. The
local time of an event is an input. The log and the history of addresses keep
their newest entries.
-/
namespace DnslessHomelab.PanelState
open Protocol

/-- Most entries a history keeps. -/
def logCapacity : ℕ := 200

inductive LogKind where
  | info | warn | error
  deriving DecidableEq, Repr

structure LogEntry where
  timestamp : Text
  text : Text
  kind : LogKind
  deriving DecidableEq, Repr

def serverEventToLogEntry (now : Text) : ServerEvent → LogEntry
  | .listening bindAddr => ⟨now, "Listening on ".toList ++ bindAddr.toString, .info⟩
  | .clientConnected peer => ⟨now, "Client connected: ".toList ++ peer.toString, .info⟩
  | .clientDisconnected peer => ⟨now, "Client disconnected: ".toList ++ peer.toString, .warn⟩
  | .ipChanged hostname ip isInitial =>
      let label := if isInitial then "Initial IP".toList else "IP changed".toList
      ⟨now, label ++ ": ".toList ++ hostname ++ " -> ".toList ++ ip, .info⟩
  | .heartbeatSent => ⟨now, "Heartbeat sent".toList, .info⟩
  | .pollUnchanged ip => ⟨now, "IP unchanged: ".toList ++ ip, .info⟩
  | .error message => ⟨now, "Error: ".toList ++ message, .error⟩

/-- Drop the oldest entries beyond the capacity. -/
def capped {A : Type*} (entries : List A) : List A := entries.drop (entries.length - logCapacity)

theorem capped_eq_rtake {A : Type*} (entries : List A) :
    capped entries = entries.rtake logCapacity := rfl

structure ServerState where
  bindAddr : Option Text
  interface : Text
  hostname : Text
  currentIp : Option Text
  connectedClients : List Text
  ipHistory : List (Text × Text)
  log : List LogEntry
  deriving DecidableEq, Repr

namespace ServerState

def new (hostname interface : Text) : ServerState :=
  ⟨none, interface, hostname, none, [], [], []⟩

def pushLog (s : ServerState) (entry : LogEntry) : ServerState :=
  { s with log := capped (s.log ++ [entry]) }

/-- The structured fields after an event with the given log entry. -/
def applyFields (s : ServerState) (entry : LogEntry) : ServerEvent → ServerState
  | .listening bindAddr => { s with bindAddr := some bindAddr.toString }
  | .clientConnected peer =>
      if peer.toString ∈ s.connectedClients then s
      else { s with connectedClients := s.connectedClients ++ [peer.toString] }
  | .clientDisconnected peer =>
      { s with connectedClients := s.connectedClients.filter (· ≠ peer.toString) }
  | .ipChanged hostname ip isInitial =>
      let change := hostname ++ " -> ".toList ++ ip ++
        if isInitial then " (initial)".toList else []
      { s with
        currentIp := some ip
        ipHistory := capped (s.ipHistory ++ [(entry.timestamp, change)]) }
  | .heartbeatSent | .error _ => s
  | .pollUnchanged ip => { s with currentIp := some ip }

def applyServerEvent (s : ServerState) (now : Text) (ev : ServerEvent) : ServerState :=
  let entry := serverEventToLogEntry now ev
  (s.applyFields entry ev).pushLog entry

/-- Events in order, each with its local time. -/
def applyAll (s : ServerState) (events : List (Text × ServerEvent)) : ServerState :=
  events.foldl (fun s e => s.applyServerEvent e.1 e.2) s

/-- Only the two events about clients touch the list. -/
def clientsAfter (clients : List Text) : ServerEvent → List Text
  | .clientConnected peer =>
      if peer.toString ∈ clients then clients else clients ++ [peer.toString]
  | .clientDisconnected peer => clients.filter (· ≠ peer.toString)
  | _ => clients

theorem applyFields_clientConnected (s : ServerState) (entry : LogEntry) (peer : SocketAddr) :
    s.applyFields entry (.clientConnected peer) =
      { s with connectedClients := clientsAfter s.connectedClients (.clientConnected peer) } := by
  dsimp only [applyFields, clientsAfter]
  split_ifs
  · rfl
  · rfl

theorem connectedClients_applyServerEvent (s : ServerState) (now : Text) (ev : ServerEvent) :
    (s.applyServerEvent now ev).connectedClients = clientsAfter s.connectedClients ev := by
  dsimp only [applyServerEvent, pushLog]
  cases ev with
  | clientConnected peer => rw [applyFields_clientConnected]
  | clientDisconnected | listening | ipChanged | heartbeatSent | pollUnchanged | error =>
      dsimp only [applyFields, clientsAfter]

theorem connectedClients_applyAll (s : ServerState) (stamped : List (Text × ServerEvent)) :
    (s.applyAll stamped).connectedClients =
      (stamped.map Prod.snd).foldl clientsAfter s.connectedClients := by
  induction stamped generalizing s with
  | nil => rfl
  | cons e stamped ih =>
      have := ih (s.applyServerEvent e.1 e.2)
      rw [connectedClients_applyServerEvent] at this
      exact this

/-- A peer is listed after an event about it according to that event, and otherwise
as before. -/
theorem mem_clientsAfter (clients : List Text) (ev : ServerEvent) (p : SocketAddr) :
    p.toString ∈ clientsAfter clients ev ↔
      ev = .clientConnected p ∨ p.toString ∈ clients ∧ ev ≠ .clientDisconnected p := by
  have hne : ∀ peer : SocketAddr, p.toString = peer.toString ↔ peer = p :=
    fun peer => ⟨fun h => SocketAddr.toString_injective h.symm, fun h => h ▸ rfl⟩
  cases ev with
  | clientConnected peer =>
      simp only [clientsAfter]
      split_ifs with hmem
      · constructor
        · exact fun h => .inr ⟨h, by simp⟩
        · rintro (h | h)
          · cases h
            exact hmem
          · exact h.1
      · simp [hne, or_comm]
  | clientDisconnected peer => simp [clientsAfter, hne]
  | listening | ipChanged | heartbeatSent | pollUnchanged | error => simp [clientsAfter]

/-- Only a change and an unchanged poll tell the address. -/
def ipAfter (currentIp : Option Text) : ServerEvent → Option Text
  | .ipChanged _ ip _ | .pollUnchanged ip => some ip
  | .listening _ | .clientConnected _ | .clientDisconnected _ | .heartbeatSent | .error _ =>
      currentIp

theorem currentIp_applyServerEvent (s : ServerState) (now : Text) (ev : ServerEvent) :
    (s.applyServerEvent now ev).currentIp = ipAfter s.currentIp ev := by
  dsimp only [applyServerEvent, pushLog]
  cases ev with
  | clientConnected peer => rw [applyFields_clientConnected, ipAfter]
  | clientDisconnected | listening | ipChanged | heartbeatSent | pollUnchanged | error =>
      dsimp only [applyFields, ipAfter]

theorem currentIp_applyAll (s : ServerState) (stamped : List (Text × ServerEvent)) :
    (s.applyAll stamped).currentIp = (stamped.map Prod.snd).foldl ipAfter s.currentIp := by
  induction stamped generalizing s with
  | nil => rfl
  | cons e stamped ih =>
      have := ih (s.applyServerEvent e.1 e.2)
      rw [currentIp_applyServerEvent] at this
      exact this

/-- The text of a change in the history of addresses. -/
def change? : ServerEvent → Option Text
  | .ipChanged hostname ip isInitial =>
      some (hostname ++ " -> ".toList ++ ip ++ if isInitial then " (initial)".toList else [])
  | .listening _ | .clientConnected _ | .clientDisconnected _ | .heartbeatSent
  | .pollUnchanged _ | .error _ => none

theorem log_applyFields (s : ServerState) (entry : LogEntry) (ev : ServerEvent) :
    (s.applyFields entry ev).log = s.log := by
  cases ev with
  | clientConnected peer => rw [applyFields_clientConnected]
  | clientDisconnected | listening | ipChanged | heartbeatSent | pollUnchanged | error => rfl

/-- Every event is logged. -/
theorem log_applyServerEvent (s : ServerState) (now : Text) (ev : ServerEvent) :
    (s.applyServerEvent now ev).log = capped (s.log ++ [serverEventToLogEntry now ev]) := by
  dsimp only [applyServerEvent, pushLog]
  rw [log_applyFields]

/-- Only a change of the address touches its history. -/
theorem ipHistory_applyServerEvent (s : ServerState) (now : Text) (ev : ServerEvent) :
    (s.applyServerEvent now ev).ipHistory =
      match change? ev with
      | none => s.ipHistory
      | some change =>
          capped (s.ipHistory ++ [((serverEventToLogEntry now ev).timestamp, change)]) := by
  dsimp only [applyServerEvent, pushLog]
  generalize serverEventToLogEntry now ev = entry
  cases ev with
  | clientConnected peer =>
      rw [applyFields_clientConnected]
      dsimp only [change?]
  | clientDisconnected | listening | ipChanged | heartbeatSent | pollUnchanged | error =>
      dsimp only [applyFields, change?]

end ServerState

end DnslessHomelab.PanelState
