import DnslessHomelab.ClientPanel
import DnslessHomelab.Newest
import DnslessHomelab.PanelState

/-!
# What the bounded histories hold

The log of either panel, the server's history of addresses and the client's history of
updates: after any events each holds exactly the newest entries of all that were pushed.
-/
namespace DnslessHomelab.BoundedHistories
open Protocol PanelState ClientPanel Newest

section Server
variable (hostname interface : Text) (stamped : List (Text × ServerEvent))

/-- A change of the address, under the time at which it was logged. -/
def ipRecord? (e : Text × ServerEvent) : Option (Text × Text) :=
  (ServerState.change? e.2).map fun change =>
    ((serverEventToLogEntry e.1 e.2).timestamp, change)

theorem serverLog_newest :
    ((ServerState.new hostname interface).applyAll stamped).log =
      (stamped.map fun e => serverEventToLogEntry e.1 e.2).rtake logCapacity := by
  rw [← List.filterMap_eq_map]
  apply foldl_newest
  · intro s e
    exact ServerState.log_applyServerEvent s e.1 e.2
  · rfl

theorem ipHistory_newest :
    ((ServerState.new hostname interface).applyAll stamped).ipHistory =
      (stamped.filterMap ipRecord?).rtake logCapacity := by
  apply foldl_newest
  · intro s e
    rw [ServerState.ipHistory_applyServerEvent]
    unfold ipRecord?
    cases ServerState.change? e.2 with
    | none => rfl
    | some change => rfl
  · rfl

end Server

theorem clientLog_newest (serverAddr hostsFile : Text) (stamped : List (Text × ClientEvent)) :
    ((ClientState.new serverAddr hostsFile).applyAll stamped).log =
      (stamped.map fun e => clientEventToLogEntry e.1 e.2).rtake logCapacity := by
  rw [← List.filterMap_eq_map]
  apply foldl_newest
  · intro s e
    exact ClientState.log_applyClientEvent s e.1 e.2
  · rfl

/-- Of `pushed`, a history keeps the newest entries up to the capacity, in order. -/
structure Keeps {A : Type*} (history pushed : List A) : Prop where
  newest : history = pushed.drop (pushed.length - logCapacity)
  length : history.length = min pushed.length logCapacity

theorem keeps_of_eq_rtake {A : Type*} {history pushed : List A}
    (h : history = pushed.rtake logCapacity) : Keeps history pushed := by
  constructor
  · exact h
  · rw [h, length_rtake, Nat.min_comm]

/-- Each of the four histories keeps the newest of its entries, under the time of the log
entry for the same event. -/
theorem histories_keep_newest :
    (∀ hostname interface (stamped : List (Text × ServerEvent)),
      let s := (ServerState.new hostname interface).applyAll stamped
      Keeps s.log (stamped.map fun e => serverEventToLogEntry e.1 e.2) ∧
        Keeps s.ipHistory (stamped.filterMap ipRecord?)) ∧
      ∀ serverAddr hostsFile (stamped : List (Text × ClientEvent)),
        let s := (ClientState.new serverAddr hostsFile).applyAll stamped
        Keeps s.log (stamped.map fun e => clientEventToLogEntry e.1 e.2) ∧
          Keeps s.updateHistory (stamped.filterMap ClientState.updateRecord?) := by
  constructor
  · intro hostname interface stamped s
    constructor
    · exact keeps_of_eq_rtake (serverLog_newest hostname interface stamped)
    · exact keeps_of_eq_rtake (ipHistory_newest hostname interface stamped)
  · intro serverAddr hostsFile stamped s
    constructor
    · exact keeps_of_eq_rtake (clientLog_newest serverAddr hostsFile stamped)
    · exact keeps_of_eq_rtake (ClientState.updateHistory_newest serverAddr hostsFile stamped)

end DnslessHomelab.BoundedHistories
