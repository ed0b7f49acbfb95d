import DnslessHomelab.InsertionOrder
import DnslessHomelab.PanelState

/-!
# The panel's client list by the last event of each peer

The list of the panel is a list in the order of insertion: a connection inserts the
peer, a disconnection erases it, and two peers never have the same text.
-/
namespace DnslessHomelab.ConnectedPeers
open Protocol PanelState PanelState.ServerState InsertionOrder

def membership : ServerEvent → Op SocketAddr
  | .clientConnected peer => .insert peer
  | .clientDisconnected peer => .erase peer
  | .listening _ | .ipChanged .. | .heartbeatSent | .pollUnchanged _ | .error _ => .other

/-- The two events about a peer. -/
def about (p : SocketAddr) (ev : ServerEvent) : Bool :=
  ev = .clientConnected p || ev = .clientDisconnected p

/-- The position of the first connection of a peer behind its last disconnection. -/
def connectedAt (events : List ServerEvent) (p : SocketAddr) : ℕ :=
  joinedAt (events.map membership) p

theorem clientsAfter_eq_apply (clients : List Text) (ev : ServerEvent) :
    clientsAfter clients ev = apply clients ((membership ev).map SocketAddr.toString) := by
  cases ev with
  | clientConnected peer =>
      dsimp only [clientsAfter, membership, Op.map]
      by_cases h : peer.toString ∈ clients
      · rw [apply_insert_of_mem h, if_pos h]
      · rw [apply_insert_of_notMem h, if_neg h]
  | clientDisconnected | listening | ipChanged | heartbeatSent | pollUnchanged | error => rfl

/-- The shown texts are those of the inserted peers. -/
theorem foldl_clientsAfter (events : List ServerEvent) :
    events.foldl clientsAfter [] =
      (members (events.map membership)).map SocketAddr.toString := by
  have hmap := foldl_apply_map SocketAddr.toString_injective (events.map membership) []
  rw [List.map_map, List.foldl_map, List.map_nil] at hmap
  rw [members, ← hmap]
  exact List.foldl_ext _ _ _ fun clients ev _ => clientsAfter_eq_apply clients ev

/-- The last event about a peer decides. -/
theorem mem_foldl_clientsAfter (events : List ServerEvent) (p : SocketAddr) :
    p.toString ∈ events.foldl clientsAfter [] ↔
      (events.filter (about p)).getLast? = some (.clientConnected p) := by
  induction events using List.reverseRecOn with
  | nil => simp
  | append_singleton events ev ih =>
      rw [List.foldl_append, List.foldl_cons, List.foldl_nil, mem_clientsAfter, ih,
        List.filter_append, List.getLast?_append]
      by_cases hev : about p ev = true
      · have hcase : ev = .clientConnected p ∨ ev = .clientDisconnected p := by
          simpa [about] using hev
        rcases hcase with rfl | rfl
        · simp [about]
        · simp [about]
      · have hne : ev ≠ .clientConnected p ∧ ev ≠ .clientDisconnected p := by
          simpa [about] using hev
        simp [hev, hne.1, hne.2]

/-- Nobody is listed twice, the last event about a peer decides whether it is listed, and
the listed peers stand in the order in which they connected. -/
theorem connectedClients_last_event (hostname interface : Text)
    (stamped : List (Text × ServerEvent)) :
    let events := stamped.map Prod.snd
    let clients := ((ServerState.new hostname interface).applyAll stamped).connectedClients
    clients.Nodup ∧
      (∀ p : SocketAddr, p.toString ∈ clients ↔
        (events.filter (about p)).getLast? = some (.clientConnected p)) ∧
      ∃ peers : List SocketAddr, clients = peers.map SocketAddr.toString ∧
        peers.Pairwise fun p q => connectedAt events p < connectedAt events q := by
  intro events clients
  have hclients : clients = events.foldl clientsAfter [] := by
    exact connectedClients_applyAll _ stamped
  refine ⟨?_, ?_, ?_⟩
  · rw [hclients, foldl_clientsAfter]
    exact (nodup_members _).map SocketAddr.toString_injective
  · intro p
    rw [hclients]
    exact mem_foldl_clientsAfter events p
  · refine ⟨members (events.map membership), ?_, ?_⟩
    · rw [hclients, foldl_clientsAfter]
    · exact pairwise_joinedAt _

end DnslessHomelab.ConnectedPeers
