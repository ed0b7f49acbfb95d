import DnslessHomelab.Broadcast
import DnslessHomelab.MessageText
import DnslessHomelab.PanelState

/-!
# The panel's client list and the server's

The panel learns of connections from two threads that report in their own time, and
it knows them by address alone. It agrees with the shared list as long as every
removal is one that the address tells: no connection of the same address stays
listed, unless its report is still to come; and the report to come is not about a
connection that is gone.
-/
namespace DnslessHomelab.ConnectedClients
open Protocol Runs Broadcast PanelState PanelState.ServerState

def peers (clients : List ClientConn) : List SocketAddr := clients.map ClientConn.peer

/-- The addresses a panel shows that has applied all events. -/
def shown (t : Threads) : List Text := t.events.foldl clientsAfter []

/-- A removal is told by the address: after it the address is listed exactly when the
connection that is being accepted has it. -/
def Told (accepts : ℕ → ℕ → ℕ) (t : Threads) : Action → Prop
  | .visit => match t.list with
      | .held line kept (c :: rest) =>
          writes accepts t line c ∨
            (c.peer ∈ peers (kept ++ rest) ↔ t.accepting = some c.peer)
      | _ => True
  | _ => True

instance (accepts : ℕ → ℕ → ℕ) (t : Threads) (a : Action) : Decidable (Told accepts t a) := by
  unfold Told
  split
  · split
    · infer_instance
    · exact isTrue trivial
  · exact isTrue trivial

/-- The panel agrees on every address, except for one not reported yet. -/
structure Agreement (t : Threads) : Prop where
  settled : ∀ p, t.accepting ≠ some p → (p.toString ∈ shown t ↔ p ∈ peers t.list.listed)
  pending : ∀ p, t.accepting = some p → p ∈ peers t.list.listed

theorem agreement_start : Agreement start := by
  constructor <;> simp [start, shown, peers, ClientList.listed]

section Step
variable {json : SerdeJson} {accepts : ℕ → ℕ → ℕ} {t t' : Threads}

theorem mem_shown_concat {events : List ServerEvent} {ev : ServerEvent} {p : SocketAddr}
    (h : t'.events = events ++ [ev]) :
    p.toString ∈ shown t' ↔ ev = .clientConnected p ∨
      p.toString ∈ events.foldl clientsAfter [] ∧ ev ≠ .clientDisconnected p := by
  unfold shown
  rw [h, List.foldl_append]
  exact mem_clientsAfter _ ev p

/-- Same addresses listed, same addresses shown. -/
theorem Agreement.congr (h : Agreement t) (haccepting : t'.accepting = t.accepting)
    (hlisted : ∀ p, p ∈ peers t'.list.listed ↔ p ∈ peers t.list.listed)
    (hshown : ∀ p : SocketAddr, p.toString ∈ shown t' ↔ p.toString ∈ shown t) :
    Agreement t' := by
  constructor
  · intro p hp
    rw [hshown, hlisted]
    exact h.settled p (haccepting ▸ hp)
  · intro p hp
    rw [hlisted]
    exact h.pending p (haccepting ▸ hp)

/-- Events that are not about clients change nothing. -/
theorem Agreement.report (h : Agreement t) {ev : ServerEvent} (hev : aboutClient ev = false) :
    Agreement (t.emit ev) := by
  refine h.congr rfl (fun _ => Iff.rfl) fun p => ?_
  rw [mem_shown_concat rfl]
  cases ev <;> simp_all [aboutClient, shown]

theorem Agreement.push (h : Agreement t) {clients : List ClientConn}
    (hlist : t.list = .free clients) (haccepting : t.accepting = none) (peer : SocketAddr) :
    Agreement (t.push clients peer) := by
  have hlisted : ∀ p, p ∈ peers (t.push clients peer).list.listed ↔
      p ∈ peers t.list.listed ∨ p = peer := by
    intro p
    simp [Threads.push, ClientList.listed, peers, hlist]
  constructor
  · intro p hp
    have hne : p ≠ peer := fun heq => hp (heq ▸ rfl)
    rw [hlisted, or_iff_left hne]
    exact h.settled p (by simp [haccepting])
  · intro p hp
    rw [hlisted]
    exact .inr (Option.some.inj hp).symm

theorem Agreement.announce (h : Agreement t) {peer : SocketAddr}
    (haccepting : t.accepting = some peer) :
    Agreement { t.emit (.clientConnected peer) with accepting := none } := by
  constructor
  · intro p _
    rw [mem_shown_concat rfl]
    by_cases hp : p = peer
    · subst hp
      simpa using h.pending p haccepting
    · have hsettled := h.settled p fun heq => hp (Option.some.inj (heq.symm.trans haccepting))
      have hne : peer ≠ p := Ne.symm hp
      simpa [hne, shown] using hsettled
  · intro p hp
    cases hp

theorem Agreement.drop (h : Agreement t) {line : Bytes} {kept rest : List ClientConn}
    {c : ClientConn} (hlist : t.list = .held line kept (c :: rest))
    (htold : c.peer ∈ peers (kept ++ rest) ↔ t.accepting = some c.peer) :
    Agreement { (t.write accepts line c).emit (.clientDisconnected c.peer) with
      list := .held line kept rest } := by
  have hlisted : ∀ p, p ∈ peers t.list.listed ↔ p = c.peer ∨ p ∈ peers (kept ++ rest) := by
    intro p
    simp only [peers, hlist, ClientList.listed, List.map_append, List.map_cons, List.mem_append,
      List.mem_cons]
    tauto
  constructor
  · intro p hp
    rw [mem_shown_concat rfl]
    by_cases heq : p = c.peer
    · subst heq
      have hout : c.peer ∉ peers (kept ++ rest) := fun hin => hp (htold.mp hin)
      simpa [ClientList.listed] using hout
    · have hsettled := (h.settled p hp).trans (hlisted p)
      have hne : c.peer ≠ p := Ne.symm heq
      simpa [hne, heq, shown, ClientList.listed] using hsettled
  · intro p hp
    by_cases heq : p = c.peer
    · subst heq
      exact htold.mpr hp
    · exact ((hlisted p).mp (h.pending p hp)).resolve_left heq

end Step

theorem agreement_step {json : SerdeJson} {accepts : ℕ → ℕ → ℕ} (t : Threads) (a : Action)
    (t' : Threads) (h : Agreement t) (hok : Told accepts t a)
    (hstep : step json accepts t a = some t') : Agreement t' := by
  cases effect_of_step hstep with
  | pushes peer clients hlist haccepting => exact h.push hlist haccepting peer
  | announces peer haccepting => exact h.announce haccepting
  | cloneFails | unserialized => exact h
  | acceptFails error => exact h.report rfl
  | reports ev hev => exact h.report hev
  | locks msg clients line hlist _ =>
      refine h.congr rfl (fun p => ?_) fun _ => Iff.rfl
      simp [hlist, ClientList.listed]
  | keeps line kept rest c hlist _ =>
      refine h.congr rfl (fun p => ?_) fun _ => Iff.rfl
      simp [hlist, ClientList.listed]
  | drops line kept rest c hlist hwrites =>
      apply h.drop hlist
      unfold Told at hok
      simp only [hlist] at hok
      exact hok.resolve_left hwrites
  | unlocks line kept hlist =>
      refine h.congr rfl (fun p => ?_) fun _ => Iff.rfl
      simp [hlist, ClientList.listed]

/-- In a run whose removals the addresses tell, a panel that has applied all events
shows, whenever no accepted client is unreported, exactly the listed addresses. -/
theorem connectedClients_iff (json : SerdeJson) (accepts : ℕ → ℕ → ℕ) (actions : List Action)
    (t : Threads) (hostname interface : Text) (stamped : List (Text × ServerEvent))
    (hok : Guarded (step json accepts) (Told accepts) start actions)
    (h : run (step json accepts) start actions = some t)
    (hstamped : stamped.map Prod.snd = t.events) (hquiet : t.accepting = none)
    (p : SocketAddr) :
    p.toString ∈ ((ServerState.new hostname interface).applyAll stamped).connectedClients ↔
      ∃ c ∈ t.list.listed, c.peer = p := by
  have hagree : Agreement t := invariant_guarded agreement_step agreement_start hok h
  rw [connectedClients_applyAll, hstamped]
  have hsettled := hagree.settled p (by simp [hquiet])
  unfold shown peers at hsettled
  rw [List.mem_map] at hsettled
  exact hsettled

def laptop : SocketAddr := ⟨⟨10, 0, 0, 7⟩, 4000⟩

def phone : SocketAddr := ⟨⟨10, 0, 0, 8⟩, 4001⟩

/-- The laptop's connection fails after both were reported. -/
def reportedThenDropped : List Action :=
  [.push laptop, .announce, .push phone, .announce, .broadcast .heartbeat, .visit, .visit,
    .unlock]

theorem reportedThenDropped_agrees : ∃ t,
    run (step MessageText.compactJson fun c _ => c * 100) start reportedThenDropped = some t ∧
      (laptop.toString ∈ ((ServerState.new [] []).applyAll
          (t.events.map fun ev => ([], ev))).connectedClients ↔
        ∃ c ∈ t.list.listed, c.peer = laptop) := by
  have hrun : ∃ t, run (step MessageText.compactJson fun c _ => c * 100) start
      reportedThenDropped = some t ∧ t.accepting = none := by decide +kernel
  obtain ⟨t, ht, hquiet⟩ := hrun
  refine ⟨t, ht, ?_⟩
  exact connectedClients_iff MessageText.compactJson (fun c _ => c * 100) reportedThenDropped t
    [] [] _ (by decide +kernel) ht (by simp [Function.comp_def]) hquiet laptop

/-- The laptop's connection fails before it is reported; the report then stays. -/
def droppedThenReported : List Action :=
  [.push laptop, .broadcast .heartbeat, .visit, .unlock, .announce]

theorem droppedThenReported_disagrees : ∃ t,
    run (step MessageText.compactJson fun _ _ => 0) start droppedThenReported = some t ∧
      t.accepting = none ∧
      ¬ (laptop.toString ∈ ((ServerState.new [] []).applyAll
          (t.events.map fun ev => ([], ev))).connectedClients ↔
        ∃ c ∈ t.list.listed, c.peer = laptop) := by
  decide +kernel

end DnslessHomelab.ConnectedClients
