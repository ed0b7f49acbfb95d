import Mathlib.Algebra.Order.Group.Multiset
import DnslessHomelab.BroadcastDelivery
import DnslessHomelab.ConnectedClients

/-!
# Connections and the events about them

The connections that join and leave the shared list are read off the list itself,
step by step. The events about clients name exactly these, in order; the one that is
being accepted has joined and is still to be named. Counted by address, repeated ones
included, whoever was announced and has not been reported gone is listed.
-/
namespace DnslessHomelab.ConnectionEvents
open Protocol Runs Broadcast BroadcastDelivery ConnectedClients

/-- Connections that a step adds to the list. -/
def joins (t : Threads) (_ : Action) (t' : Threads) : List ClientConn :=
  t'.list.listed.filter (· ∉ t.list.listed)

/-- Connections that a step takes out of the list. -/
def leaves (t : Threads) (_ : Action) (t' : Threads) : List ClientConn :=
  t.list.listed.filter (· ∉ t'.list.listed)

def connectedPeers (events : List ServerEvent) : List SocketAddr :=
  events.filterMap fun ev => match ev with
    | .clientConnected peer => some peer
    | _ => none

def disconnectedPeers (events : List ServerEvent) : List SocketAddr :=
  events.filterMap fun ev => match ev with
    | .clientDisconnected peer => some peer
    | _ => none

/-- What a step does to the list, together with what it reports. -/
inductive Change (t t' : Threads) : List ClientConn → List ClientConn → Prop
  | quiet (hlisted : t'.list.listed = t.list.listed) (haccepting : t'.accepting = t.accepting)
      (hconnected : connectedPeers t'.events = connectedPeers t.events)
      (hdisconnected : disconnectedPeers t'.events = disconnectedPeers t.events) : Change t t' [] []
  | pushed (c : ClientConn) (hid : c.id = t.nextId)
      (hlisted : t'.list.listed = t.list.listed ++ [c]) (hidle : t.accepting = none)
      (haccepting : t'.accepting = some c.peer)
      (hconnected : connectedPeers t'.events = connectedPeers t.events)
      (hdisconnected : disconnectedPeers t'.events = disconnectedPeers t.events) : Change t t' [c] []
  | announced (peer : SocketAddr) (hlisted : t'.list.listed = t.list.listed)
      (haccepting : t.accepting = some peer) (hidle : t'.accepting = none)
      (hconnected : connectedPeers t'.events = connectedPeers t.events ++ [peer])
      (hdisconnected : disconnectedPeers t'.events = disconnectedPeers t.events) : Change t t' [] []
  | removed (c : ClientConn) (front back : List ClientConn)
      (hlisted : t.list.listed = front ++ c :: back) (hlisted' : t'.list.listed = front ++ back)
      (haccepting : t'.accepting = t.accepting)
      (hconnected : connectedPeers t'.events = connectedPeers t.events)
      (hdisconnected : disconnectedPeers t'.events = disconnectedPeers t.events ++ [c.peer]) :
      Change t t' [] [c]

section Lists
variable {A : Type*} [DecidableEq A]

theorem filter_not_mem_of_subset {xs ys : List A} (h : ∀ x ∈ xs, x ∈ ys) :
    xs.filter (· ∉ ys) = [] := by
  rw [List.filter_eq_nil_iff]
  intro x hx
  simpa using h x hx

/-- One entry more than in the other list. -/
theorem filter_not_mem_middle {front back : List A} {x : A} (h : (front ++ x :: back).Nodup) :
    (front ++ x :: back).filter (· ∉ front ++ back) = [x] := by
  have hx : x ∉ front ++ back := (List.nodup_middle.mp h).notMem
  have hfront : front.filter (· ∉ front ++ back) = [] :=
    filter_not_mem_of_subset fun y hy => List.mem_append_left _ hy
  have hback : back.filter (· ∉ front ++ back) = [] :=
    filter_not_mem_of_subset fun y hy => List.mem_append_right _ hy
  rw [List.filter_append, List.filter_cons_of_pos (by simpa using hx), hfront, hback]
  rfl

end Lists

section Step
variable {json : SerdeJson} {accepts : ℕ → ℕ → ℕ} {t t' : Threads} {a : Action}

theorem listed_nodup (h : Delivery accepts t) : t.list.listed.Nodup := h.nodup.of_map _

theorem connectedPeers_concat (events : List ServerEvent) (ev : ServerEvent) :
    connectedPeers (events ++ [ev]) = connectedPeers events ++ connectedPeers [ev] :=
  List.filterMap_append ..

theorem disconnectedPeers_concat (events : List ServerEvent) (ev : ServerEvent) :
    disconnectedPeers (events ++ [ev]) = disconnectedPeers events ++ disconnectedPeers [ev] :=
  List.filterMap_append ..

/-- An event that is not about a client names nobody. -/
theorem peers_of_not_aboutClient {ev : ServerEvent} (hev : aboutClient ev = false) :
    connectedPeers [ev] = [] ∧ disconnectedPeers [ev] = [] := by
  cases ev with
  | clientConnected | clientDisconnected => cases hev
  | listening | ipChanged | heartbeatSent | pollUnchanged | error => exact ⟨rfl, rfl⟩

theorem change_emit {ev : ServerEvent} (hev : aboutClient ev = false) :
    Change t (t.emit ev) [] [] := by
  obtain ⟨hconnected, hdisconnected⟩ := peers_of_not_aboutClient hev
  have hc := connectedPeers_concat t.events ev
  have hd := disconnectedPeers_concat t.events ev
  rw [hconnected, List.append_nil] at hc
  rw [hdisconnected, List.append_nil] at hd
  exact .quiet rfl rfl hc hd

theorem change_of_step (hstep : step json accepts t a = some t') :
    ∃ joined left, Change t t' joined left := by
  cases effect_of_step hstep with
  | pushes peer clients hlist haccepting =>
      refine ⟨_, _, .pushed ⟨t.nextId, peer⟩ rfl ?_ haccepting rfl rfl rfl⟩
      rw [hlist]
      rfl
  | announces peer haccepting =>
      exact ⟨_, _, .announced peer rfl haccepting rfl (connectedPeers_concat ..)
        ((disconnectedPeers_concat ..).trans (List.append_nil _))⟩
  | cloneFails | unserialized => exact ⟨_, _, .quiet rfl rfl rfl rfl⟩
  | acceptFails error => exact ⟨_, _, change_emit rfl⟩
  | reports ev hev => exact ⟨_, _, change_emit hev⟩
  | locks msg clients line hlist _ =>
      refine ⟨_, _, .quiet ?_ rfl rfl rfl⟩
      rw [hlist]
      rfl
  | keeps line kept rest c hlist _ =>
      refine ⟨_, _, .quiet ?_ rfl rfl rfl⟩
      rw [hlist]
      exact List.append_assoc kept [c] rest
  | drops line kept rest c hlist _ =>
      refine ⟨_, _, .removed c kept rest ?_ rfl rfl
        ((connectedPeers_concat ..).trans (List.append_nil _)) (disconnectedPeers_concat ..)⟩
      rw [hlist]
      rfl
  | unlocks line kept hlist =>
      refine ⟨_, _, .quiet ?_ rfl rfl rfl⟩
      rw [hlist]
      exact (List.append_nil kept).symm

/-- The changes are what can be read off the list. -/
theorem Change.read {joined left : List ClientConn} (h : Change t t' joined left)
    (hdelivery : Delivery accepts t) (hdelivery' : Delivery accepts t') :
    joins t a t' = joined ∧ leaves t a t' = left := by
  unfold joins leaves
  cases h with
  | quiet hlisted | announced peer hlisted =>
      rw [hlisted]
      exact ⟨filter_not_mem_of_subset fun _ hx => hx, filter_not_mem_of_subset fun _ hx => hx⟩
  | pushed c _ hlisted =>
      have hnodup : (t.list.listed ++ c :: []).Nodup := hlisted ▸ listed_nodup hdelivery'
      have hjoined := filter_not_mem_middle hnodup
      rw [List.append_nil] at hjoined
      rw [hlisted]
      exact ⟨hjoined, filter_not_mem_of_subset fun x hx => List.mem_append_left _ hx⟩
  | removed c front back hlisted hlisted' =>
      have hnodup : (front ++ c :: back).Nodup := hlisted ▸ listed_nodup hdelivery
      rw [hlisted, hlisted']
      refine ⟨?_, filter_not_mem_middle hnodup⟩
      apply filter_not_mem_of_subset
      intro x hx
      simp only [List.mem_append, List.mem_cons] at hx ⊢
      exact hx.imp_right .inr

theorem observed_change (h : Delivery accepts t) (hstep : step json accepts t a = some t') :
    Change t t' (joins t a t') (leaves t a t') := by
  obtain ⟨joined, left, hchange⟩ := change_of_step hstep
  obtain ⟨hjoins, hleaves⟩ := hchange.read (a := a) h (delivery_step t a t' h hstep)
  rw [hjoins, hleaves]
  exact hchange

theorem nextId_step (hstep : step json accepts t a = some t') : t.nextId ≤ t'.nextId := by
  cases effect_of_step hstep with
  | pushes => exact Nat.le_succ _
  | announces | cloneFails | acceptFails | unserialized | reports | locks | keeps | drops
  | unlocks => exact Nat.le_refl _

/-- Each connection that joined is announced once, in order; the last one may be due. -/
structure Announced (accepts : ℕ → ℕ → ℕ) (t : Threads) (joined : List ClientConn) : Prop where
  delivery : Delivery accepts t
  peers : connectedPeers t.events ++ t.accepting.toList = joined.map ClientConn.peer
  older : ∀ c ∈ joined, c.id < t.nextId
  nodup : joined.Nodup

theorem announced_step (t : Threads) (a : Action) (t' : Threads) (joined : List ClientConn)
    (h : Announced accepts t joined) (hstep : step json accepts t a = some t') :
    Announced accepts t' (joined ++ joins t a t') := by
  have hdelivery := delivery_step t a t' h.delivery hstep
  have holder : ∀ c ∈ joined, c.id < t'.nextId := fun c hc =>
    Nat.lt_of_lt_of_le (h.older c hc) (nextId_step hstep)
  have hchange := observed_change h.delivery hstep
  generalize joins t a t' = new, leaves t a t' = gone at hchange
  cases hchange with
  | quiet _ haccepting hconnected | removed c front back _ _ haccepting hconnected =>
      rw [List.append_nil]
      refine ⟨hdelivery, ?_, holder, h.nodup⟩
      rw [hconnected, haccepting, h.peers]
  | announced peer _ haccepting hidle hconnected =>
      rw [List.append_nil]
      refine ⟨hdelivery, ?_, holder, h.nodup⟩
      rw [← h.peers, hconnected, hidle, haccepting]
      simp
  | pushed c hid hlisted hidle haccepting hconnected =>
      have hpeers := h.peers
      rw [hidle, Option.toList_none, List.append_nil] at hpeers
      refine ⟨hdelivery, ?_, ?_, ?_⟩
      · rw [hconnected, haccepting, hpeers, List.map_append]
        rfl
      · intro d hd
        cases List.mem_append.mp hd with
        | inl hd => exact holder d hd
        | inr hd =>
            cases List.mem_singleton.mp hd
            apply hdelivery.fresh
            rw [hlisted]
            exact List.mem_map_of_mem (List.mem_append_right _ (List.mem_singleton_self _))
      · have hnew : c ∉ joined := fun hc => Nat.ne_of_lt (h.older c hc) hid
        exact h.nodup.append (List.nodup_singleton c) (by simpa using hnew)

/-- Each connection that left is reported gone once, in order. -/
structure Reported (accepts : ℕ → ℕ → ℕ) (t : Threads) (left : List ClientConn) : Prop where
  delivery : Delivery accepts t
  peers : disconnectedPeers t.events = left.map ClientConn.peer

theorem reported_step (t : Threads) (a : Action) (t' : Threads) (left : List ClientConn)
    (h : Reported accepts t left) (hstep : step json accepts t a = some t') :
    Reported accepts t' (left ++ leaves t a t') := by
  refine ⟨delivery_step t a t' h.delivery hstep, ?_⟩
  have hchange := observed_change h.delivery hstep
  generalize joins t a t' = new, leaves t a t' = gone at hchange
  cases hchange with
  | quiet _ _ _ hdisconnected | announced _ _ _ _ _ hdisconnected
  | pushed _ _ _ _ _ _ hdisconnected =>
      rw [List.append_nil, hdisconnected, h.peers]
  | removed c front back _ _ _ _ hdisconnected =>
      rw [hdisconnected, h.peers, List.map_append]
      rfl

/-- Announced, or about to be: reported gone, or listed. -/
def Balanced (t : Threads) : Prop :=
  (connectedPeers t.events : Multiset SocketAddr) + t.accepting.toList =
    disconnectedPeers t.events + peers t.list.listed

theorem balanced_start : Balanced start := by
  unfold Balanced
  exact add_zero 0

theorem balanced_step (t : Threads) (a : Action) (t' : Threads) (h : Balanced t)
    (hstep : step json accepts t a = some t') : Balanced t' := by
  unfold Balanced at h ⊢
  obtain ⟨joined, left, hchange⟩ := change_of_step hstep
  cases hchange with
  | quiet hlisted haccepting hconnected hdisconnected =>
      rw [hconnected, hdisconnected, haccepting, hlisted]
      exact h
  | pushed c _ hlisted hidle haccepting hconnected hdisconnected =>
      rw [hidle, Option.toList_none, Multiset.coe_nil, add_zero] at h
      have hpeers : peers (t.list.listed ++ [c]) = peers t.list.listed ++ [c.peer] := List.map_append
      rw [hconnected, hdisconnected, haccepting, hlisted, h, hpeers, ← Multiset.coe_add, add_assoc]
      rfl
  | announced peer hlisted haccepting hidle hconnected hdisconnected =>
      rw [hconnected, hdisconnected, hidle, hlisted, ← h, haccepting, ← Multiset.coe_add]
      exact add_zero _
  | removed c front back hlisted hlisted' haccepting hconnected hdisconnected =>
      have hmiddle : (peers (front ++ c :: back) : Multiset SocketAddr) =
          {c.peer} + peers (front ++ back) := by
        rw [peers, peers, Multiset.singleton_add, Multiset.cons_coe, Multiset.coe_eq_coe,
          ← List.map_cons]
        exact List.perm_middle.map _
      rw [hlisted, hmiddle, ← add_assoc] at h
      rw [hconnected, haccepting, h, hdisconnected, hlisted', ← Multiset.coe_add,
        Multiset.coe_singleton]

end Step

/-- In every state: the announcements are those of the connections that joined the
list, each once and in order, but for the one being accepted; the reports of removals
are those of the connections that left it. When none is being accepted, the announced
addresses less the reported ones are the listed ones, with their multiplicities. -/
theorem events_conserve_list (json : SerdeJson) (accepts : ℕ → ℕ → ℕ) (actions : List Action)
    (t : Threads) (h : run (step json accepts) start actions = some t) :
    let joined := observe (step json accepts) joins start actions
    let left := observe (step json accepts) leaves start actions
    joined.Nodup ∧
      connectedPeers t.events ++ t.accepting.toList = joined.map ClientConn.peer ∧
      disconnectedPeers t.events = left.map ClientConn.peer ∧
      (t.accepting = none →
        disconnectedPeers t.events ≤ (connectedPeers t.events : Multiset SocketAddr) ∧
        (connectedPeers t.events : Multiset SocketAddr) - disconnectedPeers t.events =
          peers t.list.listed) := by
  have hannounced : Announced accepts t (observe (step json accepts) joins start actions) :=
    invariant_observe (b := []) announced_step
      ⟨delivery_start accepts, rfl, by simp, List.nodup_nil⟩ h
  have hreported : Reported accepts t (observe (step json accepts) leaves start actions) :=
    invariant_observe (b := []) reported_step ⟨delivery_start accepts, rfl⟩ h
  have hbalanced : Balanced t := invariant_run balanced_step balanced_start h
  refine ⟨hannounced.nodup, hannounced.peers, hreported.peers, ?_⟩
  intro hidle
  unfold Balanced at hbalanced
  rw [hidle, Option.toList_none, Multiset.coe_nil, add_zero] at hbalanced
  constructor
  · rw [hbalanced]
    exact Multiset.le_add_right _ _
  · rw [hbalanced]
    exact add_tsub_cancel_left _ _

/-- Two connections of one address; the second is dropped before it is announced. -/
def sameAddressTwice : List Action :=
  [.push laptop, .announce, .push laptop, .broadcast .heartbeat, .visit, .visit, .announce,
    .unlock]

theorem sameAddressTwice_conserves : ∃ t,
    run (step MessageText.compactJson fun c _ => if c = 0 then 100 else 0) start
        sameAddressTwice = some t ∧
      connectedPeers t.events = [laptop, laptop] ∧ disconnectedPeers t.events = [laptop] ∧
      (connectedPeers t.events : Multiset SocketAddr) - disconnectedPeers t.events =
        peers t.list.listed := by
  have hrun : ∃ t, run (step MessageText.compactJson fun c _ => if c = 0 then 100 else 0) start
      sameAddressTwice = some t ∧ t.accepting = none ∧
        connectedPeers t.events = [laptop, laptop] ∧ disconnectedPeers t.events = [laptop] := by
    decide +kernel
  obtain ⟨t, ht, hidle, hconnected, hdisconnected⟩ := hrun
  have hconserve := events_conserve_list MessageText.compactJson
    (fun c _ => if c = 0 then 100 else 0) sameAddressTwice t ht
  exact ⟨t, ht, hconnected, hdisconnected, (hconserve.2.2.2 hidle).2⟩

end DnslessHomelab.ConnectionEvents
