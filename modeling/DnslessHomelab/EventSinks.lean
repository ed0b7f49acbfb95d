import DnslessHomelab.ConnectedClients
import DnslessHomelab.MessageText
import DnslessHomelab.PanelState
import DnslessHomelab.Runs

/-!
# The two sinks of an event

A send puts the event into the channel of the native panel and then hands it to the
admin server, which writes it to every connected browser under a lock of its own. No
lock covers both halves, and two threads send. The sinks see one order exactly as long
as no thread comes to its second half before one that began its send earlier, unless
both carry the same event.

A message to a browser is named by the event whose text it carries. `sends` says for
each connected browser whether writing to it succeeds.
-/
namespace DnslessHomelab.EventSinks
open Protocol Runs PanelState

/-- The two threads that hold a clone of the broadcaster. -/
inductive Thread where
  | main | accept
  deriving DecidableEq, Repr

/-- The sends that are between their two halves, the one that began first in front. -/
inductive InFlight where
  | none
  | one (t : Thread) (ev : ServerEvent)
  | two (t : Thread) (ev ev' : ServerEvent)
  deriving DecidableEq, Repr

def InFlight.events : InFlight → List ServerEvent
  | .none => []
  | .one _ ev => [ev]
  | .two _ ev ev' => [ev, ev']

structure WebSocket where
  id : ℕ
  received : List ServerEvent
  deriving DecidableEq, Repr

structure Sinks where
  channel : List ServerEvent
  browsers : List WebSocket
  nextId : ℕ
  inFlight : InFlight
  deriving DecidableEq, Repr

inductive Action where
  | channelSend (t : Thread) (ev : ServerEvent)
  | adminBroadcast (t : Thread) (sends : ℕ → Bool)
  | browserOpens

/-- Before the first event some browsers are connected. -/
def start (opened : ℕ) : Sinks where
  channel := []
  browsers := (List.range opened).map fun id => ⟨id, []⟩
  nextId := opened
  inFlight := .none

/-- The first half of a send: a thread sends one event at a time. -/
def begin (inFlight : InFlight) (t : Thread) (ev : ServerEvent) : Option InFlight :=
  match inFlight with
  | .none => some (.one t ev)
  | .one t' ev' => if t = t' then none else some (.two t' ev' ev)
  | .two .. => none

def other : Thread → Thread
  | .main => .accept
  | .accept => .main

/-- The second half: the event of the thread, and what is still in flight. -/
def finish (inFlight : InFlight) (t : Thread) : Option (ServerEvent × InFlight) :=
  match inFlight with
  | .none => none
  | .one t' ev => if t = t' then some (ev, .none) else none
  | .two t' ev ev' => if t = t' then some (ev, .one (other t') ev') else some (ev', .one t' ev)

/-- The event goes to every browser; one that cannot be written to is dropped. -/
def broadcast (json : ServerEvent → Except Text Text) (sends : ℕ → Bool)
    (browsers : List WebSocket) (ev : ServerEvent) : List WebSocket :=
  match json ev with
  | .error _ => browsers
  | .ok _ => (browsers.filter fun ws => sends ws.id).map fun ws =>
      { ws with received := ws.received ++ [ev] }

def step (json : ServerEvent → Except Text Text) (s : Sinks) : Action → Option Sinks
  | .channelSend t ev =>
      (begin s.inFlight t ev).map fun inFlight =>
        { s with channel := s.channel ++ [ev], inFlight }
  | .adminBroadcast t sends =>
      (finish s.inFlight t).map fun r =>
        { s with browsers := broadcast json sends s.browsers r.1, inFlight := r.2 }
  | .browserOpens =>
      some { s with browsers := s.browsers ++ [⟨s.nextId, []⟩], nextId := s.nextId + 1 }

/-- The thread does not overtake a send with another event that began earlier. -/
def InFlight.Next : InFlight → Thread → Prop
  | .two t' ev ev', t => t = t' ∨ ev = ev'
  | .none, _ | .one .., _ => True

instance : ∀ (inFlight : InFlight) (t : Thread), Decidable (inFlight.Next t)
  | .two .., _ => inferInstanceAs (Decidable (_ ∨ _))
  | .none, _ | .one .., _ => isTrue trivial

def InOrder (s : Sinks) : Action → Prop
  | .adminBroadcast t _ => s.inFlight.Next t
  | .channelSend .. | .browserOpens => True

instance (s : Sinks) : ∀ a, Decidable (InOrder s a)
  | .adminBroadcast .. => inferInstanceAs (Decidable (InFlight.Next _ _))
  | .channelSend .. | .browserOpens => isTrue trivial

/-- The event that a step hands to the browsers. -/
def handed (s : Sinks) (a : Action) (_ : Sinks) : List ServerEvent :=
  match a with
  | .adminBroadcast t _ => match finish s.inFlight t with
      | some r => [r.1]
      | none => []
  | .channelSend .. | .browserOpens => []

section Order
variable {json : ServerEvent → Except Text Text} {s s' : Sinks} {a : Action}

theorem events_begin {inFlight inFlight' : InFlight} {t : Thread} {ev : ServerEvent}
    (h : begin inFlight t ev = some inFlight') : inFlight'.events = inFlight.events ++ [ev] := by
  unfold begin at h
  split at h
  · cases h
    rfl
  · split_ifs at h
    cases h
    rfl
  · cases h

/-- In order, the event handed over is the oldest one in flight. -/
theorem events_finish {inFlight : InFlight} {r : ServerEvent × InFlight} {t : Thread}
    (h : finish inFlight t = some r) (hok : inFlight.Next t) :
    inFlight.events = r.1 :: r.2.events := by
  unfold finish at h
  split at h
  · cases h
  · split_ifs at h
    cases h
    rfl
  · rename_i t' ev ev'
    split_ifs at h with ht
    · cases h
      rfl
    · cases h
      have hsame : ev = ev' := Or.resolve_left hok ht
      rw [hsame]
      rfl

/-- Out of order, it is not the oldest one. -/
theorem events_overtaken {inFlight : InFlight} {r : ServerEvent × InFlight} {t : Thread}
    (h : finish inFlight t = some r) (hok : ¬ inFlight.Next t) :
    ∃ ev rest, inFlight.events = ev :: rest ∧ ev ≠ r.1 := by
  unfold finish at h
  split at h
  · cases h
  · exact absurd trivial hok
  · rename_i t' ev ev'
    obtain ⟨ht, hne⟩ := not_or.mp hok
    rw [if_neg ht] at h
    cases h
    exact ⟨ev, [ev'], rfl, hne⟩

/-- What has been in the channel stays there. -/
theorem channel_step {past : List ServerEvent} (s : Sinks) (a : Action) (s' : Sinks)
    (h : past <+: s.channel) (hstep : step json s a = some s') : past <+: s'.channel := by
  cases a with
  | channelSend t ev =>
      obtain ⟨inFlight, -, rfl⟩ := Option.map_eq_some_iff.mp hstep
      exact h.trans (List.prefix_append _ _)
  | adminBroadcast t sends =>
      obtain ⟨r, -, rfl⟩ := Option.map_eq_some_iff.mp hstep
      exact h
  | browserOpens =>
      cases hstep
      exact h

/-- In every state the browsers lack exactly what is in flight, as long as every step
was in order, and never again after one that was not. -/
theorem channel_eq_handed_iff {actions : List Action} {before : List ServerEvent}
    (hs : s.channel = before ++ s.inFlight.events)
    (h : run (step json) s actions = some s') :
    s'.channel = before ++ observe (step json) handed s actions ++ s'.inFlight.events ↔
      Guarded (step json) InOrder s actions := by
  induction actions generalizing s before with
  | nil =>
      cases h
      simpa [observe, Guarded] using hs
  | cons a actions ih =>
      obtain ⟨m, hm, hrest⟩ := run_cons_iff.mp h
      have hobserve : observe (step json) handed s (a :: actions) =
          handed s a m ++ observe (step json) handed m actions := by
        simp only [observe, hm]
      have hguarded : Guarded (step json) InOrder s (a :: actions) ↔
          InOrder s a ∧ Guarded (step json) InOrder m actions := by
        simp [Guarded, hm]
      rw [hobserve, hguarded, ← List.append_assoc before]
      cases a with
      | channelSend t ev =>
          obtain ⟨inFlight, hbegin, rfl⟩ := Option.map_eq_some_iff.mp hm
          have hnext : s.channel ++ [ev] = before ++ inFlight.events := by
            rw [hs, events_begin hbegin, List.append_assoc]
          rw [handed, List.append_nil, ih hnext hrest]
          exact (and_iff_right trivial).symm
      | browserOpens =>
          have hnext : m.channel = before ++ m.inFlight.events := by
            cases hm
            exact hs
          rw [handed, List.append_nil, ih hnext hrest]
          exact (and_iff_right trivial).symm
      | adminBroadcast t sends =>
          obtain ⟨r, hfinish, rfl⟩ := Option.map_eq_some_iff.mp hm
          have hhanded : ∀ m, handed s (.adminBroadcast t sends) m = [r.1] := by
            intro m
            simp only [handed, hfinish]
          rw [hhanded]
          by_cases hok : InOrder s (.adminBroadcast t sends)
          · have hnext : s.channel = before ++ [r.1] ++ r.2.events := by
              rw [hs, events_finish hfinish hok, List.append_assoc]
              rfl
            rw [ih hnext hrest]
            exact (and_iff_right hok).symm
          · -- the channel holds another event at the place of the one handed over
            obtain ⟨ev, rest, hevents, hne⟩ := events_overtaken hfinish hok
            have hpast : before ++ [ev] <+: s'.channel := by
              apply invariant_run channel_step _ hrest
              rw [hs, hevents]
              exact ⟨rest, by simp⟩
            constructor
            · intro heq
              rw [heq, List.append_assoc, List.append_assoc, List.prefix_append_right_inj,
                List.singleton_append, List.cons_prefix_cons] at hpast
              exact absurd hpast.1 hne
            · exact fun hguard => absurd hguard.1 hok

end Order

section Browsers
variable {json : ServerEvent → Except Text Text} {opened : ℕ}

/-- A browser that was there from the start has all that was handed over. -/
structure Complete (opened : ℕ) (s : Sinks) (given : List ServerEvent) : Prop where
  later : opened ≤ s.nextId
  received : ∀ ws ∈ s.browsers, ws.id < opened → ws.received = given

theorem complete_start : Complete opened (start opened) [] := by
  constructor
  · exact Nat.le_refl _
  · intro ws hws _
    obtain ⟨id, -, rfl⟩ := List.mem_map.mp hws
    rfl

theorem complete_step (hjson : ∀ ev, ∃ text, json ev = .ok text) (s : Sinks) (a : Action)
    (s' : Sinks) (given : List ServerEvent) (h : Complete opened s given)
    (hstep : step json s a = some s') : Complete opened s' (given ++ handed s a s') := by
  cases a with
  | channelSend t ev =>
      obtain ⟨inFlight, -, rfl⟩ := Option.map_eq_some_iff.mp hstep
      rw [handed, List.append_nil]
      exact ⟨h.later, h.received⟩
  | browserOpens =>
      cases hstep
      rw [handed, List.append_nil]
      refine ⟨Nat.le_succ_of_le h.later, ?_⟩
      intro ws hws hid
      cases List.mem_append.mp hws with
      | inl hws => exact h.received ws hws hid
      | inr hws =>
          cases List.mem_singleton.mp hws
          exact absurd hid (Nat.not_lt.mpr h.later)
  | adminBroadcast t sends =>
      obtain ⟨r, hfinish, rfl⟩ := Option.map_eq_some_iff.mp hstep
      obtain ⟨text, htext⟩ := hjson r.1
      simp only [handed, hfinish]
      refine ⟨h.later, ?_⟩
      intro ws hws hid
      simp only [broadcast, htext] at hws
      obtain ⟨ws', hws', rfl⟩ := List.mem_map.mp hws
      have hreceived := h.received ws' (List.mem_of_mem_filter hws') hid
      exact congrArg (· ++ [r.1]) hreceived

end Browsers

/-- A browser connected since before the first event, and still connected. -/
def Throughout (opened : ℕ) (s : Sinks) (ws : WebSocket) : Prop :=
  ws ∈ s.browsers ∧ ws.id < opened

/-- In every state of a run: the browser has received what the channel holds but for
what is in flight, and with nothing in flight both panels list the same clients,
exactly when no step of the run overtook an earlier send. -/
theorem sinks_agree_iff (json : ServerEvent → Except Text Text)
    (hjson : ∀ ev, ∃ text, json ev = .ok text) (opened : ℕ) (actions : List Action) (s : Sinks)
    (h : run (step json) (start opened) actions = some s) (ws : WebSocket)
    (hws : Throughout opened s ws) (panel : ServerState) (native web : List (Text × ServerEvent))
    (hnative : native.map Prod.snd = s.channel) (hweb : web.map Prod.snd = ws.received) :
    (s.channel = ws.received ++ s.inFlight.events ∧
        (s.inFlight = .none →
          (panel.applyAll native).connectedClients = (panel.applyAll web).connectedClients)) ↔
      Guarded (step json) InOrder (start opened) actions := by
  have hcomplete : Complete opened s (observe (step json) handed (start opened) actions) :=
    invariant_observe (b := []) (complete_step hjson) complete_start h
  have hreceived := hcomplete.received ws hws.1 hws.2
  have hiff : s.channel = [] ++ observe (step json) handed (start opened) actions ++
      s.inFlight.events ↔ Guarded (step json) InOrder (start opened) actions :=
    channel_eq_handed_iff rfl h
  rw [List.nil_append, ← hreceived] at hiff
  rw [← hiff]
  constructor
  · exact fun hagree => hagree.1
  · intro heq
    refine ⟨heq, ?_⟩
    intro hquiet
    rw [hquiet, InFlight.events, List.append_nil] at heq
    rw [ServerState.connectedClients_applyAll, ServerState.connectedClients_applyAll,
      hnative, hweb, heq]

open ConnectedClients (laptop)
open MessageText (field)

/-- The text of an event as the library prints it: an object with the kind first. -/
def printEvent (ev : ServerEvent) : Text :=
  let object (kind : String) (members : Text) :=
    '{' :: (field "type".toList kind.toList ++ members ++ ['}'])
  match ev with
  | .listening bindAddr =>
      object "listening" (',' :: field "bind_addr".toList bindAddr.toString)
  | .clientConnected peer => object "client_connected" (',' :: field "peer".toList peer.toString)
  | .clientDisconnected peer =>
      object "client_disconnected" (',' :: field "peer".toList peer.toString)
  | .ipChanged hostname ip isInitial =>
      object "ip_changed" (',' :: field "hostname".toList hostname ++ ',' :: field "ip".toList ip ++
        ",\"is_initial\":".toList ++ (if isInitial then "true" else "false").toList)
  | .heartbeatSent => object "heartbeat_sent" []
  | .pollUnchanged ip => object "poll_unchanged" (',' :: field "ip".toList ip)
  | .error message => object "error" (',' :: field "message".toList message)

def compactEvents (ev : ServerEvent) : Except Text Text := .ok (printEvent ev)

/-- A client is announced and dropped; a browser opens later, one send at a time. -/
def oneByOne : List Action :=
  [.channelSend .accept (.clientConnected laptop), .adminBroadcast .accept fun _ => true,
    .browserOpens, .channelSend .main (.clientDisconnected laptop),
    .adminBroadcast .main fun _ => true]

theorem oneByOne_agrees : ∃ s ws, run (step compactEvents) (start 1) oneByOne = some s ∧
    Throughout 1 s ws ∧ s.channel = ws.received := by
  have hrun : ∃ s, run (step compactEvents) (start 1) oneByOne = some s ∧
      s.inFlight = .none ∧ ∃ ws ∈ s.browsers, ws.id < 1 := by decide +kernel
  obtain ⟨s, hs, hquiet, ws, hws, hid⟩ := hrun
  have hiff := sinks_agree_iff compactEvents (fun ev => ⟨printEvent ev, rfl⟩) 1 oneByOne s hs ws
    ⟨hws, hid⟩ (.new [] []) (s.channel.map fun ev => ([], ev)) (ws.received.map fun ev => ([], ev))
    (by simp [Function.comp_def]) (by simp [Function.comp_def])
  have hsame := (hiff.mpr (by decide +kernel)).1
  rw [hquiet, InFlight.events, List.append_nil] at hsame
  exact ⟨s, ws, hs, ⟨hws, hid⟩, hsame⟩

/-- The accept thread has announced the client to the channel; before it reaches the
browsers, a broadcast drops the client and reports it to both. -/
def overtaken : List Action :=
  [.channelSend .accept (.clientConnected laptop),
    .channelSend .main (.clientDisconnected laptop), .adminBroadcast .main fun _ => true,
    .adminBroadcast .accept fun _ => true]

theorem overtaken_disagrees : ∃ s ws, run (step compactEvents) (start 1) overtaken = some s ∧
    s.inFlight = .none ∧ Throughout 1 s ws ∧ s.channel ≠ ws.received ∧
    ((ServerState.new [] []).applyAll (s.channel.map fun ev => ([], ev))).connectedClients = [] ∧
    ((ServerState.new [] []).applyAll (ws.received.map fun ev => ([], ev))).connectedClients =
      [laptop.toString] := by
  refine ⟨⟨[.clientConnected laptop, .clientDisconnected laptop],
    [⟨0, [.clientDisconnected laptop, .clientConnected laptop]⟩], 1, .none⟩,
    ⟨0, [.clientDisconnected laptop, .clientConnected laptop]⟩, ?_⟩
  unfold Throughout
  decide +kernel

end DnslessHomelab.EventSinks
