import DnslessHomelab.ClientPanel
import DnslessHomelab.ClientStream
import DnslessHomelab.MessageText
import DnslessHomelab.Runs

/-!
# The client loop and its panel

The reconnect loop taken apart into the steps between two points where it waits: for a
connection, for the next line, or for the delay to pass. `run_script` says that a whole
run of `runWithEvents` is a run of these steps. At every such point the panel that has
applied all events tells what the loop did.
-/
namespace DnslessHomelab.ClientLoop
open Protocol Runs ClientStream PanelState ClientPanel ClientPanel.ClientState

/-- What the loop waits for. -/
inductive Phase where
  | connecting | reading | sleeping
  deriving DecidableEq, Repr

structure Client (σ : Type*) where
  hosts : σ
  phase : Phase
  events : List ClientEvent

/-- An item of the line iterator, its end, or how connecting went. -/
inductive Action where
  | connected
  | refused (error : Text)
  | line (item : Item)
  | ended
  | retry

section Loop
variable {σ : Type*} (cfg : ClientConfig) (json : SerdeJson)
variable (update : σ → Text → Text → σ × Except Text Unit)

def start (hosts : σ) : Client σ := ⟨hosts, .connecting, [.connecting cfg.serverAddr]⟩

def step (c : Client σ) (a : Action) : Option (Client σ) :=
  match a, c.phase with
  | .connected, .connecting =>
      some { c with phase := .reading, events := c.events ++ [.connected cfg.serverAddr] }
  | .refused e, .connecting =>
      some { c with
        phase := .sleeping
        events := c.events ++ [.connectionFailed cfg.serverAddr e] }
  | .line (.ok raw), .reading =>
      let r := handleLine json update c.hosts raw
      some { c with hosts := r.1, events := c.events ++ r.2 }
  | .line (.error _), .reading =>
      -- the connection loop reports the loss, and so does the reconnect loop
      some { c with
        phase := .sleeping
        events := c.events ++ [.connectionLost cfg.serverAddr, .connectionLost cfg.serverAddr] }
  | .ended, .reading =>
      some { c with phase := .sleeping, events := c.events ++ [.connectionLost cfg.serverAddr] }
  | .retry, .sleeping =>
      some { c with phase := .connecting, events := c.events ++ [.connecting cfg.serverAddr] }
  | _, _ => none

/-- The items that a connection hands to the loop: up to the first read error. -/
def lines : List Item → List Action
  | [] => [.ended]
  | .error e :: _ => [.line (.error e)]
  | .ok raw :: items => .line (.ok raw) :: lines items

/-- The steps of whole attempts, each followed by the delay. -/
def script : List Attempt → List Action
  | [] => []
  | .refused e :: attempts => .refused e :: .retry :: script attempts
  | .established bytes fin :: attempts =>
      .connected :: (lines (readLines bytes fin) ++ .retry :: script attempts)

theorem run_lines (s : σ) (events : List ClientEvent) (items : List Item) :
    run (step cfg json update) ⟨s, .reading, events⟩ (lines items) =
      let r := handleStream json update cfg.serverAddr s items
      some ⟨r.1, .sleeping, events ++ (r.2 ++ [.connectionLost cfg.serverAddr])⟩ := by
  induction items generalizing s events with
  | nil => rfl
  | cons item items ih =>
      cases item with
      | error e => rfl
      | ok raw =>
          have hrest := ih (handleLine json update s raw).1
            (events ++ (handleLine json update s raw).2)
          simp only [lines, run_cons, step, Option.bind_some, handleStream, hrest,
            List.append_assoc]

/-- The loop's attempts, from one `Connecting` to the next. -/
theorem run_script (s : σ) (events : List ClientEvent) (attempts : List Attempt) :
    run (step cfg json update) ⟨s, .connecting, events ++ [.connecting cfg.serverAddr]⟩
        (script attempts) =
      let r := runWithEvents json update cfg s attempts
      some ⟨r.1, .connecting, events ++ (r.2 ++ [.connecting cfg.serverAddr])⟩ := by
  induction attempts generalizing s events with
  | nil => rfl
  | cons attempt attempts ih =>
      cases attempt with
      | refused e =>
          have hrest := ih s (events ++ [.connecting cfg.serverAddr,
            .connectionFailed cfg.serverAddr e])
          simp only [List.append_assoc, List.cons_append, List.nil_append] at hrest
          simp only [script, run_cons, step, Option.bind_some, runWithEvents, runAttempt,
            List.append_assoc, List.cons_append, List.nil_append, hrest]
      | established bytes fin =>
          have hlines := run_lines cfg json update s
            (events ++ [.connecting cfg.serverAddr, .connected cfg.serverAddr])
            (readLines bytes fin)
          have hrest := ih (handleStream json update cfg.serverAddr s (readLines bytes fin)).1
            (events ++ [.connecting cfg.serverAddr, .connected cfg.serverAddr] ++
              ((handleStream json update cfg.serverAddr s (readLines bytes fin)).2 ++
                [.connectionLost cfg.serverAddr]))
          simp only [List.append_assoc, List.cons_append, List.nil_append] at hlines hrest
          simp only [script, run_cons, run_append, step, Option.bind_some, runWithEvents,
            runAttempt, List.append_assoc, List.cons_append, List.nil_append, hlines, hrest]

/-- The updates parsed in a step, each with the outcome of writing it. -/
def writes (c : Client σ) (a : Action) (_ : Client σ) : List (IpUpdate × Except Text Unit) :=
  match a with
  | .line (.ok raw) =>
      match json.fromStr raw with
      | .ok (.ipUpdate u) => [(u, (update c.hosts u.hostname u.ip).2)]
      | .ok .heartbeat | .error _ => []
  | .line (.error _) | .connected | .refused _ | .ended | .retry => []

end Loop

def succeeded (w : IpUpdate × Except Text Unit) : Bool := w.2.isOk

def mapping (w : IpUpdate × Except Text Unit) : Text × Text := (w.1.hostname, w.1.ip)

/-- The update whose outcome an event tells. -/
def outcome? : ClientEvent → Option (Text × Text)
  | .hostsFileUpdated hostname ip | .hostsFileError hostname ip _ => some (hostname, ip)
  | .ipUpdateReceived .. | .connecting _ | .connected _ | .connectionLost _
  | .connectionFailed .. | .heartbeatReceived | .parseError .. => none

/-- An update that was received is followed by its own outcome, and by no second one. -/
def Paired (events : List ClientEvent) : Prop :=
  ∀ before hostname ip after, events = before ++ .ipUpdateReceived hostname ip :: after →
    ∃ outcome rest, after = outcome :: rest ∧ outcome? outcome = some (hostname, ip) ∧
      ∀ ev ∈ rest.head?, outcome? ev = none

theorem paired_of_not_mem {events : List ClientEvent}
    (h : ∀ hostname ip, .ipUpdateReceived hostname ip ∉ events) : Paired events := by
  intro before hostname ip after hsplit
  apply absurd _ (h hostname ip)
  rw [hsplit]
  exact List.mem_append_right _ (List.mem_cons_self ..)

theorem paired_outcome {hostname ip : Text} {outcome : ClientEvent}
    (h : outcome? outcome = some (hostname, ip)) :
    Paired [.ipUpdateReceived hostname ip, outcome] := by
  intro before hostname' ip' after hsplit
  cases before with
  | nil =>
      cases hsplit
      exact ⟨outcome, [], rfl, h, by simp⟩
  | cons ev before =>
      -- an outcome is no received update
      have hmem : .ipUpdateReceived hostname' ip' ∈ [outcome] := by
        rw [(List.cons.inj hsplit).2]
        exact List.mem_append_right _ (List.mem_cons_self ..)
      cases List.mem_singleton.mp hmem
      cases h

theorem Paired.append {es fs : List ClientEvent} (hes : Paired es) (hfs : Paired fs)
    (hhead : ∀ ev ∈ fs.head?, outcome? ev = none) : Paired (es ++ fs) := by
  intro before hostname ip after hsplit
  cases List.append_eq_append_iff.mp hsplit with
  | inl h =>
      obtain ⟨front, rfl, hafter⟩ := h
      exact hfs front hostname ip after hafter
  | inr h =>
      obtain ⟨back, hes', hafter⟩ := h
      cases back with
      | nil =>
          rw [List.nil_append] at hafter
          exact hfs [] hostname ip after hafter.symm
      | cons ev back =>
          rw [List.cons_append, List.cons.injEq] at hafter
          obtain ⟨rfl, rfl⟩ := hafter
          obtain ⟨outcome, rest, rfl, houtcome, hrest⟩ := hes before hostname ip back hes'
          refine ⟨outcome, rest ++ fs, rfl, houtcome, ?_⟩
          cases rest with
          | nil => exact hhead
          | cons ev' rest => exact hrest

/-- What the events of one step tell. -/
structure Tells {σ : Type*} (c c' : Client σ) (written : List (IpUpdate × Except Text Unit))
    (new : List ClientEvent) : Prop where
  connected : new.foldl connectedAfter (decide (c.phase = .reading)) = decide (c'.phase = .reading)
  last : (new.filterMap about?).getLast? = (written.map mapping).getLast?
  updated : new.filterMap updated? = (written.filter succeeded).map mapping
  paired : Paired new
  head : ∀ ev ∈ new.head?, outcome? ev = none

section Steps
variable {σ : Type*} {cfg : ClientConfig} {json : SerdeJson}
variable {update : σ → Text → Text → σ × Except Text Unit} {c c' : Client σ}

/-- Events that are about no update. -/
theorem tells_of_lifecycle {new : List ClientEvent} (habout : ∀ ev ∈ new, about? ev = none)
    (hconnected : new.foldl connectedAfter (decide (c.phase = .reading)) =
      decide (c'.phase = .reading)) : Tells c c' [] new := by
  have hnothing : ∀ ev ∈ new, updated? ev = none ∧ outcome? ev = none := by
    intro ev hev
    have := habout ev hev
    cases ev with
    | ipUpdateReceived | hostsFileUpdated | hostsFileError => cases this
    | connecting | connected | connectionLost | connectionFailed | heartbeatReceived
    | parseError => exact ⟨rfl, rfl⟩
  constructor
  · exact hconnected
  · rw [List.filterMap_eq_nil_iff.mpr habout]
    rfl
  · exact List.filterMap_eq_nil_iff.mpr fun ev hev => (hnothing ev hev).1
  · exact paired_of_not_mem fun hostname ip hmem => by cases habout _ hmem
  · exact fun ev hev => (hnothing ev (List.mem_of_mem_head? hev)).2

/-- An update that was received, with its outcome. -/
theorem tells_of_update (hphase : c'.phase = c.phase) (u : IpUpdate) (r : Except Text Unit) :
    Tells c c' [(u, r)] [.ipUpdateReceived u.hostname u.ip,
      match r with
      | .error e => .hostsFileError u.hostname u.ip e
      | .ok _ => .hostsFileUpdated u.hostname u.ip] := by
  constructor
  · rw [hphase]
    cases r with
    | error | ok => rfl
  · cases r with
    | error | ok => rfl
  · cases r with
    | error | ok => rfl
  · apply paired_outcome
    cases r with
    | error | ok => rfl
  · simp [outcome?]

theorem tells_of_line (hphase : c.phase = .reading) (raw : Text) :
    let r := handleLine json update c.hosts raw
    let c' := { c with hosts := r.1, events := c.events ++ r.2 }
    Tells c c' (writes json update c (.line (.ok raw)) c') r.2 := by
  unfold handleLine writes
  dsimp only
  cases json.fromStr raw with
  | error e => exact tells_of_lifecycle (by simp [about?]) (by simp [hphase, connectedAfter])
  | ok msg =>
      cases msg with
      | heartbeat =>
          exact tells_of_lifecycle (by simp [handleMessage, about?])
            (by simp [handleMessage, hphase, connectedAfter])
      | ipUpdate u =>
          apply tells_of_update
          rfl

theorem tells_of_step {a : Action} (h : step cfg json update c a = some c') :
    ∃ new, c'.events = c.events ++ new ∧ Tells c c' (writes json update c a c') new := by
  unfold step at h
  split at h
  · cases h
    exact ⟨_, rfl, tells_of_lifecycle (by simp [about?]) (by simp [connectedAfter])⟩
  · cases h
    exact ⟨_, rfl, tells_of_lifecycle (by simp [about?]) (by simp [connectedAfter])⟩
  · rename_i raw hphase
    cases h
    exact ⟨_, rfl, tells_of_line hphase raw⟩
  · cases h
    exact ⟨_, rfl, tells_of_lifecycle (by simp [about?]) (by simp [connectedAfter])⟩
  · cases h
    exact ⟨_, rfl, tells_of_lifecycle (by simp [about?]) (by simp [connectedAfter])⟩
  · cases h
    exact ⟨_, rfl, tells_of_lifecycle (by simp [about?]) (by simp [connectedAfter])⟩
  · cases h

/-- What the events so far tell of the loop and of the updates written so far. -/
structure Truthful (c : Client σ) (written : List (IpUpdate × Except Text Unit)) : Prop where
  connected : c.events.foldl connectedAfter false = decide (c.phase = .reading)
  last : (c.events.filterMap about?).getLast? = (written.map mapping).getLast?
  updated : c.events.filterMap updated? = (written.filter succeeded).map mapping
  paired : Paired c.events

theorem truthful_start (hosts : σ) : Truthful (start cfg hosts) [] := by
  constructor
  · rfl
  · rfl
  · rfl
  · exact paired_of_not_mem (by simp [start])

theorem truthful_step (c : Client σ) (a : Action) (c' : Client σ)
    (written : List (IpUpdate × Except Text Unit)) (h : Truthful c written)
    (hstep : step cfg json update c a = some c') :
    Truthful c' (written ++ writes json update c a c') := by
  obtain ⟨new, hevents, hnew⟩ := tells_of_step hstep
  constructor
  · rw [hevents, List.foldl_append, h.connected]
    exact hnew.connected
  · rw [hevents, List.filterMap_append, List.getLast?_append, h.last, hnew.last,
      List.map_append, List.getLast?_append]
  · rw [hevents, List.filterMap_append, h.updated, hnew.updated, List.filter_append,
      List.map_append]
  · rw [hevents]
    exact h.paired.append hnew.paired hnew.head

/-- Wherever the loop waits, the panel that has applied all events shows a connection
exactly while lines are read, the newest of the updates that were written and the last
one that was parsed; and each update received is followed by its one outcome. -/
theorem panel_truthful (cfg : ClientConfig) (json : SerdeJson)
    (update : σ → Text → Text → σ × Except Text Unit) (hosts : σ) (actions : List Action)
    (c : Client σ) (h : run (step cfg json update) (start cfg hosts) actions = some c)
    (serverAddr hostsFile : Text) (stamped : List (Text × ClientEvent))
    (hstamped : stamped.map Prod.snd = c.events) :
    let panel := (ClientState.new serverAddr hostsFile).applyAll stamped
    let written := observe (step cfg json update) (writes json update) (start cfg hosts) actions
    (panel.connected = true ↔ c.phase = .reading) ∧
      panel.updateHistory.map Prod.snd = capped ((written.filter succeeded).map mapping) ∧
      panel.lastUpdate = (written.map mapping).getLast? ∧ Paired c.events := by
  have htruthful : Truthful c (observe (step cfg json update) (writes json update)
      (start cfg hosts) actions) := invariant_observe (b := []) truthful_step (truthful_start hosts) h
  refine ⟨?_, ?_, ?_, htruthful.paired⟩
  · rw [connected_applyAll, hstamped]
    exact (congrArg (· = true) htruthful.connected).to_iff.trans decide_eq_true_iff
  · rw [updateHistory_applyAll, hstamped, htruthful.updated]
  · rw [lastUpdate_applyAll, hstamped, htruthful.last]
    exact Option.or_none

end Steps

def nasClient : ClientConfig := ⟨"nas".toList, 5353⟩

/-- Every second write is denied. -/
def deniedSometimes (n : ℕ) (_ _ : Text) : ℕ × Except Text Unit :=
  (n + 1, if n % 2 = 0 then .ok () else .error "denied".toList)

def received (ip : String) : Action :=
  .line (.ok (MessageText.printMessage (.ipUpdate ⟨"nas".toList, ip.toList⟩)))

/-- A first attempt refused, an update written, garbage, an update denied, then a read
error. -/
def rockyStart : List Action :=
  [.refused "timeout".toList, .retry, .connected, received "10.0.0.1", .line (.ok "garbage".toList),
    received "10.0.0.2", .line (.error .io), .retry, .connected]

theorem rockyStart_truthful : ∃ c,
    run (step nasClient MessageText.compactJson deniedSometimes) (start nasClient 0) rockyStart =
        some c ∧
      let panel := (ClientState.new [] []).applyAll (c.events.map fun ev => ([], ev))
      panel.connected = true ∧
        panel.updateHistory.map Prod.snd = [("nas".toList, "10.0.0.1".toList)] ∧
        panel.lastUpdate = some ("nas".toList, "10.0.0.2".toList) ∧ Paired c.events := by
  have hrun : ∃ c, run (step nasClient MessageText.compactJson deniedSometimes)
      (start nasClient 0) rockyStart = some c ∧ c.phase = .reading := by decide +kernel
  obtain ⟨c, hc, hphase⟩ := hrun
  have htruthful := panel_truthful nasClient MessageText.compactJson deniedSometimes 0
    rockyStart c hc [] [] (c.events.map fun ev => ([], ev)) (by simp [Function.comp_def])
  refine ⟨c, hc, htruthful.1.mpr hphase, htruthful.2.1.trans ?_, htruthful.2.2.1.trans ?_,
    htruthful.2.2.2⟩
  · decide +kernel
  · decide +kernel

end DnslessHomelab.ClientLoop
