import Mathlib.Data.List.Destutter
import DnslessHomelab.IpDetector
import DnslessHomelab.ServerLoop
import DnslessHomelab.WireFraming

/-!
# What the server announces

The addresses found by the polls, failures left out and adjacent repetitions
collapsed, are the ones announced: one update and one `IpChanged` each, the first one
marked as initial. Every poll emits exactly one event, also when nothing changed or
nothing was found. Steps of the accept thread and broadcasts in between change nothing
of this.
-/
namespace DnslessHomelab.ChangeDetection
open Protocol Runs ServerLoop IpDetector MessageText
open Broadcast (Threads)

section Destutter
variable {A : Type*} [DecidableEq A]

/-- One more entry is kept when it differs from the last one. -/
theorem destutter'_concat (a : A) (l : List A) (x : A) :
    (l ++ [x]).destutter' (· ≠ ·) a =
      l.destutter' (· ≠ ·) a ++ if (a :: l).getLast? = some x then [] else [x] := by
  induction l generalizing a with
  | nil =>
      by_cases h : a = x
      · simp [h]
      · simp [h]
  | cons b l ih =>
      rw [List.cons_append, List.getLast?_cons_cons]
      by_cases h : a = b
      · subst h
        rw [List.destutter'_cons_neg _ (by simp), List.destutter'_cons_neg _ (by simp), ih]
      · rw [List.destutter'_cons_pos _ h, List.destutter'_cons_pos _ h, ih, List.cons_append]

theorem destutter_concat (l : List A) (x : A) :
    (l ++ [x]).destutter (· ≠ ·) =
      l.destutter (· ≠ ·) ++ if l.getLast? = some x then [] else [x] := by
  cases l with
  | nil => simp
  | cons a l =>
      rw [List.cons_append, List.destutter_cons', List.destutter_cons']
      exact destutter'_concat a l x

/-- Collapsing repetitions keeps the last entry. -/
theorem getLast?_destutter (l : List A) : (l.destutter (· ≠ ·)).getLast? = l.getLast? := by
  induction l using List.reverseRecOn with
  | nil => rfl
  | append_singleton l x ih =>
      rw [destutter_concat]
      split_ifs with h
      · rw [List.append_nil, ih, h, List.getLast?_concat]
      · rw [List.getLast?_concat, List.getLast?_concat]

end Destutter

/-- Results of polls, and the addresses announced after them. -/
def announcedBy (polls : List (Except Text Ipv4Addr)) : List Ipv4Addr :=
  (polls.filterMap Except.toOption).destutter (· ≠ ·)

theorem announcedBy_error (polls : List (Except Text Ipv4Addr)) (e : Text) :
    announcedBy (polls ++ [.error e]) = announcedBy polls := by
  have hnone : [(.error e : Except Text Ipv4Addr)].filterMap Except.toOption = [] := rfl
  rw [announcedBy, List.filterMap_append, hnone, List.append_nil, announcedBy]

theorem announcedBy_ok (polls : List (Except Text Ipv4Addr)) (ip : Ipv4Addr) :
    announcedBy (polls ++ [.ok ip]) =
      announcedBy polls ++ if (announcedBy polls).getLast? = some ip then [] else [ip] := by
  have hsome : [(.ok ip : Except Text Ipv4Addr)].filterMap Except.toOption = [ip] := rfl
  rw [announcedBy, List.filterMap_append, hsome, destutter_concat, announcedBy, getLast?_destutter]

/-- The one event of a poll, after the addresses announced so far. -/
def report (cfg : ServerConfig) (announced : List Ipv4Addr) :
    Except Text Ipv4Addr → ServerEvent
  | .error e => .error ("Could not detect IP for interface '".toList ++ cfg.interface ++
      "': ".toList ++ e)
  | .ok ip =>
      if announced.getLast? = some ip then .pollUnchanged ip.toString
      else .ipChanged cfg.hostname ip.toString announced.isEmpty

/-- The updates that were broadcast, and the one that is due. -/
def updates (s : Server) : List IpUpdate :=
  s.history.filterMap (fun e => match e.1 with
    | .ipUpdate u => some u
    | .heartbeat => none) ++
  match s.main with
  | .broadcasting (.ipUpdate u) => [u]
  | _ => []

/-- The changes of address among the events. -/
def changes (events : List ServerEvent) : List (Text × Text × Bool) :=
  events.filterMap fun ev => match ev with
    | .ipChanged hostname ip isInitial => some (hostname, ip, isInitial)
    | _ => none

@[simp] theorem changes_append (es fs : List ServerEvent) :
    changes (es ++ fs) = changes es ++ changes fs :=
  List.filterMap_append ..

/-- The result of a poll and the events it emitted. -/
def pollOutcome (s : Server) (a : Action) (s' : Server) :
    List (Except Text Ipv4Addr × List ServerEvent) :=
  match a with
  | .poll detected => [(detected, s'.threads.events.drop s.threads.events.length)]
  | .accept _ | .lock | .visit | .unlock | .heartbeatSent => []

def marked (cfg : ServerConfig) (announced : List Ipv4Addr) : List (Text × Text × Bool) :=
  announced.mapIdx fun i ip => (cfg.hostname, ip.toString, decide (i = 0))

/-- State and events are those of the polls so far. -/
structure Tracks (cfg : ServerConfig) (s : Server)
    (polls : List (Except Text Ipv4Addr × List ServerEvent)) : Prop where
  lastIp : s.lastIp = (announcedBy (polls.map Prod.fst)).getLast?.map Ipv4Addr.toString
  updates : updates s =
    (announcedBy (polls.map Prod.fst)).map fun ip => ⟨cfg.hostname, ip.toString⟩
  changes : changes s.threads.events = marked cfg (announcedBy (polls.map Prod.fst))
  reports : polls.map Prod.snd = (polls.map Prod.fst).mapIdx fun i detected =>
    [report cfg (announcedBy ((polls.map Prod.fst).take i)) detected]

theorem tracks_start (cfg : ServerConfig) : Tracks cfg (start cfg) [] := by
  constructor <;> rfl

section Step
variable {cfg : ServerConfig} {json : SerdeJson} {accepts : ℕ → ℕ → ℕ} {s s' : Server}
variable {polls : List (Except Text Ipv4Addr × List ServerEvent)}

/-- A step without a poll. -/
theorem Tracks.quiet (h : Tracks cfg s polls) (hlast : s'.lastIp = s.lastIp)
    (hupdates : ChangeDetection.updates s' = ChangeDetection.updates s)
    (hchanges : ChangeDetection.changes s'.threads.events =
      ChangeDetection.changes s.threads.events) : Tracks cfg s' polls := by
  constructor
  · rw [hlast]
    exact h.lastIp
  · rw [hupdates]
    exact h.updates
  · rw [hchanges]
    exact h.changes
  · exact h.reports

/-- One more poll, with the one event it emits. -/
theorem reports_concat (h : Tracks cfg s polls) (detected : Except Text Ipv4Addr)
    {events : List ServerEvent}
    (hevents : events = [report cfg (announcedBy (polls.map Prod.fst)) detected]) :
    (polls ++ [(detected, events)]).map Prod.snd =
      ((polls ++ [(detected, events)]).map Prod.fst).mapIdx fun i d =>
        [report cfg (announcedBy (((polls ++ [(detected, events)]).map Prod.fst).take i)) d] := by
  rw [List.map_append, List.map_append, List.map_cons, List.map_nil, List.map_cons, List.map_nil,
    List.mapIdx_concat, List.take_left, h.reports, hevents]
  congr 1
  rw [List.mapIdx_eq_mapIdx_iff]
  intro i hi
  rw [List.take_append_of_le_length (Nat.le_of_lt hi)]

/-- A change of address is only reported as such. -/
theorem changes_of_threads {t t' : Threads} {b : Broadcast.Action}
    (hb : ∀ ev, b ≠ .report ev) (h : Broadcast.step json accepts t b = some t') :
    changes t'.events = changes t.events := by
  obtain ⟨new, hevents, hnew⟩ := Broadcast.events_of_step h
  have hnone : changes new = [] := by
    apply List.filterMap_eq_nil_iff.mpr
    intro ev hev
    cases ev with
    | ipChanged =>
        rcases hnew _ hev with habout | hother | hreport
        · cases habout
        · obtain ⟨error, herror⟩ := hother
          cases herror
        · exact absurd hreport (hb _)
    | clientConnected | clientDisconnected | listening | heartbeatSent | pollUnchanged
    | error => rfl
  rw [hevents, changes_append, hnone, List.append_nil]

theorem emitted_poll (s : Server) (ev : ServerEvent) :
    (s.emit ev).threads.events.drop s.threads.events.length = [ev] :=
  List.drop_left

theorem marked_concat (announced : List Ipv4Addr) (ip : Ipv4Addr) :
    marked cfg (announced ++ [ip]) =
      marked cfg announced ++ [(cfg.hostname, ip.toString, announced.isEmpty)] := by
  rw [marked, marked, List.mapIdx_concat]
  cases announced with
  | nil => rfl
  | cons a announced => simp

theorem updates_polling (hmain : s.main = .polling) :
    updates s = s.history.filterMap (fun e => match e.1 with
      | .ipUpdate u => some u
      | .heartbeat => none) := by
  unfold updates
  rw [hmain]
  exact List.append_nil _

/-- The last announced address is the one the server holds. -/
theorem Tracks.lastIp_eq_iff (h : Tracks cfg s polls) (ip : Ipv4Addr) :
    s.lastIp = some ip.toString ↔
      (announcedBy (polls.map Prod.fst)).getLast? = some ip := by
  rw [h.lastIp]
  cases (announcedBy (polls.map Prod.fst)).getLast? with
  | none => simp
  | some last => simp [Ipv4Addr.toString_injective.eq_iff]

theorem Tracks.lastIp_isNone (h : Tracks cfg s polls) :
    s.lastIp.isNone = (announcedBy (polls.map Prod.fst)).isEmpty := by
  rw [h.lastIp, Option.isNone_map]
  cases announcedBy (polls.map Prod.fst) with
  | nil => rfl
  | cons a announced => simp

/-- A poll that finds another address announces it. -/
theorem Tracks.changed (h : Tracks cfg s polls) {ip : Ipv4Addr} (hmain : s.main = .polling)
    (hip : s.lastIp ≠ some ip.toString)
    (hlast : s'.lastIp = some ip.toString)
    (hmain' : s'.main = .broadcasting (.ipUpdate ⟨cfg.hostname, ip.toString⟩))
    (hhistory : s'.history = s.history)
    (hthreads : s'.threads = (s.emit (.ipChanged cfg.hostname ip.toString s.lastIp.isNone)).threads) :
    Tracks cfg s' (polls ++ pollOutcome s (.poll (.ok ip)) s') := by
  have hne := (h.lastIp_eq_iff ip).not.mp hip
  have hfst : ((polls ++ pollOutcome s (.poll (.ok ip)) s').map Prod.fst) =
      polls.map Prod.fst ++ [.ok ip] := by simp [pollOutcome]
  have hannounced := announcedBy_ok (polls.map Prod.fst) ip
  rw [if_neg hne] at hannounced
  constructor
  · rw [hfst, hannounced, List.getLast?_concat, hlast]
    rfl
  · rw [hfst, hannounced, List.map_append, ← h.updates, updates_polling hmain]
    unfold ChangeDetection.updates
    rw [hmain', hhistory]
    rfl
  · rw [hfst, hannounced, marked_concat, ← h.changes, ← h.lastIp_isNone, hthreads]
    exact changes_append s.threads.events [_]
  · apply reports_concat h
    rw [hthreads, emitted_poll, report, if_neg hne, h.lastIp_isNone]

/-- A poll that finds the same address, or none, announces nothing. -/
theorem Tracks.unannounced (h : Tracks cfg s polls) {detected : Except Text Ipv4Addr}
    (hmain : s.main = .polling)
    (hannounced : announcedBy (polls.map Prod.fst ++ [detected]) =
      announcedBy (polls.map Prod.fst))
    (hlast : s'.lastIp = s.lastIp) (hmain' : s'.main = .broadcasting .heartbeat)
    (hhistory : s'.history = s.history)
    (hthreads : s'.threads =
      (s.emit (report cfg (announcedBy (polls.map Prod.fst)) detected)).threads)
    (hquiet : ChangeDetection.changes [report cfg (announcedBy (polls.map Prod.fst)) detected] =
      []) :
    Tracks cfg s' (polls ++ pollOutcome s (.poll detected) s') := by
  have hfst : ((polls ++ pollOutcome s (.poll detected) s').map Prod.fst) =
      polls.map Prod.fst ++ [detected] := by simp [pollOutcome]
  constructor
  · rw [hfst, hannounced, hlast]
    exact h.lastIp
  · rw [hfst, hannounced, ← h.updates, updates_polling hmain]
    unfold ChangeDetection.updates
    rw [hmain', hhistory]
    exact List.append_nil _
  · rw [hfst, hannounced, ← h.changes, hthreads]
    refine (changes_append s.threads.events [_]).trans ?_
    rw [hquiet, List.append_nil]
  · apply reports_concat h
    rw [hthreads, emitted_poll]

theorem tracks_step (hjson : Documented json) (s : Server) (a : Action) (s' : Server)
    (polls : List (Except Text Ipv4Addr × List ServerEvent)) (h : Tracks cfg s polls)
    (hstep : step cfg json accepts s a = some s') :
    Tracks cfg s' (polls ++ pollOutcome s a s') := by
  cases effect_of_step hstep with
  | accepts b threads hb hthreads =>
      rw [pollOutcome, List.append_nil]
      exact h.quiet rfl rfl (changes_of_threads (not_report_of_acceptThread hb) hthreads)
  | changed ip hmain hip => exact h.changed hmain hip rfl rfl rfl rfl
  | unchanged ip hmain hip =>
      have hlast := (h.lastIp_eq_iff ip).mp hip
      have hreport : report cfg (announcedBy (polls.map Prod.fst)) (.ok ip) =
          .pollUnchanged ip.toString := by
        rw [report, if_pos hlast]
      refine h.unannounced hmain ?_ rfl rfl rfl ?_ ?_
      · rw [announcedBy_ok, if_pos hlast, List.append_nil]
      · rw [hreport]
      · rw [hreport]
        rfl
  | undetected e hmain =>
      exact h.unannounced hmain (announcedBy_error _ e) rfl rfl rfl rfl rfl
  | unserialized msg _ hline =>
      rw [WireFraming.broadcastLine_eq_jsonBytes hjson] at hline
      cases hline
  | locks msg line threads hmain _ hthreads _ =>
      rw [pollOutcome, List.append_nil]
      apply h.quiet
      · rfl
      · unfold ChangeDetection.updates
        rw [hmain]
        cases msg with
        | ipUpdate u => simp
        | heartbeat => simp
      · exact changes_of_threads (by simp) hthreads
  | visits msg threads _ hthreads _ =>
      rw [pollOutcome, List.append_nil]
      exact h.quiet rfl rfl (changes_of_threads (by simp) hthreads)
  | unlocks msg threads hmain hthreads _ =>
      rw [pollOutcome, List.append_nil]
      apply h.quiet
      · rfl
      · unfold ChangeDetection.updates
        rw [hmain]
        cases msg with
        | ipUpdate u => simp [afterBroadcast]
        | heartbeat => simp [afterBroadcast]
      · exact changes_of_threads (by simp) hthreads
  | heartbeatSent hmain =>
      rw [pollOutcome, List.append_nil]
      apply h.quiet
      · rfl
      · unfold ChangeDetection.updates
        rw [hmain]
        rfl
      · exact (changes_append s.threads.events [_]).trans (List.append_nil _)

end Step

/-- The addresses announced after a history of enumerations. -/
def announced (interface : Text) (enumerations : List (Except Text (List Interface))) :
    List Ipv4Addr :=
  (enumerations.filterMap (detected interface)).destutter (· ≠ ·)

theorem announcedBy_detectIp (interface : Text)
    (enumerations : List (Except Text (List Interface))) :
    announcedBy (enumerations.map (detectIp interface)) = announced interface enumerations := by
  have hdetected : Except.toOption ∘ detectIp interface = detected interface :=
    funext fun ifaces => toOption_detectIp interface ifaces
  rw [announcedBy, List.filterMap_map, hdetected, announced]

/-- In every run, whatever the polls enumerate: the updates broadcast or due are the
announced addresses in order, what was sent to the connections are the lines of the
broadcasts, one `IpChanged` accompanies each announced address, the first one marked as
initial, and every poll emits exactly its one report. -/
theorem polls_reported (cfg : ServerConfig) (json : SerdeJson) (hjson : Documented json)
    (accepts : ℕ → ℕ → ℕ) (actions : List Action) (s : Server)
    (h : run (step cfg json accepts) (start cfg) actions = some s)
    (enumerations : List (Except Text (List Interface)))
    (hpolls : (observe (step cfg json accepts) pollOutcome (start cfg) actions).map Prod.fst =
      enumerations.map (detectIp cfg.interface)) :
    updates s = (announced cfg.interface enumerations).map
        (fun ip => ⟨cfg.hostname, ip.toString⟩) ∧
      s.threads.sent.map some = s.history.map (fun e => Broadcast.broadcastLine json e.1) ∧
      changes s.threads.events = (announced cfg.interface enumerations).mapIdx
        (fun i ip => (cfg.hostname, ip.toString, decide (i = 0))) ∧
      (observe (step cfg json accepts) pollOutcome (start cfg) actions).map Prod.snd =
        enumerations.mapIdx fun i ifaces =>
          [report cfg (announced cfg.interface (enumerations.take i))
            (detectIp cfg.interface ifaces)] := by
  have htracks := invariant_observe (tracks_step hjson) (tracks_start cfg) h
  rw [List.nil_append] at htracks
  have hannounced := announcedBy_detectIp cfg.interface enumerations
  rw [← hpolls] at hannounced
  refine ⟨?_, ?_, ?_, ?_⟩
  · rw [htracks.updates, hannounced]
  · have hlines : ∀ msg, Broadcast.broadcastLine json msg ≠ none := by
      intro msg
      rw [WireFraming.broadcastLine_eq_jsonBytes hjson]
      exact Option.some_ne_none _
    have hrecorded : Recorded cfg json s :=
      invariant_run (fun s a s' => recorded_step hlines) (recorded_start cfg json) h
    exact hrecorded.lines
  · rw [htracks.changes, hannounced]
    rfl
  · rw [htracks.reports, hpolls, List.mapIdx_eq_iff]
    intro i
    rw [List.getElem?_mapIdx, List.getElem?_map, ← List.map_take, announcedBy_detectIp]
    cases enumerations[i]? with
    | none => rfl
    | some ifaces => rfl

def eth0 (ip : Ipv4Addr) : Interface := ⟨"eth0".toList, .v4 ip, false⟩

/-- The address is there behind a loopback and an IPv6 entry, goes away, comes back and
changes, with a client in between. -/
def flapping : List (Except Text (List Interface)) :=
  [.error "denied".toList,
    .ok [⟨"lo".toList, .v4 ⟨127, 0, 0, 1⟩, true⟩, ⟨"eth0".toList, .v6 1, false⟩,
      eth0 ⟨10, 0, 0, 1⟩],
    .ok [⟨"wlan0".toList, .v4 ⟨10, 0, 0, 9⟩, false⟩],
    .ok [eth0 ⟨10, 0, 0, 1⟩, eth0 ⟨10, 0, 0, 3⟩],
    .ok [eth0 ⟨10, 0, 0, 2⟩]]

def flappingRun : List Action :=
  let heartbeat : List Action := [.lock, .unlock, .heartbeatSent]
  let steps : List (List Action) := [heartbeat, [.lock, .unlock] ++ heartbeat,
    .accept (.push ⟨⟨10, 0, 0, 7⟩, 4000⟩) :: .lock :: .visit :: [.unlock, .heartbeatSent],
    .accept .announce :: .lock :: .visit :: [.unlock, .heartbeatSent],
    [.lock, .visit, .unlock, .lock, .unlock, .heartbeatSent]]
  (flapping.zip steps).flatMap fun round =>
    .poll (detectIp nas.interface round.1) :: round.2

theorem flapping_reported : ∃ s,
    run (step nas compactJson fun _ i => if i = 5 then 0 else 1000)
        (start nas) flappingRun = some s ∧
      updates s = [⟨"nas".toList, "10.0.0.1".toList⟩, ⟨"nas".toList, "10.0.0.2".toList⟩] ∧
      changes s.threads.events =
        [("nas".toList, "10.0.0.1".toList, true), ("nas".toList, "10.0.0.2".toList, false)] := by
  have hrun : ∃ s, run (step nas compactJson fun _ i => if i = 5 then 0 else 1000)
      (start nas) flappingRun = some s ∧
        (observe (step nas compactJson fun _ i => if i = 5 then 0 else 1000)
          pollOutcome (start nas) flappingRun).map Prod.fst =
            flapping.map (detectIp nas.interface) := by decide +kernel
  obtain ⟨s, hs, hpolls⟩ := hrun
  have hannounced : announced nas.interface flapping =
      [⟨10, 0, 0, 1⟩, ⟨10, 0, 0, 2⟩] := by decide +kernel
  have hreported := polls_reported nas compactJson documented_compactJson
    (fun _ i => if i = 5 then 0 else 1000) flappingRun s hs flapping hpolls
  rw [hannounced] at hreported
  exact ⟨s, hs, hreported.1.trans (by decide +kernel), hreported.2.2.1.trans (by decide +kernel)⟩

end DnslessHomelab.ChangeDetection
