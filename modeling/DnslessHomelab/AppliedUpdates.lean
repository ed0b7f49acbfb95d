import DnslessHomelab.ChangeDetection
import DnslessHomelab.HostsAgreement

/-!
# What reaches the hosts files

When every update of it succeeds, a client's hosts file is its first content with a
subsequence of the announced addresses applied to it, each at most once and in the order
of the announcements. What it misses was broadcast while it had no connection, or its
line did not arrive before the connection was lost. A line that lost only its newline
still counts.
-/
namespace DnslessHomelab.AppliedUpdates
open Protocol LineText Runs ReplaceOrAppend ClientStream MessageText WireFraming
open Broadcast BroadcastDelivery ServerLoop ChangeDetection HostsAgreement
open Utf8 (newline)

/-- The updates among the messages. -/
def updatesIn (msgs : List Message) : List IpUpdate :=
  msgs.filterMap fun msg => match msg with
    | .ipUpdate u => some u
    | .heartbeat => none

theorem updatesIn_append (ms ns : List Message) :
    updatesIn (ms ++ ns) = updatesIn ms ++ updatesIn ns :=
  List.filterMap_append ..

/-- A hosts file after the messages of a connection is the file after their updates. -/
theorem hostsAfter_eq (hosts : Text) (msgs : List Message) :
    hostsAfter hosts msgs = applyUpdates hosts (updatesIn msgs) := by
  induction msgs generalizing hosts with
  | nil => rfl
  | cons msg msgs ih =>
      cases msg with
      | heartbeat => exact ih hosts
      | ipUpdate u => exact ih (applyUpdate hosts u)

theorem hostsAfter_append (hosts : Text) (ms ns : List Message) :
    hostsAfter hosts (ms ++ ns) = hostsAfter (hostsAfter hosts ms) ns :=
  List.foldl_append ..

section Tail
variable {σ : Type*} {json : SerdeJson}

/-- What follows the last whole line of a lost connection counts as one message, when
only its newline is missing, or not at all. -/
theorem handleStream_lastItem (hjson : Documented json)
    (update : σ → Text → Text → σ × Except Text Unit) (addr : Text) {msg : Message} {q : Bytes}
    (hq : q <+: jsonBytes json msg) (fin : ReadEnd) (s : σ) :
    (handleStream json update addr s (lastItem q fin)).1 = s ∨
      (handleStream json update addr s (lastItem q fin)).1 = (handleMessage update s msg).1 := by
  cases fin with
  | readError => exact .inl rfl
  | endOfStream =>
      by_cases hwhole : q = jsonBytes json msg
      · right
        obtain ⟨text, htext, -, hbytes, -⟩ := broadcastLine_eq hjson msg
        rw [hwhole, lastItem, if_neg (jsonBytes_ne_nil hjson msg), hbytes, decodeLine,
          Utf8.decode_encode]
        simp [handleStream, handleLine, hjson.readsBack msg text htext]
      · left
        have htorn := (yields_torn hjson update addr hq hwhole s).2
        rw [readLines_torn hjson msg hq] at htorn
        rw [lastItem] at htorn ⊢
        split_ifs at htorn ⊢ with hnil
        · rfl
        · cases hitem : decodeLine q with
          | error e => rfl
          | ok raw =>
              rw [hitem] at htorn
              cases hread : json.fromStr raw with
              | error e => simp [handleStream, handleLine, hread]
              | ok m =>
                  have hyields := yields_handleMessage update s m
                  have hmem := htorn (.message m) (by
                    simp [handleStream, handleLine, hread, hyields])
                  simp at hmem

end Tail

/-- A client's hosts file holds the updates of some of the broadcasts, and on a
connection those of every broadcast read. -/
def Applied (s : Server) (file : Text) (c : Client) : Prop :=
  ∃ msgs, match c.stream with
    | none => msgs.Sublist (s.history.map Prod.fst) ∧ c.hosts = hostsAfter file msgs
    | some st => msgs.Sublist ((s.history.take (s.threads.joined st.id)).map Prod.fst) ∧
        st.before = hostsAfter file msgs

section Step
variable {cfg : ServerConfig} {json : SerdeJson} {accepts : ℕ → ℕ → ℕ} {s s' : Server}
variable {file : Text} {c : Client}

theorem Applied.extend (h : Applied s file c) (he : Extends s s')
    (hknown : ∀ st, c.stream = some st → st.id < s.threads.nextId) : Applied s' file c := by
  obtain ⟨msgs, h⟩ := h
  refine ⟨msgs, ?_⟩
  cases hst : c.stream with
  | none =>
      rw [hst] at h
      exact ⟨h.1.trans (he.history.sublist.map _), h.2⟩
  | some st =>
      rw [hst] at h
      simp only
      rw [he.joined st.id (hknown st hst)]
      exact ⟨h.1.trans ((he.history.take _).sublist.map _), h.2⟩

/-- A connection that ends leaves what was read on it. -/
theorem Applied.closed {st : Stream} (h : Applied s file c) (hst : c.stream = some st)
    (hfollowing : Following json s c st) (tail : List Message)
    (htail : tail <+: ((s.history.drop (s.threads.joined st.id)).drop st.processed).map Prod.fst) :
    Applied s file ⟨hostsAfter c.hosts tail, none⟩ := by
  obtain ⟨msgs, h⟩ := h
  rw [hst] at h
  obtain ⟨hearlier, hbefore⟩ := h
  refine ⟨msgs ++ (readMessages s st ++ tail), ?_, ?_⟩
  · have hhistory : s.history.map Prod.fst =
        (s.history.take (s.threads.joined st.id)).map Prod.fst ++ (readMessages s st ++
          ((s.history.drop (s.threads.joined st.id)).drop st.processed).map Prod.fst) := by
      rw [readMessages, readBroadcasts, ← List.map_append, List.take_append_drop,
        ← List.map_append, List.take_append_drop]
    rw [hhistory]
    exact hearlier.append ((List.Sublist.refl _).append htail.sublist)
  · rw [hostsAfter_append, hostsAfter_append, ← hbefore, ← hfollowing.hosts]

/-- A new connection keeps what the broadcasts before its push made of the file. -/
theorem Applied.connect (hjson : Documented json) (hrecorded : Recorded cfg json s)
    {peer : SocketAddr} (h : Applied s file c) (hidle : c.stream = none)
    (hstep : ServerLoop.step cfg json accepts s (.accept (.push peer)) = some s') :
    Applied s' file { c with stream := some ⟨s.threads.nextId, 0, 0, c.hosts⟩ } := by
  obtain ⟨clients, rfl⟩ := push_of_step hstep
  obtain ⟨msgs, h⟩ := h
  rw [hidle] at h
  refine ⟨msgs, ?_, h.2⟩
  rw [joined_push hjson hrecorded, List.take_length]
  exact h.1

theorem Applied.readLine {st : Stream} {c' : Client} {arrived : Bytes} (h : Applied s file c)
    (hst : c.stream = some st) (hfollowing : Following json s c st)
    (hread : HostsAgreement.readLine json c st arrived = some c') : Applied s file c' := by
  cases hst' : c'.stream with
  | some st' =>
      obtain ⟨hid, hbefore⟩ := stream_of_readLine hread hst'
      obtain ⟨msgs, h⟩ := h
      rw [hst] at h
      refine ⟨msgs, ?_⟩
      rw [hst']
      simp only
      rw [hid, hbefore]
      exact h
  | none =>
      have hsame : c' = ⟨hostsAfter c.hosts [], none⟩ := by
        unfold HostsAgreement.readLine at hread
        split at hread
        · cases hread
        · split at hread
          · cases hread
            rfl
          · cases hread
            cases hst'
      rw [hsame]
      exact h.closed hst hfollowing [] (List.nil_prefix ..)

/-- A lost connection adds at most the next broadcast. -/
theorem Applied.lose (hjson : Documented json) (hdelivery : Delivery accepts s.threads)
    (hrecorded : Recorded cfg json s) {st : Stream} (h : Applied s file c)
    (hst : c.stream = some st) (hfollowing : Following json s c st) {rest : Bytes} {more : ℕ}
    (hrest : rest = ((s.threads.written st.id).drop st.consumed).take more)
    (hpart : newline ∉ rest) (fin : ReadEnd) :
    Applied s file
      ⟨(handleStream json updateHosts [] c.hosts (lastItem rest fin)).1, none⟩ := by
  have hunread : rest <+: unlines newline
      ((((s.history.drop (s.threads.joined st.id)).drop st.processed).map Prod.fst).map
        (jsonBytes json)) := by
    rw [hrest]
    exact (List.take_prefix ..).trans (hfollowing.arrived hjson hdelivery hrecorded)
  have hclosed := h.closed hst hfollowing
  generalize ((s.history.drop (s.threads.joined st.id)).drop st.processed).map Prod.fst =
    unread at hunread hclosed
  have hnone := hclosed [] (List.nil_prefix ..)
  cases unread with
  | nil =>
      have hnil : rest = [] := List.prefix_nil.mp hunread
      rw [hnil]
      cases fin with
      | endOfStream => exact hnone
      | readError => exact hnone
  | cons msg unread =>
      have hq : rest <+: jsonBytes json msg := prefix_line hunread hpart
      cases handleStream_lastItem hjson updateHosts [] hq fin c.hosts with
      | inl hsame =>
          rw [hsame]
          exact hnone
      | inr hwhole =>
          rw [hwhole]
          exact hclosed [msg] (List.prefix_append [msg] unread)

end Step

section World
variable {cfg : ServerConfig} {json : SerdeJson} {accepts : ℕ → ℕ → ℕ} {files : ℕ → Text}

/-- `Consistent`, with every hosts file made of broadcast updates. -/
structure AllApplied (cfg : ServerConfig) (json : SerdeJson) (accepts : ℕ → ℕ → ℕ)
    (files : ℕ → Text) (w : World) : Prop extends Consistent cfg json accepts w where
  applied : ∀ k, Applied w.server (files k) (w.clients k)

theorem allApplied_start (cfg : ServerConfig) (json : SerdeJson) (accepts : ℕ → ℕ → ℕ)
    (files : ℕ → Text) : AllApplied cfg json accepts files (HostsAgreement.start cfg files) :=
  ⟨HostsAgreement.consistent_start cfg json accepts files, fun _ => ⟨[], List.Sublist.refl _, rfl⟩⟩

theorem allApplied_step (hjson : Documented json) (w : World) (a : HostsAgreement.Action)
    (w' : World) (h : AllApplied cfg json accepts files w)
    (hstep : HostsAgreement.step cfg json accepts w a = some w') :
    AllApplied cfg json accepts files w' := by
  refine ⟨HostsAgreement.consistent_step hjson w a w' h.toConsistent hstep, ?_⟩
  have hknown : ∀ k st, (w.clients k).stream = some st → st.id < w.server.threads.nextId :=
    fun k st hst => (h.following k st hst).known
  cases HostsAgreement.effect_of_step hstep with
  | moves a server hserver =>
      intro k
      exact (h.applied k).extend (extends_of_step hjson hserver) (hknown k)
  | connects k peer server hidle hserver =>
      apply (Function.forall_update_iff _ fun j c => Applied server (files j) c).mpr
      constructor
      · exact (h.applied k).connect hjson h.recorded hidle hserver
      · intro j _
        exact (h.applied j).extend (extends_of_step hjson hserver) (hknown j)
  | reads k st c hst hread =>
      apply (Function.forall_update_iff _ fun j c => Applied w.server (files j) c).mpr
      exact ⟨(h.applied k).readLine hst (h.following k st hst) hread, fun j _ => h.applied j⟩
  | loses k more fin st rest hst hrest hpart =>
      apply (Function.forall_update_iff _ fun j c => Applied w.server (files j) c).mpr
      exact ⟨(h.applied k).lose hjson h.delivery h.recorded hst (h.following k st hst) hrest
        hpart fin, fun j _ => h.applied j⟩

/-- What the polls of a run found. -/
def polls (actions : List HostsAgreement.Action) : List (Except Text Ipv4Addr) :=
  actions.filterMap fun a => match a with
    | .server (.poll detected) => some detected
    | _ => none

/-- The outcome of the server's poll, if the step is one. -/
def polled (w : World) (a : HostsAgreement.Action) (w' : World) :
    List (Except Text Ipv4Addr × List ServerEvent) :=
  match a with
  | .server a => pollOutcome w.server a w'.server
  | .connect .. | .read _ | .lose .. => []

theorem polled_eq (w : World) (a : HostsAgreement.Action) (w' : World) :
    (polled w a w').map Prod.fst = polls [a] := by
  cases a with
  | server a => cases a <;> rfl
  | connect | read | lose => rfl

theorem map_observe_polled {w w' : World} {actions : List HostsAgreement.Action}
    (h : run (HostsAgreement.step cfg json accepts) w actions = some w') :
    (observe (HostsAgreement.step cfg json accepts) polled w actions).map Prod.fst =
      polls actions := by
  induction actions generalizing w with
  | nil => rfl
  | cons a actions ih =>
      obtain ⟨m, hm, h⟩ := run_cons_iff.mp h
      have hsplit : polls (a :: actions) = polls [a] ++ polls actions :=
        List.filterMap_append (l := [a])
      simp only [observe, hm]
      rw [List.map_append, polled_eq, ih h, hsplit]

theorem tracks_world_step (hjson : Documented json) (w : World) (a : HostsAgreement.Action)
    (w' : World) (found : List (Except Text Ipv4Addr × List ServerEvent))
    (h : Tracks cfg w.server found)
    (hstep : HostsAgreement.step cfg json accepts w a = some w') :
    Tracks cfg w'.server (found ++ polled w a w') := by
  cases HostsAgreement.effect_of_step hstep with
  | moves a server hserver => exact tracks_step hjson w.server a server found h hserver
  | connects k peer server hidle hserver =>
      exact tracks_step hjson w.server (.accept (.push peer)) server found h hserver
  | reads | loses =>
      rw [polled, List.append_nil]
      exact h

end World

/-- The update that announces an address. -/
def updateTo (cfg : ServerConfig) (ip : Ipv4Addr) : IpUpdate := ⟨cfg.hostname, ip.toString⟩

theorem updates_eq (s : Server) : ∃ due, updates s = updatesIn (s.history.map Prod.fst) ++ due := by
  unfold updates updatesIn
  rw [List.filterMap_map]
  exact ⟨_, rfl⟩

/-- The messages behind a hosts file, among all that was broadcast. -/
theorem Applied.split {s : Server} {file : Text} {c : Client} {json : SerdeJson}
    (h : Applied s file c)
    (hfollowing : ∀ st, c.stream = some st → Following json s c st) :
    ∃ before msgs current after : List Message,
      s.history.map Prod.fst = before ++ current ++ after ∧
      msgs.Sublist before ∧ c.hosts = hostsAfter file (msgs ++ current) ∧
      ∀ st, c.stream = some st → current = readMessages s st ∧
        before = (s.history.take (s.threads.joined st.id)).map Prod.fst := by
  obtain ⟨msgs, h⟩ := h
  cases hst : c.stream with
  | none =>
      rw [hst] at h
      refine ⟨s.history.map Prod.fst, msgs, [], [], by simp, h.1, ?_, ?_⟩
      · rw [List.append_nil]
        exact h.2
      · intro st hsome
        cases hsome
  | some st =>
      rw [hst] at h
      refine ⟨(s.history.take (s.threads.joined st.id)).map Prod.fst, msgs, readMessages s st,
        ((s.history.drop (s.threads.joined st.id)).drop st.processed).map Prod.fst, ?_, h.1, ?_, ?_⟩
      · rw [readMessages, readBroadcasts, ← List.map_append, ← List.map_append, List.append_assoc,
          List.take_append_drop, List.take_append_drop]
      · rw [(hfollowing st hst).hosts, h.2, hostsAfter_append]
      · rintro _ ⟨⟩
        exact ⟨rfl, rfl⟩

/-- In every state of every run, every update of a hosts file succeeding, whatever the
polls found and however often and wherever connections were lost: a client's hosts file
is its first content after a subsequence of the announced addresses, each applied once
and in order. On the connection it has, the client has applied every address broadcast
between its push and the last line read. -/
theorem applied_of_run (cfg : ServerConfig) (json : SerdeJson) (hjson : Documented json)
    (accepts : ℕ → ℕ → ℕ) (files : ℕ → Text) (actions : List HostsAgreement.Action) (w : World)
    (h : run (HostsAgreement.step cfg json accepts) (HostsAgreement.start cfg files) actions =
      some w) (k : ℕ) :
    ∃ before applied current after : List Ipv4Addr,
      announcedBy (polls actions) = before ++ current ++ after ∧ applied.Sublist before ∧
      (w.clients k).hosts =
        applyUpdates (files k) ((applied ++ current).map (updateTo cfg)) ∧
      ∀ st, (w.clients k).stream = some st →
        current.map (updateTo cfg) = updatesIn (readMessages w.server st) ∧
        before.map (updateTo cfg) =
          updatesIn ((w.server.history.take (w.server.threads.joined st.id)).map Prod.fst) := by
  have hw : AllApplied cfg json accepts files w :=
    invariant_run (allApplied_step hjson) (allApplied_start cfg json accepts files) h
  have htracks : Tracks cfg w.server _ :=
    invariant_observe (b := []) (tracks_world_step hjson) (tracks_start cfg) h
  have hupdates := htracks.updates
  rw [List.nil_append, map_observe_polled h] at hupdates
  obtain ⟨before, msgs, current, after, hhistory, hsub, hhosts, hstream⟩ :=
    (hw.applied k).split (hw.following k)
  obtain ⟨due, hdue⟩ := updates_eq w.server
  rw [hdue, hhistory, updatesIn_append, updatesIn_append, List.append_assoc] at hupdates
  obtain ⟨ips, ips', hips, hfront, -⟩ := List.map_eq_append_iff.mp hupdates.symm
  obtain ⟨ipsBefore, ipsCurrent, rfl, hbefore, hcurrent⟩ := List.map_eq_append_iff.mp hfront
  have hmsgs : (updatesIn msgs).Sublist (ipsBefore.map (updateTo cfg)) := by
    rw [show ipsBefore.map (updateTo cfg) = updatesIn before from hbefore]
    exact hsub.filterMap _
  obtain ⟨applied, happlied, hmap⟩ := List.sublist_map_iff.mp hmsgs
  refine ⟨ipsBefore, applied, ipsCurrent, ips', hips, happlied, ?_, ?_⟩
  · rw [hhosts, hostsAfter_eq, updatesIn_append, hmap, ← hcurrent, List.map_append]
    rfl
  · intro st hst
    obtain ⟨hread, hpushed⟩ := hstream st hst
    exact ⟨hread ▸ hcurrent, hpushed ▸ hbefore⟩

def address (last : UInt8) : Ipv4Addr := ⟨192, 168, 1, last⟩

/-- The laptop loses its connection inside a heartbeat, misses an address and comes back
for the next one. -/
def awayForAnUpdate : List HostsAgreement.Action :=
  [.connect 0 laptop, .server (.accept .announce), .server (.poll (.ok (address 7))),
    .server .lock, .server .visit, .server .unlock, .read 0,
    .server .lock, .server .visit, .lose 0 5 .endOfStream, .server .unlock,
    .server .heartbeatSent, .server (.poll (.ok (address 8))),
    .server .lock, .server .visit, .server .unlock,
    .server .lock, .server .visit, .server .unlock, .server .heartbeatSent,
    .connect 0 laptop, .server (.accept .announce), .server (.poll (.ok (address 9))),
    .server .lock, .server .visit, .server .visit, .server .unlock, .read 0]

theorem awayForAnUpdate_applied : ∃ w before applied current after,
    run (HostsAgreement.step nas compactJson fun _ _ => 1000)
        (HostsAgreement.start nas fun _ => []) awayForAnUpdate = some w ∧
      [address 7, address 8, address 9] = before ++ current ++ after ∧
      applied.Sublist before ∧
      (w.clients 0).hosts = applyUpdates [] ((applied ++ current).map (updateTo nas)) := by
  have hrun : ∃ w, run (HostsAgreement.step nas compactJson fun _ _ => 1000)
      (HostsAgreement.start nas fun _ => []) awayForAnUpdate = some w := by
    apply Option.isSome_iff_exists.mp
    decide +kernel
  obtain ⟨w, hw⟩ := hrun
  have hannounced : announcedBy (polls awayForAnUpdate) = [address 7, address 8, address 9] := by
    decide +kernel
  obtain ⟨before, applied, current, after, hips, hsub, hhosts, -⟩ :=
    applied_of_run nas compactJson documented_compactJson (fun _ _ => 1000) (fun _ => [])
      awayForAnUpdate w hw 0
  exact ⟨w, before, applied, current, after, hw, hannounced ▸ hips, hsub, hhosts⟩

end DnslessHomelab.AppliedUpdates
