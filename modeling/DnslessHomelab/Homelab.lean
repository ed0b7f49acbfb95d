import DnslessHomelab.Connections
import DnslessHomelab.HostsGrowth
import DnslessHomelab.PendingUpdates

/-!
# The whole system

The server and any number of machines, each with a client process that takes its updates
of the hosts file in system calls. Connections are lost at any octet, any call fails, a
process is killed anywhere and started again on the files it left. What a machine's hosts
file holds at any moment is its first content after a subsequence of the announced
addresses.

A client's connect and the push of its connection are one step, since nothing can arrive
between them. The server does not restart. A machine runs one client process, and no other
program writes to its hosts file, which is not named like a temporary file.
-/
namespace DnslessHomelab.Homelab
open Protocol LineText Runs ReplaceOrAppend ClientStream MessageText WireFraming
open BroadcastDelivery ChangeDetection HostsUpdate HostsConcurrent HostsCrash
open PendingUpdates Connections
open ClientProcess (Process parsed rewritten)
open AppliedUpdates (updateTo)
open ServerLoop (ServerConfig Server Recorded)
open Utf8 (newline)

structure Machine where
  process : Process
  connection : Option Connection

structure World where
  server : Server
  machines : ℕ → Machine

/-- `hangUp` ends a connection after `more` of the octets that have arrived; a client is
`alone` when it has none. -/
inductive Action where
  | server (a : ServerLoop.Action)
  | connect (k : ℕ) (peer : SocketAddr)
  | alone (k : ℕ) (a : ClientLoop.Action)
  | receive (k : ℕ)
  | hangUp (k more : ℕ) (fin : ReadEnd)
  | file (k : ℕ) (op : Op)
  | restart (k : ℕ)

/-- What a client does without a connection. -/
def withoutConnection : ClientLoop.Action → Bool
  | .refused _ | .ended | .retry => true
  | .connected | .line _ => false

section Step
variable (cfg : ServerConfig) (clientCfg : ClientConfig) (json : SerdeJson) (hosts : Component)
variable (errorText : Failure → Text) (accepts : ℕ → ℕ → ℕ)

def start (disks : ℕ → Directory) : World :=
  ⟨ServerLoop.start cfg, fun k => ⟨ClientProcess.start clientCfg (disks k), none⟩⟩

/-- A step of a machine's process, and the connection it has then. -/
def Machine.go (m : Machine) (a : ClientProcess.Action) (connection : Option Connection) :
    Option Machine :=
  (ClientProcess.step clientCfg json hosts errorText m.process a).map fun process =>
    { process, connection }

def World.put (w : World) (k : ℕ) (m : Machine) : World :=
  { w with machines := Function.update w.machines k m }

def step (w : World) : Action → Option World
  | .server a => (ServerLoop.step cfg json accepts w.server a).map fun server => { w with server }
  | .connect k peer =>
      match (w.machines k).connection with
      | some _ => none
      | none =>
          (ServerLoop.step cfg json accepts w.server (.accept (.push peer))).bind fun server =>
            ((w.machines k).go clientCfg json hosts errorText (.loop .connected)
              (some ⟨w.server.threads.nextId, 0, 0⟩)).map fun m => { w with server }.put k m
  | .alone k a =>
      match (w.machines k).connection, withoutConnection a with
      | none, true =>
          ((w.machines k).go clientCfg json hosts errorText (.loop a) none).map (w.put k)
      | _, _ => none
  | .receive k =>
      (w.machines k).connection.bind fun c =>
        match (cut newline (arrived w.server c)).1 with
        | [] => none
        | line :: _ =>
            ((w.machines k).go clientCfg json hosts errorText (.loop (.line (terminatedLine line)))
              (afterLine c line)).map (w.put k)
  | .hangUp k more fin =>
      (w.machines k).connection.bind fun c =>
        let rest := (arrived w.server c).take more
        if newline ∈ rest then none
        else
          ((w.machines k).go clientCfg json hosts errorText (.loop (ending rest fin)) none).map
            (w.put k)
  | .file k op =>
      ((w.machines k).go clientCfg json hosts errorText (.file op)
        (w.machines k).connection).map (w.put k)
  | .restart k =>
      some (w.put k ⟨ClientProcess.start clientCfg (w.machines k).process.files.disk, none⟩)

/-- Everything a step can do. -/
inductive Effect (w : World) : Action → World → Prop
  | server (a : ServerLoop.Action) (s : Server)
      (hs : ServerLoop.step cfg json accepts w.server a = some s) :
      Effect w (.server a) { w with server := s }
  | connect (k : ℕ) (peer : SocketAddr) (s : Server) (m : Machine)
      (hidle : (w.machines k).connection = none)
      (hs : ServerLoop.step cfg json accepts w.server (.accept (.push peer)) = some s)
      (hgo : (w.machines k).go clientCfg json hosts errorText (.loop .connected)
        (some ⟨w.server.threads.nextId, 0, 0⟩) = some m) :
      Effect w (.connect k peer) ({ w with server := s }.put k m)
  | alone (k : ℕ) (a : ClientLoop.Action) (m : Machine)
      (hidle : (w.machines k).connection = none) (halone : withoutConnection a = true)
      (hgo : (w.machines k).go clientCfg json hosts errorText (.loop a) none = some m) :
      Effect w (.alone k a) (w.put k m)
  | receive (k : ℕ) (c : Connection) (line : Bytes) (ls : List Bytes) (m : Machine)
      (hc : (w.machines k).connection = some c)
      (hcut : (cut newline (arrived w.server c)).1 = line :: ls)
      (hgo : (w.machines k).go clientCfg json hosts errorText
        (.loop (.line (terminatedLine line))) (afterLine c line) = some m) :
      Effect w (.receive k) (w.put k m)
  | hangUp (k more : ℕ) (fin : ReadEnd) (c : Connection) (m : Machine)
      (hc : (w.machines k).connection = some c)
      (hpart : newline ∉ (arrived w.server c).take more)
      (hgo : (w.machines k).go clientCfg json hosts errorText
        (.loop (ending ((arrived w.server c).take more) fin)) none = some m) :
      Effect w (.hangUp k more fin) (w.put k m)
  | file (k : ℕ) (op : Op) (m : Machine)
      (hgo : (w.machines k).go clientCfg json hosts errorText (.file op)
        (w.machines k).connection = some m) :
      Effect w (.file k op) (w.put k m)
  | restart (k : ℕ) :
      Effect w (.restart k)
        (w.put k ⟨ClientProcess.start clientCfg (w.machines k).process.files.disk, none⟩)

end Step

theorem effect_of_step {cfg : ServerConfig} {clientCfg : ClientConfig} {json : SerdeJson}
    {hosts : Component} {errorText : Failure → Text} {accepts : ℕ → ℕ → ℕ} {w w' : World}
    {a : Action} (h : step cfg clientCfg json hosts errorText accepts w a = some w') :
    Effect cfg clientCfg json hosts errorText accepts w a w' := by
  cases a with
  | server a =>
      obtain ⟨s, hs, rfl⟩ := Option.map_eq_some_iff.mp h
      exact .server a s hs
  | connect k peer =>
      dsimp only [step] at h
      split at h
      · cases h
      · rename_i hidle
        obtain ⟨s, hs, h⟩ := Option.bind_eq_some_iff.mp h
        obtain ⟨m, hgo, rfl⟩ := Option.map_eq_some_iff.mp h
        exact .connect k peer s m hidle hs hgo
  | alone k a =>
      dsimp only [step] at h
      split at h
      · rename_i hidle halone
        obtain ⟨m, hgo, rfl⟩ := Option.map_eq_some_iff.mp h
        exact .alone k a m hidle halone hgo
      · cases h
  | receive k =>
      obtain ⟨c, hc, h⟩ := Option.bind_eq_some_iff.mp h
      split at h
      · cases h
      · rename_i line ls hcut
        obtain ⟨m, hgo, rfl⟩ := Option.map_eq_some_iff.mp h
        exact .receive k c line ls m hc hcut hgo
  | hangUp k more fin =>
      obtain ⟨c, hc, h⟩ := Option.bind_eq_some_iff.mp h
      dsimp only at h
      split_ifs at h with hpart
      obtain ⟨m, hgo, rfl⟩ := Option.map_eq_some_iff.mp h
      exact .hangUp k more fin c m hc hpart hgo
  | file k op =>
      obtain ⟨m, hgo, rfl⟩ := Option.map_eq_some_iff.mp h
      exact .file k op m hgo
  | restart k =>
      cases h
      exact .restart k

/-- A machine follows its connection, and its file holds updates of broadcasts it passed. -/
structure Good (json : SerdeJson) (hosts : Component) (initial : Bytes)
    (applied : List IpUpdate) (s : Server) (m : Machine) : Prop where
  reading : ∀ c, m.connection = some c → Reading json s c
  sound : Sound hosts m.process
  kept : Kept hosts initial (passed s m.connection) applied m.process

section Machine
variable {clientCfg : ClientConfig} {json : SerdeJson} {hosts : Component}
variable {errorText : Failure → Text} {initial : Bytes} {applied : List IpUpdate}
variable {s s' : Server} {m m' : Machine}

theorem Good.extend (h : Good json hosts initial applied s m) (he : HostsAgreement.Extends s s') :
    Good json hosts initial applied s' m where
  reading := fun c hc => (h.reading c hc).extend he
  sound := h.sound
  kept := h.kept.mono (passed_extend he h.reading)

/-- A step of the loop, with the broadcast it has read. -/
theorem Good.loop (hname : ∀ hostname, tmpName hostname ≠ hosts) {a : ClientLoop.Action}
    {connection : Option Connection} (h : Good json hosts initial applied s m)
    (hgo : m.go clientCfg json hosts errorText (.loop a) connection = some m')
    (hreading : ∀ c, connection = some c → Reading json s' c)
    (hpassed : (passed s m.connection ++ updateRead json m.process.phase a).Sublist
      (passed s' connection)) : Good json hosts initial applied s' m' := by
  obtain ⟨p, hstep, rfl⟩ := Option.map_eq_some_iff.mp hgo
  exact ⟨hreading, (loop_step hname h.sound hstep).1,
    (h.kept.loop hname h.sound hstep).mono hpassed⟩

/-- The same for a step that reads no update. -/
theorem Good.quiet (hname : ∀ hostname, tmpName hostname ≠ hosts) {a : ClientLoop.Action}
    {connection : Option Connection} (h : Good json hosts initial applied s m)
    (hgo : m.go clientCfg json hosts errorText (.loop a) connection = some m')
    (hparsed : ∀ phase, parsed json phase a = none)
    (hreading : ∀ c, connection = some c → Reading json s' c)
    (hpassed : (passed s m.connection).Sublist (passed s' connection)) :
    Good json hosts initial applied s' m' := by
  apply h.loop hname hgo hreading
  rw [updateRead, hparsed, Option.map_none, Option.getD_none, List.append_nil]
  exact hpassed

theorem Good.file (hname : ∀ hostname, tmpName hostname ≠ hosts) {op : Op}
    (h : Good json hosts initial applied s m)
    (hgo : m.go clientCfg json hosts errorText (.file op) m.connection = some m') :
    Good json hosts initial (applied ++ newlyRenamed m.process.files m'.process.files) s m' := by
  obtain ⟨p, hstep, rfl⟩ := Option.map_eq_some_iff.mp hgo
  exact ⟨h.reading, (file_step hname h.sound hstep).1, h.kept.file hname h.sound hstep⟩

theorem Good.restart (h : Good json hosts initial applied s m) :
    Good json hosts initial applied s
      ⟨ClientProcess.start clientCfg m.process.files.disk, none⟩ where
  reading := fun c hc => by cases hc
  sound := sound_start hosts clientCfg _
  kept := h.kept.restart.mono (passed_sublist s m.connection)

end Machine

/-- What a step has renamed into place, and on which machine. -/
def renames (w : World) (a : Action) (w' : World) : List (ℕ × IpUpdate) :=
  match a with
  | .file k _ =>
      (newlyRenamed (w.machines k).process.files (w'.machines k).process.files).map fun u => (k, u)
  | .server _ | .connect .. | .alone .. | .receive _ | .hangUp .. | .restart _ => []

/-- The updates of one machine. -/
def onMachine (k : ℕ) (renamed : List (ℕ × IpUpdate)) : List IpUpdate :=
  (renamed.filter fun r => r.1 = k).map Prod.snd

theorem onMachine_append (k : ℕ) (rs ts : List (ℕ × IpUpdate)) :
    onMachine k (rs ++ ts) = onMachine k rs ++ onMachine k ts := by
  rw [onMachine, List.filter_append, List.map_append, onMachine, onMachine]

theorem onMachine_self (k : ℕ) (us : List IpUpdate) :
    onMachine k (us.map fun u => (k, u)) = us := by
  simp [onMachine, List.filter_map, Function.comp_def]

theorem onMachine_of_ne {j k : ℕ} (h : j ≠ k) (us : List IpUpdate) :
    onMachine j (us.map fun u => (k, u)) = [] := by
  simp [onMachine, List.filter_map, Function.comp_def, h.symm]

/-- The server's record is right, and every machine is. -/
structure Holds (cfg : ServerConfig) (json : SerdeJson) (hosts : Component)
    (accepts : ℕ → ℕ → ℕ) (initial : ℕ → Bytes) (w : World) (renamed : List (ℕ × IpUpdate)) :
    Prop where
  delivery : Delivery accepts w.server.threads
  recorded : Recorded cfg json w.server
  machines : ∀ k, Good json hosts (initial k) (onMachine k renamed) w.server (w.machines k)

section World
variable {cfg : ServerConfig} {clientCfg : ClientConfig} {json : SerdeJson} {hosts : Component}
variable {errorText : Failure → Text} {accepts : ℕ → ℕ → ℕ} {initial : ℕ → Bytes} {w : World}
variable {renamed : List (ℕ × IpUpdate)}

theorem holds_start (cfg : ServerConfig) (clientCfg : ClientConfig) (json : SerdeJson)
    (hosts : Component) (accepts : ℕ → ℕ → ℕ) (disks : ℕ → Directory) :
    Holds cfg json hosts accepts (fun k => contentOf (disks k) hosts)
      (start cfg clientCfg disks) [] where
  delivery := ServerLoop.delivery_start accepts cfg
  recorded := ServerLoop.recorded_start cfg json
  machines := by
    intro k
    refine ⟨?_, sound_start hosts clientCfg (disks k), rfl, List.nil_sublist _⟩
    rintro _ ⟨⟩

/-- The server changes. -/
theorem Holds.server (hjson : Documented json)
    (h : Holds cfg json hosts accepts initial w renamed) {a : ServerLoop.Action} {s : Server}
    (hstep : ServerLoop.step cfg json accepts w.server a = some s) :
    Holds cfg json hosts accepts initial { w with server := s } renamed where
  delivery := ServerLoop.delivery_step h.delivery hstep
  recorded := ServerLoop.recorded_step (fun msg => by simp [broadcastLine_eq_jsonBytes hjson msg])
    h.recorded hstep
  machines := fun k => (h.machines k).extend (HostsAgreement.extends_of_step hjson hstep)

/-- One machine changes, and has renamed these updates. -/
theorem Holds.put (h : Holds cfg json hosts accepts initial w renamed) {k : ℕ} {m : Machine}
    {us : List IpUpdate}
    (hm : Good json hosts (initial k) (onMachine k renamed ++ us) w.server m) :
    Holds cfg json hosts accepts initial (w.put k m) (renamed ++ us.map fun u => (k, u)) where
  delivery := h.delivery
  recorded := h.recorded
  machines := by
    intro j
    rw [onMachine_append]
    by_cases hj : j = k
    · subst hj
      have hself : (w.put j m).machines j = m := Function.update_self ..
      rw [hself, onMachine_self]
      exact hm
    · have hother : (w.put k m).machines j = w.machines j := Function.update_of_ne hj ..
      rw [hother, onMachine_of_ne hj, List.append_nil]
      exact h.machines j

theorem Holds.quiet (h : Holds cfg json hosts accepts initial w renamed) {k : ℕ} {m : Machine}
    (hm : Good json hosts (initial k) (onMachine k renamed) w.server m) :
    Holds cfg json hosts accepts initial (w.put k m) (renamed ++ []) := by
  rw [← List.append_nil (onMachine k renamed)] at hm
  exact h.put hm

theorem holds_step (hjson : Documented json) (hname : ∀ hostname, tmpName hostname ≠ hosts)
    (w : World) (a : Action) (w' : World) (renamed : List (ℕ × IpUpdate))
    (h : Holds cfg json hosts accepts initial w renamed)
    (hstep : step cfg clientCfg json hosts errorText accepts w a = some w') :
    Holds cfg json hosts accepts initial w' (renamed ++ renames w a w') := by
  cases effect_of_step hstep with
  | server a s hs =>
      rw [renames, List.append_nil]
      exact h.server hjson hs
  | connect k peer s m hidle hs hgo =>
      have hafter := h.server hjson hs
      have hnew := reading_connect hjson h.recorded hs
      apply hafter.quiet
      apply (hafter.machines k).quiet hname hgo
      · exact fun phase => rfl
      · rintro _ ⟨⟩
        exact hnew
      · rw [hidle, passed_connect hjson h.recorded hs]
  | alone k a m hidle halone hgo =>
      apply h.quiet
      apply (h.machines k).quiet hname hgo
      · intro phase
        cases a with
        | connected | line => cases halone
        | refused | ended | retry => rfl
      · rintro _ ⟨⟩
      · rw [hidle]
  | receive k c line ls m hc hcut hgo =>
      obtain ⟨msg, text, rest, hunread, hline, hread, hnext⟩ :=
        ((h.machines k).reading c hc).next hjson h.delivery h.recorded hcut
      apply h.quiet
      apply (h.machines k).loop hname hgo
      · rw [afterLine, hline]
        rintro _ ⟨⟩
        exact hnext
      · rw [afterLine, hline, hc, passed_next hunread]
        exact (List.Sublist.refl _).append (updateRead_line hread _)
  | hangUp k more fin c m hc hpart hgo =>
      apply h.quiet
      apply (h.machines k).loop hname hgo
      · rintro _ ⟨⟩
      · rw [hc]
        exact ((h.machines k).reading c hc).atEnd hjson h.delivery h.recorded hpart fin _
  | file k op m hgo =>
      have hself : (w.put k m).machines k = m := Function.update_self ..
      rw [renames, hself]
      exact h.put ((h.machines k).file hname hgo)
  | restart k => exact h.quiet (h.machines k).restart

/-- The steps of the server in a run. -/
def serverActions : Action → List ServerLoop.Action
  | .server a => [a]
  | .connect _ peer => [.accept (.push peer)]
  | .alone .. | .receive _ | .hangUp .. | .file .. | .restart _ => []

theorem run_server {w' : World} {actions : List Action}
    (h : run (step cfg clientCfg json hosts errorText accepts) w actions = some w') :
    run (ServerLoop.step cfg json accepts) w.server (actions.flatMap serverActions) =
      some w'.server := by
  induction actions generalizing w with
  | nil =>
      cases h
      rfl
  | cons a actions ih =>
      obtain ⟨m, hm, h⟩ := run_cons_iff.mp h
      rw [List.flatMap_cons, run_append, Option.bind_eq_some_iff]
      refine ⟨m.server, ?_, ih h⟩
      cases effect_of_step hm with
      | server a s hs => exact run_cons_iff.mpr ⟨s, hs, rfl⟩
      | connect k peer s m _ hs _ => exact run_cons_iff.mpr ⟨s, hs, rfl⟩
      | alone | receive | hangUp | file | restart => rfl

end World

def polled? : ServerLoop.Action → Option (Except Text Ipv4Addr)
  | .poll detected => some detected
  | .accept _ | .lock | .visit | .unlock | .heartbeatSent => none

/-- What the polls of a run found. -/
def polls (actions : List Action) : List (Except Text Ipv4Addr) :=
  (actions.flatMap serverActions).filterMap polled?

theorem updates_of_run {cfg : ServerConfig} {json : SerdeJson} (hjson : Documented json)
    {accepts : ℕ → ℕ → ℕ} {bs : List ServerLoop.Action} {s : Server}
    (h : run (ServerLoop.step cfg json accepts) (ServerLoop.start cfg) bs = some s) :
    updates s = (announcedBy (bs.filterMap polled?)).map (updateTo cfg) := by
  have htracks : Tracks cfg s _ :=
    invariant_observe (b := []) (tracks_step hjson) (tracks_start cfg) h
  have hpolls : ∀ {s s' : Server} {bs : List ServerLoop.Action},
      run (ServerLoop.step cfg json accepts) s bs = some s' →
        (observe (ServerLoop.step cfg json accepts) pollOutcome s bs).map Prod.fst =
          bs.filterMap polled? := by
    intro s s' bs h
    induction bs generalizing s with
    | nil => rfl
    | cons b bs ih =>
        obtain ⟨m, hm, h⟩ := run_cons_iff.mp h
        rw [observe_cons hm, List.map_append, ih h]
        cases b <;> rfl
  have hupdates := htracks.updates
  rw [List.nil_append, hpolls h] at hupdates
  exact hupdates

section Results
variable (cfg : ServerConfig) (clientCfg : ClientConfig) (json : SerdeJson)
variable (hosts : Component) (errorText : Failure → Text) (accepts : ℕ → ℕ → ℕ)
variable (disks : ℕ → Directory)

/-- In every run the files are the renamed updates, which the server has announced. -/
theorem renamed_of_run (hjson : Documented json) (hname : ∀ hostname, tmpName hostname ≠ hosts)
    {actions : List Action} {w : World}
    (h : run (step cfg clientCfg json hosts errorText accepts) (start cfg clientCfg disks)
      actions = some w) (k : ℕ) :
    ∃ applied : List Ipv4Addr, applied.Sublist (announcedBy (polls actions)) ∧
      onMachine k (observe (step cfg clientCfg json hosts errorText accepts) renames
        (start cfg clientCfg disks) actions) = applied.map (updateTo cfg) ∧
      contentOf (w.machines k).process.files.disk hosts =
        rewritten (contentOf (disks k) hosts) (applied.map (updateTo cfg)) := by
  have hholds : Holds cfg json hosts accepts (fun k => contentOf (disks k) hosts) w _ :=
    invariant_observe (b := []) (holds_step hjson hname)
      (holds_start cfg clientCfg json hosts accepts disks) h
  rw [List.nil_append] at hholds
  obtain ⟨hcontent, hsub⟩ := (hholds.machines k).kept
  obtain ⟨rest, hupdates⟩ := AppliedUpdates.updates_eq w.server
  rw [updates_of_run hjson (run_server h)] at hupdates
  have hannounced := (List.sublist_append_left _ _).trans
    (hsub.trans ((passed_sublist w.server _).trans (hupdates ▸ List.sublist_append_left _ rest)))
  obtain ⟨applied, happlied, hmap⟩ := List.sublist_map_iff.mp hannounced
  exact ⟨applied, happlied, hmap, hmap ▸ hcontent⟩

/-- In every state of every run, whatever connections are lost, calls fail and processes
are killed: a machine's hosts file is its first content after exactly the updates renamed
into place so far, and these are a subsequence of the announced addresses. -/
theorem files_hold_announcements (hjson : Documented json)
    (hname : ∀ hostname, tmpName hostname ≠ hosts) (actions : List Action) (w : World)
    (h : run (step cfg clientCfg json hosts errorText accepts) (start cfg clientCfg disks)
      actions = some w) (k : ℕ) :
    let renamed := onMachine k (observe (step cfg clientCfg json hosts errorText accepts) renames
      (start cfg clientCfg disks) actions)
    renamed.Sublist ((announcedBy (polls actions)).map (updateTo cfg)) ∧
      contentOf (w.machines k).process.files.disk hosts =
        rewritten (contentOf (disks k) hosts) renamed := by
  intro renamed
  obtain ⟨applied, hannounced, hmap, hcontent⟩ :=
    renamed_of_run cfg clientCfg json hosts errorText accepts disks hjson hname h k
  have hrenamed : renamed = applied.map (updateTo cfg) := hmap
  rw [hrenamed]
  exact ⟨hannounced.map _, hcontent⟩

/-- If no marker of the server's hostname was there, or the first begin came before the
first end, then at every moment the file is as it was at first, or that content updated
with one announced address. -/
theorem file_is_one_update (hjson : Documented json)
    (hname : ∀ hostname, tmpName hostname ≠ hosts) (hn : '\n' ∉ cfg.hostname)
    (actions : List Action) (w : World)
    (h : run (step cfg clientCfg json hosts errorText accepts) (start cfg clientCfg disks)
      actions = some w) (k : ℕ) (text : Text)
    (htext : contentOf (disks k) hosts = Utf8.encode text)
    (ho : BlockRewrite.MarkersInOrder cfg.hostname text) :
    contentOf (w.machines k).process.files.disk hosts = Utf8.encode text ∨
      ∃ ip ∈ announcedBy (polls actions), contentOf (w.machines k).process.files.disk hosts =
        Utf8.encode (replaceOrAppend text cfg.hostname ip.toString) := by
  obtain ⟨applied, hannounced, -, hcontent⟩ :=
    renamed_of_run cfg clientCfg json hosts errorText accepts disks hjson hname h k
  rw [htext, rewritten_encode] at hcontent
  cases applied with
  | nil => exact .inl hcontent
  | cons a addresses =>
      have honce := HostsGrowth.updates_in_order hn ho a addresses
      refine .inr ⟨addresses.getLastD a, hannounced.subset List.getLastD_mem_cons, ?_⟩
      rw [hcontent, ← honce]
      rfl

end Results

section Trial

/-- One broadcast of the main thread to this many connections. -/
def broadcastTo (n : ℕ) : List Action :=
  .server .lock :: (List.replicate n (.server .visit) ++ [.server .unlock])

/-- A client is killed in the middle of a write and comes back for the next address. -/
def killedMidWrite : List Action :=
  [.connect 0 HostsAgreement.laptop, .server (.accept .announce),
      .server (.poll (.ok ⟨10, 0, 0, 1⟩))] ++ broadcastTo 1 ++
    [.receive 0, .file 0 .read, .file 0 .openTemp, .file 0 (.write 7), .restart 0,
      .connect 0 HostsAgreement.laptop, .server (.accept .announce)] ++ broadcastTo 2 ++
    [.server .heartbeatSent, .server (.poll (.ok ⟨10, 0, 0, 2⟩))] ++ broadcastTo 2 ++
    [.receive 0, .receive 0, .file 0 .read, .file 0 .openTemp, .file 0 (.write 89),
      .file 0 .flush, .file 0 .rename]

/-- Every write to a connection succeeds. -/
abbrev nasStep : World → Action → Option World :=
  step ServerLoop.nas ClientLoop.nasClient compactJson hostsName ClientProcess.noText
    fun _ _ => 1000

/-- Every machine has a hosts file and a stale temporary file. -/
abbrev staleMachines : World := start ServerLoop.nas ClientLoop.nasClient fun _ => staleTemp

/-- Only the address of the second broadcast reaches the file. -/
theorem killedMidWrite_files : ∃ w, run nasStep staleMachines killedMidWrite = some w ∧
    contentOf (w.machines 0).process.files.disk hostsName =
      rewritten (contentOf staleTemp hostsName) [updateTo ServerLoop.nas ⟨10, 0, 0, 2⟩] := by
  have hrun : ∃ w, run nasStep staleMachines killedMidWrite = some w ∧ True := by decide +kernel
  obtain ⟨w, hw, -⟩ := hrun
  have hrenamed : onMachine 0 (observe nasStep renames staleMachines killedMidWrite) =
      [updateTo ServerLoop.nas ⟨10, 0, 0, 2⟩] := by decide +kernel
  have hfiles := files_hold_announcements ServerLoop.nas ClientLoop.nasClient compactJson
    hostsName ClientProcess.noText (fun _ _ => 1000) (fun _ => staleTemp) documented_compactJson
    ClientProcess.tmpName_ne_hosts killedMidWrite w hw 0
  refine ⟨w, hw, ?_⟩
  rw [← hrenamed]
  exact hfiles.2

/-- The file has changed, and so holds one of the two addresses. -/
theorem killedMidWrite_updated : ∃ w, ∃ ip ∈ announcedBy (polls killedMidWrite),
    run nasStep staleMachines killedMidWrite = some w ∧
      contentOf (w.machines 0).process.files.disk hostsName =
        Utf8.encode (replaceOrAppend "127.0.0.1 localhost".toList "nas".toList ip.toString) := by
  have hrun : ∃ w, run nasStep staleMachines killedMidWrite = some w ∧
      contentOf (w.machines 0).process.files.disk hostsName ≠
        Utf8.encode "127.0.0.1 localhost".toList := by decide +kernel
  obtain ⟨w, hw, hchanged⟩ := hrun
  have hupdated := file_is_one_update ServerLoop.nas ClientLoop.nasClient compactJson
    hostsName ClientProcess.noText (fun _ _ => 1000) (fun _ => staleTemp) documented_compactJson
    ClientProcess.tmpName_ne_hosts (by decide) killedMidWrite w hw 0
    "127.0.0.1 localhost".toList (by decide +kernel) (by decide +kernel)
  obtain ⟨ip, hip, hcontent⟩ := hupdated.resolve_left hchanged
  exact ⟨w, ip, hip, hw, hcontent⟩

end Trial

end DnslessHomelab.Homelab
