import DnslessHomelab.CallProgress
import DnslessHomelab.Homelab
import DnslessHomelab.LockProgress

/-!
# Catching up

A machine whose calls succeed, the server's hostname being one that the name of a temporary
file can hold, always gets to where it has read every whole line that has arrived and runs
no call, and whichever way it gets there its hosts file is then the same.
-/
namespace DnslessHomelab.CatchUp
open Protocol LineText Runs ReplaceOrAppend ClientStream MessageText WireFraming
open ChangeDetection HostsConcurrent PendingUpdates CallProgress Connections Homelab
open HostsUpdate (Component Directory Failure tmpName)
open HostsCrash (staleTemp)
open BroadcastDelivery (Delivery ids)
open AppliedUpdates (updateTo updatesIn updatesIn_append)
open ServerLoop (ServerConfig Server Recorded)
open ClientProcess (FitsFileName rewritten rewritten_append)
open Utf8 (newline)

/-! ### One connection -/

/-- The whole lines that have arrived and were not read. -/
def wholeLines (s : Server) (c : Connection) : List Bytes := (cut newline (arrived s c)).1

/-- The updates to come when all whole lines have been read. -/
def updatesWaiting (s : Server) : Option Connection → List IpUpdate
  | none => []
  | some c => updatesIn ((unread s c).take (wholeLines s c).length)

section Connection
variable {s : Server} {c : Connection}

theorem unread_next {msg : Message} {rest : List Message} (h : unread s c = msg :: rest)
    (consumed : ℕ) : unread s ⟨c.id, consumed, c.processed + 1⟩ = rest := by
  have htail := congrArg List.tail h
  rw [unread, ← List.map_tail, List.tail_drop] at htail
  exact htail

theorem wholeLines_next {line : Bytes} {ls : List Bytes} (h : wholeLines s c = line :: ls)
    (processed : ℕ) :
    wholeLines s ⟨c.id, c.consumed + (line.length + 1), processed⟩ = ls := by
  obtain ⟨hjoin, hlines, hrest⟩ := cut_spec newline (arrived s c)
  rw [← wholeLines, h] at hjoin hlines
  generalize (cut newline (arrived s c)).2 = r at hjoin hrest
  have hnext : arrived s ⟨c.id, c.consumed + (line.length + 1), processed⟩ =
      unlines newline ls ++ r := by
    have hdrop : arrived s ⟨c.id, c.consumed + (line.length + 1), processed⟩ =
        (arrived s c).drop (line.length + 1) := by
      rw [arrived, arrived, List.drop_drop]
    rw [hdrop, ← hjoin, unlines_cons, List.append_assoc]
    simp
  rw [wholeLines, hnext, cut_unlines fun l hl => hlines l (List.mem_cons_of_mem _ hl),
    cut_remainder hrest, List.append_nil]

end Connection

section Listed
variable {cfg : ServerConfig} {json : SerdeJson} {accepts : ℕ → ℕ → ℕ} {s : Server}
variable {c : Connection}

/-- Between two broadcasts all lines have arrived on a connection that the server lists. -/
theorem wholeLines_listed (hjson : Documented json) (hdelivery : Delivery accepts s.threads)
    (hrecorded : Recorded cfg json s) (h : Reading json s c) {clients : List Broadcast.ClientConn}
    (hfree : s.threads.list = .free clients) (hin : c.id ∈ ids s.threads.list.listed) :
    wholeLines s c = (unread s c).map (jsonBytes json) := by
  have hknown : c.id < s.threads.nextId := h.known
  obtain ⟨front, torn, back, hsent, hwritten, hlisted, -⟩ := hdelivery.received hknown
  obtain ⟨htorn, hback⟩ := hlisted hin
  have hnone : back = [] := by
    cases hback with
    | inl hback => exact hback
    | inr hawaiting => simp [hfree, Broadcast.ClientList.awaiting, ids] at hawaiting
  rw [hnone, List.append_nil] at hsent
  rw [htorn, List.append_nil, ← hsent] at hwritten
  have hsplit : s.threads.written c.id =
      unlines newline ((HostsAgreement.readMessages s c.stream).map (jsonBytes json)) ++
        unlines newline ((unread s c).map (jsonBytes json)) := by
    have hall : HostsAgreement.readMessages s c.stream ++ unread s c =
        (s.history.drop (s.threads.joined c.id)).map Prod.fst := by
      rw [HostsAgreement.readMessages, HostsAgreement.readBroadcasts, unread, ← List.map_append]
      exact congrArg _ (List.take_append_drop ..)
    rw [← unlines_append, ← List.map_append, hall, hwritten,
      HostsAgreement.sent_eq_jsonBytes hjson hrecorded, ← List.map_drop, List.map_map, unlines,
      List.flatMap_map]
    rfl
  have harrived : arrived s c = unlines newline ((unread s c).map (jsonBytes json)) := by
    have hoctets : c.consumed = _ := h.octets
    rw [arrived, hsplit, hoctets, List.drop_left]
  have hclean : ∀ l ∈ (unread s c).map (jsonBytes json), newline ∉ l := by
    intro l hl
    obtain ⟨msg, -, rfl⟩ := List.mem_map.mp hl
    exact newline_not_mem_jsonBytes hjson msg
  have hcut := cut_unlines hclean []
  rw [List.append_nil] at hcut
  rw [wholeLines, harrived, hcut]
  simp [cut]

/-- So nothing that was broadcast is left out. -/
theorem updatesWaiting_listed (hjson : Documented json) (hdelivery : Delivery accepts s.threads)
    (hrecorded : Recorded cfg json s) (h : Reading json s c) {clients : List Broadcast.ClientConn}
    (hfree : s.threads.list = .free clients) (hin : c.id ∈ ids s.threads.list.listed) :
    updatesWaiting s (some c) = updatesIn (unread s c) := by
  rw [updatesWaiting, wholeLines_listed hjson hdelivery hrecorded h hfree hin, List.length_map,
    List.take_length]

end Listed

/-! ### One machine -/

/-- The updates a machine is still to make of what has arrived. -/
def toCome (s : Server) (m : Machine) : List IpUpdate :=
  due m.process ++ updatesWaiting s m.connection

/-- The hosts file that the machine is on its way to. -/
def target (hosts : Component) (s : Server) (m : Machine) : Bytes :=
  rewritten (contentOf m.process.files.disk hosts) (toCome s m)

/-- No call is running, and no whole line is waiting. -/
structure CaughtUp (s : Server) (m : Machine) : Prop where
  idle : m.process.updating = none
  lines : ∀ c, m.connection = some c → wholeLines s c = []

/-- Seven steps for a line. -/
def workLeft (s : Server) (m : Machine) : ℕ :=
  stepsLeft m.process + 7 * ((m.connection.map fun c => (wholeLines s c).length).getD 0)

/-- A client is reading while it has a connection. -/
structure Attentive (clientCfg : ClientConfig) (json : SerdeJson) (hosts : Component)
    (errorText : Failure → Text) (m : Machine) : Prop where
  refined : Refined clientCfg json hosts errorText m.process
  reading : ∀ c, m.connection = some c → m.process.phase = .reading

section Machine
variable {clientCfg : ClientConfig} {json : SerdeJson} {hosts : Component}
variable {errorText : Failure → Text} {s : Server} {m m' : Machine}

theorem attentive_start (disk : Directory) :
    Attentive clientCfg json hosts errorText ⟨ClientProcess.start clientCfg disk, none⟩ where
  refined := ⟨_, [], ClientProcess.refines_start clientCfg json hosts errorText disk⟩
  reading := by
    rintro _ ⟨⟩

theorem Attentive.go (hname : ∀ hostname, tmpName hostname ≠ hosts)
    (h : Attentive clientCfg json hosts errorText m) {a : ClientProcess.Action}
    {connection : Option Connection}
    (hgo : m.go clientCfg json hosts errorText a connection = some m')
    (hreading : ∀ p', ClientProcess.step clientCfg json hosts errorText m.process a = some p' →
      connection = none ∨ p'.phase = .reading) :
    Attentive clientCfg json hosts errorText m' := by
  obtain ⟨p', hstep, rfl⟩ := Option.map_eq_some_iff.mp hgo
  refine ⟨h.refined.step hname hstep, ?_⟩
  rintro c hc
  cases hreading p' hstep with
  | inl hnone =>
      rw [show connection = some c from hc] at hnone
      cases hnone
  | inr hphase => exact hphase

end Machine

section World
variable {cfg : ServerConfig} {clientCfg : ClientConfig} {json : SerdeJson} {hosts : Component}
variable {errorText : Failure → Text} {accepts : ℕ → ℕ → ℕ}

/-- After any step every client with a connection is reading. -/
theorem attentive_step (hname : ∀ hostname, tmpName hostname ≠ hosts) (w : World) (a : Action)
    (w' : World) (h : ∀ k, Attentive clientCfg json hosts errorText (w.machines k))
    (hstep : step cfg clientCfg json hosts errorText accepts w a = some w') (k : ℕ) :
    Attentive clientCfg json hosts errorText (w'.machines k) := by
  have hput : ∀ {w : World} {j : ℕ} {m : Machine},
      (∀ k, Attentive clientCfg json hosts errorText (w.machines k)) →
        Attentive clientCfg json hosts errorText m →
          Attentive clientCfg json hosts errorText ((w.put j m).machines k) := by
    intro w j m hw hm
    by_cases hk : k = j
    · subst hk
      have hself : (w.put k m).machines k = m := Function.update_self ..
      rw [hself]
      exact hm
    · have hother : (w.put j m).machines k = w.machines k := Function.update_of_ne hk ..
      rw [hother]
      exact hw k
  cases effect_of_step hstep with
  | server a s hs => exact h k
  | connect j peer s m _ _ hgo =>
      exact hput h ((h j).go hname hgo fun p' hp => .inr (phase_of_connected hp))
  | alone j a m _ _ hgo => exact hput h ((h j).go hname hgo fun p' hp => .inl rfl)
  | receive j c line ls m hc _ hgo =>
      apply hput h ((h j).go hname hgo _)
      intro p' hp
      unfold afterLine
      cases hline : terminatedLine line with
      | error e => exact .inl rfl
      | ok text =>
          rw [hline] at hp
          exact .inr (phase_of_line hp).2
  | hangUp j more fin c m _ _ hgo => exact hput h ((h j).go hname hgo fun p' hp => .inl rfl)
  | file j op m hgo =>
      apply hput h ((h j).go hname hgo _)
      intro p' hp
      rw [phase_of_file hp]
      cases hc : (w.machines j).connection with
      | none => exact .inl rfl
      | some c => exact .inr ((h j).reading c hc)
  | restart j => exact hput h (attentive_start _)

end World

/-! ### The whole system -/

/-- What machine `k` does by itself when nothing fails. -/
def Own (k : ℕ) : Action → Bool
  | .receive j => j = k
  | .file _ .fails => false
  | .file j _ => j = k
  | .server _ | .connect .. | .alone .. | .hangUp .. | .restart _ => false

structure Live (cfg : ServerConfig) (clientCfg : ClientConfig) (json : SerdeJson)
    (hosts : Component) (errorText : Failure → Text) (accepts : ℕ → ℕ → ℕ) (w : World) : Prop where
  holds : ∃ initial renamed, Holds cfg json hosts accepts initial w renamed
  attentive : ∀ k, Attentive clientCfg json hosts errorText (w.machines k)

section Live
variable {cfg : ServerConfig} {clientCfg : ClientConfig} {json : SerdeJson} {hosts : Component}
variable {errorText : Failure → Text} {accepts : ℕ → ℕ → ℕ} {w w' : World} {k : ℕ}

theorem live_start (disks : ℕ → Directory) :
    Live cfg clientCfg json hosts errorText accepts (start cfg clientCfg disks) where
  holds := ⟨_, [], holds_start cfg clientCfg json hosts accepts disks⟩
  attentive := fun k => attentive_start (disks k)

theorem live_step (hjson : Documented json) (hname : ∀ hostname, tmpName hostname ≠ hosts)
    (w : World) (a : Action) (w' : World)
    (h : Live cfg clientCfg json hosts errorText accepts w)
    (hstep : step cfg clientCfg json hosts errorText accepts w a = some w') :
    Live cfg clientCfg json hosts errorText accepts w' := by
  obtain ⟨initial, renamed, hholds⟩ := h.holds
  exact ⟨⟨initial, _, holds_step hjson hname w a w' renamed hholds hstep⟩,
    attentive_step hname w a w' h.attentive hstep⟩

theorem receive_eq {c : Connection} {line : Bytes} {ls : List Bytes}
    (hc : (w.machines k).connection = some c) (hlines : wholeLines w.server c = line :: ls) :
    step cfg clientCfg json hosts errorText accepts w (.receive k) =
      ((w.machines k).go clientCfg json hosts errorText (.loop (.line (terminatedLine line)))
        (afterLine c line)).map (w.put k) := by
  unfold wholeLines at hlines
  simp only [step, hc, Option.bind_some, hlines]

/-- The next whole line of a connection. -/
theorem Live.next (hjson : Documented json)
    (h : Live cfg clientCfg json hosts errorText accepts w) {c : Connection} {line : Bytes}
    {ls : List Bytes} (hc : (w.machines k).connection = some c)
    (hlines : wholeLines w.server c = line :: ls) :
    ∃ msg text rest, unread w.server c = msg :: rest ∧ terminatedLine line = .ok text ∧
      json.fromStr text = .ok msg ∧
      afterLine c line = some ⟨c.id, c.consumed + (line.length + 1), c.processed + 1⟩ ∧
      ∀ u, msg = .ipUpdate u → u.hostname = cfg.hostname := by
  obtain ⟨initial, renamed, hholds⟩ := h.holds
  obtain ⟨msg, text, rest, hunread, hline, hread, -⟩ :=
    ((hholds.machines k).reading c hc).next hjson hholds.delivery hholds.recorded hlines
  refine ⟨msg, text, rest, hunread, hline, hread, by rw [afterLine, hline], ?_⟩
  have hmem : msg ∈ unread w.server c := hunread ▸ List.mem_cons_self ..
  obtain ⟨e, he, rfl⟩ := List.mem_map.mp hmem
  exact hholds.recorded.hostname e (List.mem_of_mem_drop (List.mem_of_mem_drop he))

/-- Only machine `k` has changed, and it is on its way to the same file. -/
structure OnTheWay (hosts : Component) (k : ℕ) (w w' : World) : Prop where
  server : w'.server = w.server
  others : ∀ j, j ≠ k → w'.machines j = w.machines j
  target : target hosts w'.server (w'.machines k) = target hosts w.server (w.machines k)

theorem OnTheWay.trans {v : World} (h : OnTheWay hosts k w v) (h' : OnTheWay hosts k v w') :
    OnTheWay hosts k w w' where
  server := h'.server.trans h.server
  others := fun j hj => (h'.others j hj).trans (h.others j hj)
  target := h'.target.trans h.target

theorem own_step (hjson : Documented json) (hname : ∀ hostname, tmpName hostname ≠ hosts)
    (h : Live cfg clientCfg json hosts errorText accepts w) {a : Action} (hown : Own k a = true)
    (hstep : step cfg clientCfg json hosts errorText accepts w a = some w') :
    OnTheWay hosts k w w' := by
  have hput : ∀ m, (w.put k m).server = w.server ∧
      (∀ j, j ≠ k → (w.put k m).machines j = w.machines j) ∧ (w.put k m).machines k = m :=
    fun m => ⟨rfl, fun j hj => Function.update_of_ne hj .., Function.update_self ..⟩
  cases effect_of_step hstep with
  | server | connect | alone | hangUp | restart => cases hown
  | file j op m hgo =>
      have hfails : op ≠ .fails := by
        rintro rfl
        cases hown
      have hj : j = k := by
        cases op with
        | fails => cases hown
        | read | openTemp | write | flush | rename | returns | dies =>
            exact of_decide_eq_true hown
      subst hj
      obtain ⟨hserver, hothers, hself⟩ := hput m
      refine ⟨hserver, hothers, ?_⟩
      obtain ⟨p', hfile, rfl⟩ := Option.map_eq_some_iff.mp hgo
      rw [hself, target, target, toCome, toCome, rewritten_append, rewritten_append,
        (h.attentive j).refined.file_keeps hname hfails hfile]
      rfl
  | receive j c line ls m hc hcut hgo =>
      have hj : j = k := of_decide_eq_true hown
      subst hj
      obtain ⟨hserver, hothers, hself⟩ := hput m
      refine ⟨hserver, hothers, ?_⟩
      have hlines : wholeLines w.server c = line :: ls := hcut
      obtain ⟨msg, text, rest, hunread, hline, hread, hafter, -⟩ := h.next hjson hc hlines
      rw [hline, hafter] at hgo
      obtain ⟨p', hloop, rfl⟩ := Option.map_eq_some_iff.mp hgo
      obtain ⟨-, hcontent, hnone, hdue⟩ := loop_step hname (h.attentive j).refined.sound hloop
      rw [(h.attentive j).reading c hc, updateRead_reading hread] at hdue
      have hwaiting : updatesWaiting w.server (some c) = updatesIn [msg] ++
          updatesWaiting w.server
            (some ⟨c.id, c.consumed + (line.length + 1), c.processed + 1⟩) := by
        simp only [updatesWaiting, hunread, hlines, unread_next hunread, wholeLines_next hlines,
          List.length_cons, List.take_succ_cons, ← updatesIn_append, List.singleton_append]
      rw [hself, target, target, toCome, toCome, hcontent, hdue, hnone, hc, hwaiting,
        List.nil_append]
      rfl

/-- With a server's hostname that fits into a file name no call is stranded. -/
theorem Live.calling (hfits : FitsFileName cfg.hostname)
    (h : Live cfg clientCfg json hosts errorText accepts w) {r : ClientProcess.Running}
    (hbusy : (w.machines k).process.updating = some r) : ∃ id raw, r = .call id raw := by
  cases r with
  | call id raw => exact ⟨id, raw, rfl⟩
  | stranded u hasRead raw =>
      obtain ⟨initial, renamed, hholds⟩ := h.holds
      have hdue : due (w.machines k).process = [u] := by simp [due, hbusy]
      have hpassed := (hholds.machines k).kept.2
      rw [hdue] at hpassed
      -- the update was broadcast, and so is about the server's hostname
      have hmem := (hpassed.trans (passed_sublist w.server _)).subset
        (List.mem_append_right _ (List.mem_singleton_self u))
      obtain ⟨msg, hmsg, hu⟩ := List.mem_filterMap.mp hmem
      obtain ⟨e, he, rfl⟩ := List.mem_map.mp hmsg
      have hhostname : u.hostname = cfg.hostname := by
        apply hholds.recorded.hostname e he
        cases hmessage : e.1 with
        | heartbeat =>
            rw [hmessage] at hu
            cases hu
        | ipUpdate v =>
            rw [hmessage] at hu
            cases hu
            rfl
      exact absurd (hhostname ▸ hfits) ((h.attentive k).refined.unfit hbusy)

/-- Until it has caught up, a machine can go on by itself, and comes closer to it. -/
theorem own_enabled (hjson : Documented json) (hfits : FitsFileName cfg.hostname)
    (h : Live cfg clientCfg json hosts errorText accepts w)
    (hbusy : ¬ CaughtUp w.server (w.machines k)) :
    ∃ a w', Own k a = true ∧ step cfg clientCfg json hosts errorText accepts w a = some w' ∧
      workLeft w'.server (w'.machines k) < workLeft w.server (w.machines k) := by
  have hself : ∀ m, (w.put k m).machines k = m := fun m => Function.update_self ..
  have hrefined := (h.attentive k).refined
  cases hupdating : (w.machines k).process.updating with
  | some r =>
      obtain ⟨id, raw, rfl⟩ := h.calling hfits hupdating
      obtain ⟨op, p', hfails, hfile, hless⟩ := hrefined.file_enabled hupdating
      refine ⟨.file k op, w.put k ⟨p', (w.machines k).connection⟩, ?_, ?_, ?_⟩
      · cases op with
        | fails => exact absurd rfl hfails
        | read | openTemp | write | flush | rename | returns | dies => exact decide_eq_true rfl
      · simp only [step, Machine.go, hfile, Option.map_some]
      · rw [hself]
        exact Nat.add_lt_add_right hless _
  | none =>
      obtain ⟨c, hc, hlines⟩ : ∃ c, (w.machines k).connection = some c ∧
          wholeLines w.server c ≠ [] := by
        by_contra hnone
        refine hbusy ⟨hupdating, ?_⟩
        intro c hc
        by_contra hlines
        exact hnone ⟨c, hc, hlines⟩
      obtain ⟨line, ls, hlines⟩ := List.exists_cons_of_ne_nil hlines
      obtain ⟨msg, text, rest, hunread, hline, hread, hafter, hhostname⟩ := h.next hjson hc hlines
      obtain ⟨p', hloop, hsteps⟩ := hrefined.line_enabled hupdating ((h.attentive k).reading c hc)
        hread fun u hu => hhostname u hu ▸ hfits
      refine ⟨.receive k, w.put k
        ⟨p', some ⟨c.id, c.consumed + (line.length + 1), c.processed + 1⟩⟩,
        decide_eq_true rfl, ?_, ?_⟩
      · rw [receive_eq hc hlines, hline, hafter]
        simp only [Machine.go, hloop, Option.map_some]
      · have hserver : ∀ m, (w.put k m).server = w.server := fun m => rfl
        have hnow : stepsLeft (w.machines k).process = 0 := by simp [stepsLeft, running, hupdating]
        rw [hself, hserver]
        simp only [workLeft, hc, hnow, hlines, wholeLines_next hlines, Option.map_some,
          Option.getD_some, List.length_cons]
        omega

/-- A machine that has caught up is where it was going. -/
theorem CaughtUp.content {s : Server} {m : Machine} (h : CaughtUp s m) :
    target hosts s m = contentOf m.process.files.disk hosts := by
  have hdue : due m.process = [] := by simp [due, h.idle]
  have hwaiting : updatesWaiting s m.connection = [] := by
    cases hc : m.connection with
    | none => rfl
    | some c =>
        rw [updatesWaiting, h.lines c hc]
        rfl
  rw [target, toCome, hdue, hwaiting]
  rfl

/-- Whatever a machine does by itself, it stays on its way. -/
theorem own_run (hjson : Documented json) (hname : ∀ hostname, tmpName hostname ≠ hosts)
    (h : Live cfg clientCfg json hosts errorText accepts w) {actions : List Action}
    (hown : ∀ a ∈ actions, Own k a = true)
    (hrun : run (step cfg clientCfg json hosts errorText accepts) w actions = some w') :
    OnTheWay hosts k w w' := by
  have hall : Live cfg clientCfg json hosts errorText accepts w' ∧ OnTheWay hosts k w w' := by
    refine invariant_guarded
      (I := fun v => Live cfg clientCfg json hosts errorText accepts v ∧ OnTheWay hosts k w v)
      ?_ ⟨h, ⟨rfl, fun _ _ => rfl, rfl⟩⟩ (guarded_of_forall hown) hrun
    rintro v a v' ⟨hlive, hway⟩ hown hstep
    exact ⟨live_step hjson hname v a v' hlive hstep,
      hway.trans (own_step hjson hname hlive hown hstep)⟩
  exact hall.2

end Live

/-- With the markers in order only the last of some announced addresses shows. -/
theorem applyUpdates_announced {cfg : ServerConfig} {text : Text} (hn : '\n' ∉ cfg.hostname)
    (ho : BlockRewrite.MarkersInOrder cfg.hostname text) {us : List IpUpdate}
    {announced : List Ipv4Addr} (hsub : us.Sublist (announced.map (updateTo cfg))) {ip : Ipv4Addr}
    (hlast : us.getLast? = some (updateTo cfg ip)) :
    applyUpdates text us = replaceOrAppend text cfg.hostname ip.toString := by
  obtain ⟨addresses, -, rfl⟩ := List.sublist_map_iff.mp hsub
  cases addresses with
  | nil => cases hlast
  | cons a addresses =>
      have honce := HostsGrowth.updates_in_order hn ho a addresses
      rw [List.getLast?_map, List.getLast?_cons, Option.map_some, Option.some.injEq] at hlast
      have hip : (addresses.getLastD a).toString = ip.toString := by
        rw [List.getLastD_eq_getLast?]
        exact congrArg IpUpdate.ip hlast
      rw [← hip, ← honce]
      rfl

section Results
variable (cfg : ServerConfig) (clientCfg : ClientConfig) (json : SerdeJson)
variable (hosts : Component) (errorText : Failure → Text) (accepts : ℕ → ℕ → ℕ)
variable (disks : ℕ → Directory)

/-- From every state of every run of a server whose hostname fits into a file name: a
machine can catch up by itself, and however it does so without a failure, its hosts file is
then its content now after the update it was making and those of the whole lines that had
arrived. -/
theorem catches_up (hjson : Documented json) (hname : ∀ hostname, tmpName hostname ≠ hosts)
    (hfits : FitsFileName cfg.hostname) (actions : List Action) (w : World)
    (h : run (step cfg clientCfg json hosts errorText accepts) (start cfg clientCfg disks)
      actions = some w) (k : ℕ) :
    (∃ more w', (∀ a ∈ more, Own k a = true) ∧
      run (step cfg clientCfg json hosts errorText accepts) w more = some w' ∧
        CaughtUp w'.server (w'.machines k)) ∧
    ∀ more w', (∀ a ∈ more, Own k a = true) →
      run (step cfg clientCfg json hosts errorText accepts) w more = some w' →
        CaughtUp w'.server (w'.machines k) →
          w'.server = w.server ∧ (∀ j, j ≠ k → w'.machines j = w.machines j) ∧
            contentOf (w'.machines k).process.files.disk hosts =
              rewritten (contentOf (w.machines k).process.files.disk hosts)
                (toCome w.server (w.machines k)) := by
  have hlive : Live cfg clientCfg json hosts errorText accepts w :=
    invariant_run (live_step hjson hname) (live_start disks) h
  constructor
  · have hprogress : ∀ v, Live cfg clientCfg json hosts errorText accepts v →
        ¬ CaughtUp v.server (v.machines k) → ∃ a v', Own k a = true ∧
          step cfg clientCfg json hosts errorText accepts v a = some v' ∧
            Live cfg clientCfg json hosts errorText accepts v' ∧
              workLeft v'.server (v'.machines k) < workLeft v.server (v.machines k) := by
      intro v hv hbusy
      obtain ⟨a, v', hown, hstep, hless⟩ := own_enabled hjson hfits hv hbusy
      exact ⟨a, v', hown, hstep, live_step hjson hname v a v' hv hstep, hless⟩
    obtain ⟨more, w', hown, hrun, -, hend⟩ := exists_run_of_progress hprogress hlive
    exact ⟨more, w', hown, hrun, hend⟩
  · intro more w' hown hrun hend
    have hway := own_run hjson hname hlive hown hrun
    refine ⟨hway.server, hway.others, ?_⟩
    rw [← hend.content, hway.target]
    rfl

/-- While the server waits for the next address, a machine on a listed connection that has
an update to read can bring its hosts file up to date by itself: if the server's hostname
fits into a file name and onto a line, and its markers were in order at first, the file is
then the first one updated with the last announced address. -/
theorem reaches_last_address (hjson : Documented json)
    (hname : ∀ hostname, tmpName hostname ≠ hosts) (hfits : FitsFileName cfg.hostname)
    (hn : '\n' ∉ cfg.hostname) (actions : List Action) (w : World)
    (h : run (step cfg clientCfg json hosts errorText accepts) (start cfg clientCfg disks)
      actions = some w) (hmain : w.server.main = .polling) (ip : Ipv4Addr)
    (hlast : (announcedBy (polls actions)).getLast? = some ip) (k : ℕ) (c : Connection)
    (hc : (w.machines k).connection = some c) (hin : c.id ∈ ids w.server.threads.list.listed)
    (hnew : updatesIn (unread w.server c) ≠ []) (text : Text)
    (htext : contentOf (disks k) hosts = Utf8.encode text)
    (ho : BlockRewrite.MarkersInOrder cfg.hostname text) :
    ∃ more w', (∀ a ∈ more, Own k a = true) ∧
      run (step cfg clientCfg json hosts errorText accepts) w more = some w' ∧
        contentOf (w'.machines k).process.files.disk hosts =
          Utf8.encode (replaceOrAppend text cfg.hostname ip.toString) := by
  obtain ⟨⟨more, w', hown, hrun, hend⟩, hcaught⟩ :=
    catches_up cfg clientCfg json hosts errorText accepts disks hjson hname hfits actions w h k
  refine ⟨more, w', hown, hrun, ?_⟩
  obtain ⟨-, -, hcontent⟩ := hcaught more w' hown hrun hend
  have hholds : Holds cfg json hosts accepts (fun k => contentOf (disks k) hosts) w _ :=
    invariant_observe (b := []) (holds_step hjson hname)
      (holds_start cfg clientCfg json hosts accepts disks) h
  obtain ⟨hreading, -, hnow, hsub⟩ := hholds.machines k
  generalize onMachine k _ = applied at hnow hsub
  have hfirst : LockProgress.Placed (ServerLoop.start cfg) := ⟨[], rfl⟩
  have hplaced : LockProgress.Placed w.server :=
    invariant_run (fun s a s' hs hstep => LockProgress.placed_step hs hstep) hfirst (run_server h)
  unfold LockProgress.Placed at hplaced
  rw [hmain] at hplaced
  obtain ⟨clients, hfree⟩ := hplaced
  have hwaiting := updatesWaiting_listed hjson hholds.delivery hholds.recorded (hreading c hc)
    hfree hin
  rw [toCome, hc, hwaiting, hnow, ← rewritten_append, ← List.append_assoc, htext,
    rewritten_encode] at hcontent
  have hannounced := updates_of_run hjson (run_server h)
  unfold updates at hannounced
  rw [hmain, List.append_nil] at hannounced
  have hbroadcast : passed w.server (some c) ++ updatesIn (unread w.server c) =
      (announcedBy (polls actions)).map (updateTo cfg) := by
    rw [passed_append_unread, updatesIn, List.filterMap_map]
    exact hannounced
  rw [hc] at hsub
  have hall := hsub.append (List.Sublist.refl (updatesIn (unread w.server c)))
  rw [hbroadcast] at hall
  have hupdate : (updatesIn (unread w.server c)).getLast? = some (updateTo cfg ip) := by
    rw [← List.getLast?_append_of_ne_nil (passed w.server (some c)) hnew, hbroadcast,
      List.getLast?_map, hlast]
    rfl
  rw [hcontent, applyUpdates_announced hn ho hall]
  rw [List.getLast?_append_of_ne_nil _ hnew]
  exact hupdate

end Results

section Trial

instance (main : ServerLoop.Main) : Decidable (main = .polling) :=
  match main with
  | .polling => isTrue rfl
  | .broadcasting _ | .traversing _ | .reporting => isFalse (by rintro ⟨⟩)

/-- A client is in the middle of a write while the next address is announced. -/
def busyWithFirst : List Action :=
  [.connect 0 HostsAgreement.laptop, .server (.accept .announce),
      .server (.poll (.ok ⟨10, 0, 0, 1⟩))] ++ broadcastTo 1 ++
    [.receive 0, .file 0 .read, .file 0 .openTemp, .file 0 (.write 7)] ++ broadcastTo 1 ++
    [.server .heartbeatSent, .server (.poll (.ok ⟨10, 0, 0, 2⟩))] ++ broadcastTo 1 ++
    broadcastTo 1 ++ [.server .heartbeatSent]

/-- The write goes on, and the second address follows. -/
theorem busyWithFirst_catches_up : ∃ w more w',
    run nasStep staleMachines busyWithFirst = some w ∧ run nasStep w more = some w' ∧
      contentOf (w'.machines 0).process.files.disk hostsName =
        rewritten (contentOf staleTemp hostsName)
          ([⟨10, 0, 0, 1⟩, ⟨10, 0, 0, 2⟩].map (updateTo ServerLoop.nas)) := by
  have hrun : ∃ w, run nasStep staleMachines busyWithFirst = some w ∧
      contentOf (w.machines 0).process.files.disk hostsName = contentOf staleTemp hostsName ∧
      toCome w.server (w.machines 0) =
        [⟨10, 0, 0, 1⟩, ⟨10, 0, 0, 2⟩].map (updateTo ServerLoop.nas) := by decide +kernel
  obtain ⟨w, hw, hcontent, hcome⟩ := hrun
  obtain ⟨⟨more, w', hown, hmore, hend⟩, hcaught⟩ :=
    catches_up ServerLoop.nas ClientLoop.nasClient compactJson hostsName
      ClientProcess.noText (fun _ _ => 1000) (fun _ => staleTemp) documented_compactJson
      ClientProcess.tmpName_ne_hosts (by decide) busyWithFirst w hw 0
  obtain ⟨-, -, hfile⟩ := hcaught more w' hown hmore hend
  rw [hcontent, hcome] at hfile
  exact ⟨w, more, w', hw, hmore, hfile⟩

theorem busyWithFirst_reaches_last : ∃ w more w',
    run nasStep staleMachines busyWithFirst = some w ∧ run nasStep w more = some w' ∧
      contentOf (w'.machines 0).process.files.disk hostsName =
        Utf8.encode (replaceOrAppend "127.0.0.1 localhost".toList "nas".toList
          (Ipv4Addr.toString ⟨10, 0, 0, 2⟩)) := by
  have hrun : ∃ w, run nasStep staleMachines busyWithFirst = some w ∧
      w.server.main = .polling ∧ ∃ c ∈ (w.machines 0).connection,
        c.id ∈ ids w.server.threads.list.listed ∧ updatesIn (unread w.server c) ≠ [] := by
    decide +kernel
  obtain ⟨w, hw, hmain, c, hc, hin, hnew⟩ := hrun
  obtain ⟨more, w', -, hmore, hfile⟩ :=
    reaches_last_address ServerLoop.nas ClientLoop.nasClient compactJson hostsName
      ClientProcess.noText (fun _ _ => 1000) (fun _ => staleTemp) documented_compactJson
      ClientProcess.tmpName_ne_hosts (by decide) (by decide) busyWithFirst w hw hmain
      ⟨10, 0, 0, 2⟩ (by decide +kernel) 0 c hc hin hnew "127.0.0.1 localhost".toList
      (by decide +kernel) (by decide +kernel)
  exact ⟨w, more, w', hw, hmore, hfile⟩

end Trial

end DnslessHomelab.CatchUp
