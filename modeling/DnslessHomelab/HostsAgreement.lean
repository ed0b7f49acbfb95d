import DnslessHomelab.ReplaceOrAppend
import DnslessHomelab.ServerLoop
import DnslessHomelab.WireFraming

/-!
# The clients' hosts files and the server's address

One server and any number of clients that connect, read line by line, lose the
connection at any octet and come back. Between a client's connect and the push of its
connection nothing can be written to it, so both are one step here. Octets arrive in
order. Hosts files are UTF-8, and every system call of an update succeeds.

Nothing is sent to a client when it connects. What it knows after a heartbeat is the
last update that was broadcast since its connection was pushed, or else what its
hosts file said before.
-/
namespace DnslessHomelab.HostsAgreement
open Protocol LineText Runs ReplaceOrAppend ClientStream MessageText WireFraming
open Broadcast BroadcastDelivery ServerLoop
open Utf8 (newline)

/-- A client's side of its connection: the octets and lines read so far, and the
hosts file when the connection was established. -/
structure Stream where
  id : ℕ
  consumed : ℕ
  processed : ℕ
  before : Text

structure Client where
  hosts : Text
  stream : Option Stream

structure World where
  server : Server
  clients : ℕ → Client

inductive Action where
  | server (a : ServerLoop.Action)
  | connect (k : ℕ) (peer : SocketAddr)
  | read (k : ℕ)
  | lose (k more : ℕ) (fin : ReadEnd)

def start (cfg : ServerConfig) (files : ℕ → Text) : World :=
  ⟨ServerLoop.start cfg, fun k => ⟨files k, none⟩⟩

/-- `update_hosts_entry` on a UTF-8 file, when every system call of it succeeds: the name
of the temporary file fits a directory, and nothing refuses the write or the rename. -/
def updateHosts (hosts hostname ip : Text) : Text × Except Text Unit :=
  (replaceOrAppend hosts hostname ip, .ok ())

/-- The client's loop takes the next whole line, if one has arrived. A line that is
not UTF-8 ends the connection. -/
def readLine (json : SerdeJson) (c : Client) (st : Stream) (arrived : Bytes) : Option Client :=
  match (cut newline arrived).1 with
  | [] => none
  | line :: _ =>
      match terminatedLine line with
      | .error _ => some { c with stream := none }
      | .ok raw => some {
          hosts := (handleLine json updateHosts c.hosts raw).1
          stream := some { st with
            consumed := st.consumed + (line.length + 1)
            processed := st.processed + 1 } }

def step (cfg : ServerConfig) (json : SerdeJson) (accepts : ℕ → ℕ → ℕ) (w : World)
    (a : Action) : Option World :=
  match a with
  | .server a => (ServerLoop.step cfg json accepts w.server a).map fun server => { w with server }
  | .connect k peer =>
      match (w.clients k).stream with
      | some _ => none
      | none =>
          (ServerLoop.step cfg json accepts w.server (.accept (.push peer))).map fun server =>
            let c := w.clients k
            { server
              clients := Function.update w.clients k
                { c with stream := some ⟨w.server.threads.nextId, 0, 0, c.hosts⟩ } }
  | .read k =>
      (w.clients k).stream.bind fun st =>
        (readLine json (w.clients k) st
          ((w.server.threads.written st.id).drop st.consumed)).map fun c =>
            { w with clients := Function.update w.clients k c }
  | .lose k more fin =>
      (w.clients k).stream.bind fun st =>
        let rest := ((w.server.threads.written st.id).drop st.consumed).take more
        if newline ∈ rest then none
        else
          let hosts := (handleStream json updateHosts [] (w.clients k).hosts
            (lastItem rest fin)).1
          some { w with clients := Function.update w.clients k ⟨hosts, none⟩ }

inductive Effect (cfg : ServerConfig) (json : SerdeJson) (accepts : ℕ → ℕ → ℕ) (w : World) :
    Action → World → Prop
  | moves (a : ServerLoop.Action) (server : Server)
      (hserver : ServerLoop.step cfg json accepts w.server a = some server) :
      Effect cfg json accepts w (.server a) { w with server }
  | connects (k : ℕ) (peer : SocketAddr) (server : Server)
      (hidle : (w.clients k).stream = none)
      (hserver : ServerLoop.step cfg json accepts w.server (.accept (.push peer)) = some server) :
      Effect cfg json accepts w (.connect k peer)
        { server
          clients := Function.update w.clients k
            { w.clients k with
              stream := some ⟨w.server.threads.nextId, 0, 0, (w.clients k).hosts⟩ } }
  | reads (k : ℕ) (st : Stream) (c : Client) (hst : (w.clients k).stream = some st)
      (hread : readLine json (w.clients k) st
        ((w.server.threads.written st.id).drop st.consumed) = some c) :
      Effect cfg json accepts w (.read k) { w with clients := Function.update w.clients k c }
  | loses (k more : ℕ) (fin : ReadEnd) (st : Stream) (rest : Bytes)
      (hst : (w.clients k).stream = some st)
      (hrest : rest = ((w.server.threads.written st.id).drop st.consumed).take more)
      (hpart : newline ∉ rest) :
      Effect cfg json accepts w (.lose k more fin)
        { w with
          clients := Function.update w.clients k
            ⟨(handleStream json updateHosts [] (w.clients k).hosts (lastItem rest fin)).1, none⟩ }

theorem effect_of_step {cfg : ServerConfig} {json : SerdeJson} {accepts : ℕ → ℕ → ℕ}
    {w w' : World} {a : Action} (h : step cfg json accepts w a = some w') :
    Effect cfg json accepts w a w' := by
  cases a with
  | server a =>
      obtain ⟨server, hserver, rfl⟩ := Option.map_eq_some_iff.mp h
      exact .moves a server hserver
  | connect k peer =>
      dsimp only [step] at h
      split at h
      · cases h
      · rename_i hidle
        obtain ⟨server, hserver, rfl⟩ := Option.map_eq_some_iff.mp h
        exact .connects k peer server hidle hserver
  | read k =>
      obtain ⟨st, hst, h⟩ := Option.bind_eq_some_iff.mp h
      obtain ⟨c, hread, rfl⟩ := Option.map_eq_some_iff.mp h
      exact .reads k st c hst hread
  | lose k more fin =>
      obtain ⟨st, hst, h⟩ := Option.bind_eq_some_iff.mp h
      dsimp only at h
      split_ifs at h with hpart
      cases h
      exact .loses k more fin st _ hst rfl hpart

/-- What holds of the new client on its connection and held of all holds of all. -/
theorem forall_update {P : Client → Stream → Prop} {clients : ℕ → Client} {k : ℕ} {c : Client}
    (hc : ∀ st, c.stream = some st → P c st)
    (h : ∀ j st, (clients j).stream = some st → P (clients j) st) (j : ℕ) (st : Stream)
    (hst : (Function.update clients k c j).stream = some st) :
    P (Function.update clients k c j) st := by
  by_cases hj : j = k
  · subst hj
    rw [Function.update_self] at hst ⊢
    exact hc st hst
  · rw [Function.update_of_ne hj] at hst ⊢
    exact h j st hst

/-- A hosts file after the messages of a connection. -/
def hostsAfter (hosts : Text) (msgs : List Message) : Text :=
  msgs.foldl (fun hosts msg => (handleMessage updateHosts hosts msg).1) hosts

/-- The block of the last update is in the file; without one the file is unchanged. -/
theorem hostsAfter_spec {hostname : Text} (hosts : Text) (msgs : List Message)
    (h : ∀ u, .ipUpdate u ∈ msgs → u.hostname = hostname) :
    match lastUpdate msgs with
    | none => hostsAfter hosts msgs = hosts
    | some ip => newBlock hostname ip <:+: hostsAfter hosts msgs := by
  induction msgs using List.reverseRecOn with
  | nil => rfl
  | append_singleton msgs msg ih =>
      have hconcat : hostsAfter hosts (msgs ++ [msg]) =
          (handleMessage updateHosts (hostsAfter hosts msgs) msg).1 := by
        simp [hostsAfter]
      rw [lastUpdate_concat, hconcat]
      cases msg with
      | heartbeat => exact ih fun u hu => h u (List.mem_append_left _ hu)
      | ipUpdate u =>
          have hname := h u (List.mem_append_right _ (List.mem_singleton.mpr rfl))
          simp only [handleMessage, updateHosts, hname]
          exact newBlock_infix_replaceOrAppend _ _ _

/-- The broadcasts a client has read on its connection. -/
def readBroadcasts (s : Server) (st : Stream) : List (Message × Option Text) :=
  (s.history.drop (s.threads.joined st.id)).take st.processed

def readMessages (s : Server) (st : Stream) : List Message :=
  (readBroadcasts s st).map Prod.fst

/-- A client's loop is at the end of a whole line, and its hosts file is what the
lines made of it. -/
structure Following (json : SerdeJson) (s : Server) (c : Client) (st : Stream) : Prop where
  known : st.id < s.threads.nextId
  count : s.threads.joined st.id + st.processed ≤ s.history.length
  octets : st.consumed =
    (unlines newline ((readMessages s st).map (jsonBytes json))).length
  hosts : c.hosts = hostsAfter st.before (readMessages s st)

/-- What the server adds never changes what a connection has read. -/
structure Extends (s s' : Server) : Prop where
  nextId : s.threads.nextId ≤ s'.threads.nextId
  joined : ∀ id, id < s.threads.nextId → s'.threads.joined id = s.threads.joined id
  history : s.history <+: s'.history

/-- The main thread is about to broadcast an update. -/
def updating : Main → Bool
  | .broadcasting (.ipUpdate _) => true
  | _ => false

/-- The record grows by the broadcast the main thread is at, or not at all; an update
that is due stays due until then. -/
theorem history_of_step {cfg : ServerConfig} {json : SerdeJson} (hjson : Documented json)
    {accepts : ℕ → ℕ → ℕ} {s s' : Server} {a : ServerLoop.Action}
    (h : ServerLoop.step cfg json accepts s a = some s') :
    (s'.history = s.history ∧ (updating s.main = true → updating s'.main = true)) ∨
      ∃ msg, s.main = .broadcasting msg ∧ s'.history = s.history ++ [(msg, s.lastIp)] := by
  cases ServerLoop.effect_of_step h with
  | accepts | visits => exact .inl ⟨rfl, id⟩
  | changed _ hmain | unchanged _ hmain | undetected _ hmain | heartbeatSent hmain =>
      rw [hmain]
      exact .inl ⟨rfl, fun hdue => by cases hdue⟩
  | unserialized msg _ hline =>
      rw [broadcastLine_eq_jsonBytes hjson] at hline
      cases hline
  | locks msg _ _ hmain => exact .inr ⟨msg, hmain, rfl⟩
  | unlocks _ _ hmain =>
      rw [hmain]
      exact .inl ⟨rfl, fun hdue => by cases hdue⟩

theorem extends_of_step {cfg : ServerConfig} {json : SerdeJson} (hjson : Documented json)
    {accepts : ℕ → ℕ → ℕ} {s s' : Server} {a : ServerLoop.Action}
    (h : ServerLoop.step cfg json accepts s a = some s') : Extends s s' := by
  have hhistory : s.history <+: s'.history := by
    cases history_of_step hjson h with
    | inl hsame => exact hsame.1 ▸ List.prefix_refl _
    | inr hmore =>
        obtain ⟨msg, -, hmore⟩ := hmore
        exact hmore ▸ List.prefix_append _ _
  cases threads_of_step h with
  | inl heq => exact ⟨by rw [heq], fun _ _ => by rw [heq], hhistory⟩
  | inr hb =>
      obtain ⟨b, hb⟩ := hb
      exact ⟨(joined_of_step hb).1, (joined_of_step hb).2, hhistory⟩

section Step
variable {cfg : ServerConfig} {json : SerdeJson} {accepts : ℕ → ℕ → ℕ} {s s' : Server}
variable {c : Client} {st : Stream}

theorem Following.extend (h : Following json s c st) (he : Extends s s') :
    Following json s' c st := by
  have hjoined := he.joined st.id h.known
  obtain ⟨more, hmore⟩ := he.history
  have hread : readBroadcasts s' st = readBroadcasts s st := by
    have hcount := h.count
    unfold readBroadcasts
    rw [hjoined, ← hmore, List.drop_append_of_le_length (by omega),
      List.take_append_of_le_length (by rw [List.length_drop]; omega)]
  have hmessages : readMessages s' st = readMessages s st := by rw [readMessages, hread]; rfl
  constructor
  · exact Nat.lt_of_lt_of_le h.known he.nextId
  · have := h.count
    rw [hjoined, ← hmore, List.length_append]
    omega
  · rw [hmessages]
    exact h.octets
  · rw [hmessages]
    exact h.hosts

/-- The lines written are the printed messages of the record. -/
theorem sent_eq_jsonBytes (hjson : Documented json) (h : Recorded cfg json s) :
    s.threads.sent = s.history.map fun e => jsonBytes json e.1 ++ [newline] := by
  have hlines := h.lines
  have hsome : (s.history.map fun e => broadcastLine json e.1) =
      (s.history.map fun e => jsonBytes json e.1 ++ [newline]).map some := by
    rw [List.map_map]
    apply List.map_congr_left
    intro e _
    exact broadcastLine_eq_jsonBytes hjson e.1
  rw [hsome] at hlines
  exact List.map_injective_iff.mpr (Option.some_injective _) hlines

/-- What has arrived and was not read is a stretch of the lines still to be read. -/
theorem Following.arrived (hjson : Documented json) (hdelivery : Delivery accepts s.threads)
    (hrecorded : Recorded cfg json s) (h : Following json s c st) :
    (s.threads.written st.id).drop st.consumed <+:
      unlines newline ((((s.history.drop (s.threads.joined st.id)).drop st.processed).map
        Prod.fst).map (jsonBytes json)) := by
  have hprefix := (hdelivery.received h.known).prefix_sent.drop st.consumed
  have hsplit : (s.threads.sent.drop (s.threads.joined st.id)).flatten =
      unlines newline ((readMessages s st).map (jsonBytes json)) ++
        unlines newline ((((s.history.drop (s.threads.joined st.id)).drop st.processed).map
          Prod.fst).map (jsonBytes json)) := by
    rw [← unlines_append, readMessages, readBroadcasts, ← List.map_append, ← List.map_append,
      List.take_append_drop, sent_eq_jsonBytes hjson hrecorded, ← List.map_drop, List.map_map, unlines,
      List.flatMap_map]
    rfl
  rw [hsplit, h.octets, List.drop_left] at hprefix
  rw [h.octets]
  exact hprefix

/-- Reading a line takes the next broadcast. -/
theorem Following.readLine (hjson : Documented json) (hdelivery : Delivery accepts s.threads)
    (hrecorded : Recorded cfg json s) (h : Following json s c st) {c' : Client}
    (hread : readLine json c st ((s.threads.written st.id).drop st.consumed) = some c')
    {st' : Stream} (hst : c'.stream = some st') : Following json s c' st' := by
  unfold HostsAgreement.readLine at hread
  split at hread
  · cases hread
  · rename_i line ls hcut
    obtain ⟨tail, htail⟩ := cut_of_prefix_unlines (h.arrived hjson hdelivery hrecorded) (by
      intro l hl
      obtain ⟨msg, -, rfl⟩ := List.mem_map.mp hl
      exact newline_not_mem_jsonBytes hjson msg) hcut
    rw [List.map_map] at htail
    obtain ⟨e, rest, hdrop, rfl, -⟩ := List.map_eq_cons_iff.mp htail
    obtain ⟨text, htext, hline⟩ := terminatedLine_jsonBytes hjson e.1
    rw [Function.comp_apply, hline] at hread
    cases hread
    cases hst
    have htake : (s.history.drop (s.threads.joined st.id)).take (st.processed + 1) =
        readBroadcasts s st ++ [e] := by
      have hget : (s.history.drop (s.threads.joined st.id))[st.processed]? = some e := by
        have := congrArg (·[0]?) hdrop
        simpa using this
      rw [List.take_add_one, hget]
      rfl
    have hmessages : readMessages s { st with
        consumed := st.consumed + ((jsonBytes json e.1).length + 1)
        processed := st.processed + 1 } = readMessages s st ++ [e.1] := by
      simp only [readMessages, readBroadcasts, htake, List.map_append, List.map_cons,
        List.map_nil]
    constructor
    · exact h.known
    · have := congrArg List.length hdrop
      simp only [List.length_drop, List.length_cons] at this
      show s.threads.joined st.id + (st.processed + 1) ≤ s.history.length
      omega
    · rw [hmessages, List.map_append, unlines_append, List.length_append, ← h.octets]
      simp
    · rw [hmessages]
      simp only [handleLine, hjson.readsBack e.1 text htext, h.hosts]
      simp [hostsAfter]

theorem push_of_step {peer : SocketAddr}
    (h : ServerLoop.step cfg json accepts s (.accept (.push peer)) = some s') :
    ∃ clients, s' = { s with threads := s.threads.push clients peer } := by
  cases ServerLoop.effect_of_step h with
  | accepts _ threads _ hthreads =>
      cases Broadcast.effect_of_step hthreads with
      | pushes _ clients => exact ⟨clients, rfl⟩

/-- A connection is pushed at the end of the record. -/
theorem joined_push (hjson : Documented json) (hrecorded : Recorded cfg json s)
    (clients : List ClientConn) (peer : SocketAddr) :
    (s.threads.push clients peer).joined s.threads.nextId = s.history.length := by
  have hself : (s.threads.push clients peer).joined s.threads.nextId = s.threads.sent.length :=
    Function.update_self ..
  rw [hself, sent_eq_jsonBytes hjson hrecorded, List.length_map]

/-- A connection just pushed has nothing to read. -/
theorem following_connect (hjson : Documented json) (hrecorded : Recorded cfg json s)
    {peer : SocketAddr}
    (h : ServerLoop.step cfg json accepts s (.accept (.push peer)) = some s') (c : Client) :
    Following json s' { c with stream := some ⟨s.threads.nextId, 0, 0, c.hosts⟩ }
      ⟨s.threads.nextId, 0, 0, c.hosts⟩ := by
  obtain ⟨clients, rfl⟩ := push_of_step h
  constructor
  · exact Nat.lt_succ_self _
  · show (s.threads.push clients peer).joined s.threads.nextId + 0 ≤ s.history.length
    rw [joined_push hjson hrecorded]
    exact Nat.le_refl _
  · rfl
  · rfl

end Step

/-- The server's record is right and every client follows it. -/
structure Consistent (cfg : ServerConfig) (json : SerdeJson) (accepts : ℕ → ℕ → ℕ)
    (w : World) : Prop where
  delivery : Delivery accepts w.server.threads
  recorded : Recorded cfg json w.server
  following : ∀ k st, (w.clients k).stream = some st → Following json w.server (w.clients k) st

theorem consistent_start (cfg : ServerConfig) (json : SerdeJson) (accepts : ℕ → ℕ → ℕ)
    (files : ℕ → Text) : Consistent cfg json accepts (start cfg files) where
  delivery := ServerLoop.delivery_start accepts cfg
  recorded := recorded_start cfg json
  following := by
    intro k st h
    cases h

section World
variable {cfg : ServerConfig} {json : SerdeJson} {accepts : ℕ → ℕ → ℕ} {w w' : World}

/-- One client changes. -/
theorem Consistent.client (h : Consistent cfg json accepts w) (k : ℕ) {c : Client}
    (hc : ∀ st, c.stream = some st → Following json w.server c st) :
    Consistent cfg json accepts { w with clients := Function.update w.clients k c } where
  delivery := h.delivery
  recorded := h.recorded
  following := forall_update hc h.following

/-- The server changes. -/
theorem Consistent.server (hjson : Documented json) (h : Consistent cfg json accepts w)
    {a : ServerLoop.Action} {s' : Server}
    (hstep : ServerLoop.step cfg json accepts w.server a = some s') :
    Consistent cfg json accepts { w with server := s' } where
  delivery := ServerLoop.delivery_step h.delivery hstep
  recorded := recorded_step (fun msg => by simp [broadcastLine_eq_jsonBytes hjson msg])
    h.recorded hstep
  following := fun k st hst => (h.following k st hst).extend (extends_of_step hjson hstep)

theorem consistent_step (hjson : Documented json) (w : World) (a : Action) (w' : World)
    (h : Consistent cfg json accepts w) (hstep : step cfg json accepts w a = some w') :
    Consistent cfg json accepts w' := by
  cases effect_of_step hstep with
  | moves a server hserver => exact h.server hjson hserver
  | connects k peer server hidle hserver =>
      apply (h.server hjson hserver).client k
      rintro _ ⟨⟩
      exact following_connect hjson h.recorded hserver (w.clients k)
  | reads k st c hst hread =>
      apply h.client k
      intro st' hst'
      exact (h.following k st hst).readLine hjson h.delivery h.recorded hread hst'
  | loses k more fin st rest hst hrest hpart =>
      apply h.client k
      rintro _ ⟨⟩

end World

/-- The broadcast whose line the client read last on its connection. -/
def lastRead (s : Server) (st : Stream) : Option (Message × Option Text) :=
  (readBroadcasts s st).getLast?

/-- Every client whose last line was a heartbeat sent while the server knew an address
has that address's block. -/
def Agrees (cfg : ServerConfig) (w : World) : Prop :=
  ∀ k st ip, (w.clients k).stream = some st →
    lastRead w.server st = some (.heartbeat, some ip) →
      newBlock cfg.hostname ip <:+: (w.clients k).hosts

section Address
variable {cfg : ServerConfig} {json : SerdeJson} {s : Server} {st : Stream} {ip : Text}

/-- The address that went out with a heartbeat is that of the last update read on the
connection or, without one, of the last update before its push. -/
theorem address_of_lastRead (h : Recorded cfg json s)
    (hlast : lastRead s st = some (.heartbeat, some ip)) :
    some ip = (lastUpdate (readMessages s st)).or
      (lastUpdate ((s.history.take (s.threads.joined st.id)).map Prod.fst)) := by
  obtain ⟨front, hfront⟩ := List.getLast?_eq_some_iff.mp hlast
  have hsplit : s.history = (s.history.take (s.threads.joined st.id) ++ front) ++
      (.heartbeat, some ip) :: (s.history.drop (s.threads.joined st.id)).drop st.processed := by
    conv_lhs => rw [← List.take_append_drop (s.threads.joined st.id) s.history,
      ← List.take_append_drop st.processed (s.history.drop _)]
    rw [show (s.history.drop (s.threads.joined st.id)).take st.processed =
      front ++ [(.heartbeat, some ip)] from hfront]
    simp
  have haddress := h.addresses _ _ _ hsplit
  rw [List.append_assoc, ← hfront, List.map_append, lastUpdate_append] at haddress
  exact haddress

theorem Following.block_iff {c : Client} (h : Following json s c st)
    (hrecorded : Recorded cfg json s) (hlast : lastRead s st = some (.heartbeat, some ip)) :
    newBlock cfg.hostname ip <:+: c.hosts ↔
      (∃ u, .ipUpdate u ∈ readMessages s st) ∨ newBlock cfg.hostname ip <:+: st.before := by
  have haddress := address_of_lastRead hrecorded hlast
  have hnames : ∀ u, .ipUpdate u ∈ readMessages s st → u.hostname = cfg.hostname := by
    intro u hu
    obtain ⟨e, he, heq⟩ := List.mem_map.mp hu
    exact hrecorded.hostname e (List.mem_of_mem_drop (List.mem_of_mem_take he)) u heq
  have hspec := hostsAfter_spec st.before (readMessages s st) hnames
  rw [h.hosts, ← lastUpdate_isSome_iff]
  cases hupdate : lastUpdate (readMessages s st) with
  | none =>
      rw [hupdate] at hspec
      rw [hspec]
      simp
  | some last =>
      rw [hupdate] at hspec haddress
      simp only [Option.some_or, Option.some.injEq] at haddress
      rw [haddress]
      simpa using hspec

end Address

/-- A client that connects has the server's address, or an update is due. -/
def Informed (cfg : ServerConfig) (w : World) : Action → Prop
  | .connect k _ => updating w.server.main = true ∨
      ∀ ip ∈ w.server.lastIp, newBlock cfg.hostname ip <:+: (w.clients k).hosts
  | .server _ | .read _ | .lose .. => True

instance (cfg : ServerConfig) (w : World) (a : Action) : Decidable (Informed cfg w a) :=
  match a with
  | .connect _ _ => inferInstanceAs (Decidable (_ ∨ _))
  | .server _ | .read _ | .lose .. => isTrue trivial

/-- What a guarded connect leaves: the connection's hosts file had the address known at
its push, or the first broadcast to it is an update. -/
def Prepared (cfg : ServerConfig) (s : Server) (st : Stream) : Prop :=
  (∀ ip ∈ lastUpdate ((s.history.take (s.threads.joined st.id)).map Prod.fst),
    newBlock cfg.hostname ip <:+: st.before) ∨
  match (s.history.drop (s.threads.joined st.id)).head? with
  | none => updating s.main = true
  | some e => ∃ u, e.1 = .ipUpdate u

section Guard
variable {cfg : ServerConfig} {json : SerdeJson} {accepts : ℕ → ℕ → ℕ} {s s' : Server}
variable {c : Client} {st : Stream}

theorem Prepared.step (hjson : Documented json) (hfollowing : Following json s c st)
    {a : ServerLoop.Action} (h : Prepared cfg s st)
    (hstep : ServerLoop.step cfg json accepts s a = some s') : Prepared cfg s' st := by
  have hextends := extends_of_step hjson hstep
  have hjoined := hextends.joined st.id hfollowing.known
  have hcount := hfollowing.count
  obtain ⟨more, hmore⟩ := hextends.history
  unfold Prepared
  rw [hjoined, ← hmore, List.take_append_of_le_length (by omega),
    List.drop_append_of_le_length (by omega)]
  apply h.imp_right
  intro hfirst
  cases hdrop : s.history.drop (s.threads.joined st.id) with
  | cons e rest =>
      rw [hdrop] at hfirst
      exact hfirst
  | nil =>
      rw [hdrop] at hfirst
      cases history_of_step hjson hstep with
      | inl hsame =>
          have hnil : more = [] := List.append_right_eq_self.mp (hmore.trans hsame.1)
          rw [hnil]
          exact hsame.2 hfirst
      | inr hbroadcast =>
          obtain ⟨msg, hmain, hhistory⟩ := hbroadcast
          have hone : more = [(msg, s.lastIp)] :=
            List.append_cancel_left (hmore.trans hhistory)
          rw [hone]
          rw [hmain] at hfirst
          cases msg with
          | ipUpdate u => exact ⟨u, rfl⟩
          | heartbeat => cases hfirst

/-- A prepared client that has read a heartbeat has the address it went out with. -/
theorem Prepared.block (h : Prepared cfg s st) (hfollowing : Following json s c st)
    (hrecorded : Recorded cfg json s) {ip : Text}
    (hlast : lastRead s st = some (.heartbeat, some ip)) :
    newBlock cfg.hostname ip <:+: c.hosts := by
  rw [hfollowing.block_iff hrecorded hlast]
  cases h with
  | inr hfirst =>
      left
      unfold lastRead readBroadcasts at hlast
      unfold readMessages readBroadcasts
      cases hdrop : s.history.drop (s.threads.joined st.id) with
      | nil => simp [hdrop] at hlast
      | cons e rest =>
          rw [hdrop] at hfirst hlast
          obtain ⟨u, hu⟩ := hfirst
          cases hprocessed : st.processed with
          | zero => simp [hprocessed] at hlast
          | succ n => exact ⟨u, by simp [hu]⟩
  | inl hbefore =>
      have haddress := address_of_lastRead hrecorded hlast
      rw [← lastUpdate_isSome_iff]
      cases hupdate : lastUpdate (readMessages s st) with
      | some last => exact .inl rfl
      | none =>
          rw [hupdate, Option.none_or] at haddress
          exact .inr (hbefore ip haddress.symm)

theorem stream_of_readLine {arrived : Bytes} {c' : Client} {st' : Stream}
    (h : readLine json c st arrived = some c') (hst : c'.stream = some st') :
    st'.id = st.id ∧ st'.before = st.before := by
  unfold readLine at h
  split at h
  · cases h
  · split at h
    · cases h
      cases hst
    · cases h
      cases hst
      exact ⟨rfl, rfl⟩

/-- A connection just pushed is prepared by the guard. -/
theorem prepared_connect (hjson : Documented json) (hrecorded : Recorded cfg json s)
    {peer : SocketAddr}
    (h : ServerLoop.step cfg json accepts s (.accept (.push peer)) = some s')
    (hok : updating s.main = true ∨ ∀ ip ∈ s.lastIp, newBlock cfg.hostname ip <:+: c.hosts) :
    Prepared cfg s' ⟨s.threads.nextId, 0, 0, c.hosts⟩ := by
  obtain ⟨clients, rfl⟩ := push_of_step h
  unfold Prepared
  dsimp only
  rw [joined_push hjson hrecorded, List.take_length, List.drop_length]
  cases hdue : updating s.main with
  | true => exact .inr rfl
  | false =>
      left
      have hlast : s.lastIp = lastUpdate (s.history.map Prod.fst) := by
        have hmain := hrecorded.main
        unfold updating at hdue
        split at hmain
        · rename_i heq
          rw [heq] at hdue
          cases hdue
        · exact hmain
      rw [← hlast]
      exact hok.resolve_left (by simp [hdue])

end Guard

/-- `Consistent`, with every connected client prepared. -/
structure AllPrepared (cfg : ServerConfig) (json : SerdeJson) (accepts : ℕ → ℕ → ℕ)
    (w : World) : Prop extends Consistent cfg json accepts w where
  prepared : ∀ k st, (w.clients k).stream = some st → Prepared cfg w.server st

theorem allPrepared_step {cfg : ServerConfig} {json : SerdeJson} (hjson : Documented json)
    {accepts : ℕ → ℕ → ℕ} (w : World) (a : Action) (w' : World)
    (h : AllPrepared cfg json accepts w) (hok : Informed cfg w a)
    (hstep : step cfg json accepts w a = some w') : AllPrepared cfg json accepts w' := by
  refine ⟨consistent_step hjson w a w' h.toConsistent hstep, ?_⟩
  cases effect_of_step hstep with
  | moves a server hserver =>
      intro k st hst
      exact (h.prepared k st hst).step hjson (h.following k st hst) hserver
  | connects k peer server hidle hserver =>
      apply forall_update (P := fun _ st => Prepared cfg server st)
      · rintro _ ⟨⟩
        exact prepared_connect hjson h.recorded hserver hok
      · intro j st hst
        exact (h.prepared j st hst).step hjson (h.following j st hst) hserver
  | reads k st c hst hread =>
      apply forall_update (P := fun _ st => Prepared cfg w.server st)
      · intro st' hst'
        obtain ⟨hid, hbefore⟩ := stream_of_readLine hread hst'
        have hprepared := h.prepared k st hst
        unfold Prepared at hprepared ⊢
        rw [hid, hbefore]
        exact hprepared
      · exact h.prepared
  | loses k more fin st rest hst hrest hpart =>
      apply forall_update (P := fun _ st => Prepared cfg w.server st)
      · rintro _ ⟨⟩
      · exact h.prepared

/-- In every state of every run, a client that has read a heartbeat has the address it
went out with exactly when an update was broadcast between the push of its connection
and that heartbeat, or its hosts file had the block when the connection was
established. So all clients agree in every run in which each client that connects has
the block of the server's address or an update is due. -/
theorem agreement_of_run (cfg : ServerConfig) (json : SerdeJson) (hjson : Documented json)
    (accepts : ℕ → ℕ → ℕ) (files : ℕ → Text) (actions : List Action) (w : World)
    (h : run (step cfg json accepts) (start cfg files) actions = some w) :
    (∀ k st ip, (w.clients k).stream = some st →
      lastRead w.server st = some (.heartbeat, some ip) →
        (newBlock cfg.hostname ip <:+: (w.clients k).hosts ↔
          (∃ u, .ipUpdate u ∈ readMessages w.server st) ∨
            newBlock cfg.hostname ip <:+: st.before)) ∧
    (Guarded (step cfg json accepts) (Informed cfg) (start cfg files) actions →
      Agrees cfg w) := by
  constructor
  · intro k st ip hst hlast
    have hw : Consistent cfg json accepts w :=
      invariant_run (consistent_step hjson) (consistent_start cfg json accepts files) h
    exact (hw.following k st hst).block_iff hw.recorded hlast
  · intro hok k st ip hst hlast
    have hstart : AllPrepared cfg json accepts (start cfg files) :=
      ⟨consistent_start cfg json accepts files, by
        intro k st hst
        cases hst⟩
    have hw := invariant_guarded (allPrepared_step hjson) hstart hok h
    exact (hw.prepared k st hst).block (hw.following k st hst) hw.recorded hlast

def nasAddress : Ipv4Addr := ⟨192, 168, 1, 7⟩

def laptop : SocketAddr := ⟨⟨192, 168, 1, 20⟩, 40000⟩

/-- The laptop connects before the first poll. -/
def connectedBeforeUpdate : List Action :=
  [.connect 0 laptop, .server (.accept .announce), .server (.poll (.ok nasAddress)),
    .server .lock, .server .visit, .server .unlock, .read 0,
    .server .lock, .server .visit, .server .unlock, .read 0]

theorem connectedBeforeUpdate_agrees : ∃ w st,
    run (step nas compactJson fun _ _ => 1000) (start nas fun _ => []) connectedBeforeUpdate =
        some w ∧
      (w.clients 0).stream = some st ∧
      lastRead w.server st = some (.heartbeat, some nasAddress.toString) ∧
      newBlock nas.hostname nasAddress.toString <:+: (w.clients 0).hosts := by
  have hrun : ∃ w, run (step nas compactJson fun _ _ => 1000) (start nas fun _ => [])
      connectedBeforeUpdate = some w ∧ ∃ st, (w.clients 0).stream = some st ∧
        lastRead w.server st = some (.heartbeat, some nasAddress.toString) := by
    decide +kernel
  obtain ⟨w, hw, st, hst, hlast⟩ := hrun
  have hagreement := agreement_of_run nas compactJson documented_compactJson (fun _ _ => 1000)
    (fun _ => []) connectedBeforeUpdate w hw
  have hagrees : Agrees nas w := hagreement.2 (by decide +kernel)
  exact ⟨w, st, hw, hst, hlast, hagrees 0 st _ hst hlast⟩

/-- The laptop connects after the only update and gets nothing but heartbeats. -/
def connectedAfterUpdate : List Action :=
  [.server (.poll (.ok nasAddress)), .server .lock, .server .unlock,
    .connect 0 laptop, .server (.accept .announce),
    .server .lock, .server .visit, .server .unlock, .read 0]

theorem connectedAfterUpdate_disagrees : ∃ w,
    run (step nas compactJson fun _ _ => 1000) (start nas fun _ => []) connectedAfterUpdate =
      some w ∧ ¬ Agrees nas w := by
  have hrun : ∃ w, run (step nas compactJson fun _ _ => 1000) (start nas fun _ => [])
      connectedAfterUpdate = some w ∧ (∃ st, (w.clients 0).stream = some st ∧
        lastRead w.server st = some (.heartbeat, some nasAddress.toString)) ∧
      ¬ newBlock nas.hostname nasAddress.toString <:+: (w.clients 0).hosts := by
    decide +kernel
  obtain ⟨w, hw, ⟨st, hst, hlast⟩, hmissing⟩ := hrun
  exact ⟨w, hw, fun hagrees => hmissing (hagrees 0 st _ hst hlast)⟩

end DnslessHomelab.HostsAgreement
