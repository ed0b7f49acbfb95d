import DnslessHomelab.AppliedUpdates
import DnslessHomelab.PendingUpdates

/-!
# Reading a connection

A client's side of one connection to the server: which broadcasts it has passed, which it
reads next, and what it still makes of the octets that arrive before the connection ends.
-/
namespace DnslessHomelab.Connections
open Protocol LineText Runs ClientStream MessageText WireFraming Broadcast BroadcastDelivery
open ClientProcess (parsed)
open PendingUpdates (updateRead)
open HostsAgreement (Stream Following hostsAfter readMessages)
open AppliedUpdates (updatesIn updatesIn_append)
open ServerLoop (ServerConfig Server Recorded)
open Utf8 (newline)

/-- A client's side of a connection: the octets and lines read so far. -/
structure Connection where
  id : ℕ
  consumed : ℕ
  processed : ℕ

/-- How the line iterator goes on when the connection ends after these octets. -/
def ending (rest : Bytes) (fin : ReadEnd) : ClientLoop.Action :=
  match lastItem rest fin with
  | [] => .ended
  | item :: _ => .line item

/-- The connection after a line; one that is not UTF-8 ends it. -/
def afterLine (c : Connection) (line : Bytes) : Option Connection :=
  match terminatedLine line with
  | .error _ => none
  | .ok _ => some { c with
      consumed := c.consumed + (line.length + 1)
      processed := c.processed + 1 }

/-- What has arrived on a connection and was not read. -/
def arrived (s : Server) (c : Connection) : Bytes := (s.threads.written c.id).drop c.consumed

section Reading
variable {cfg : ServerConfig} {json : SerdeJson} {accepts : ℕ → ℕ → ℕ} {s s' : Server}
variable {c : Connection}

def Connection.stream (c : Connection) : Stream := ⟨c.id, c.consumed, c.processed, []⟩

/-- The client is at the end of a whole line. -/
def Reading (json : SerdeJson) (s : Server) (c : Connection) : Prop :=
  Following json s ⟨hostsAfter [] (readMessages s c.stream), some c.stream⟩ c.stream

theorem Reading.extend (h : Reading json s c) (he : HostsAgreement.Extends s s') :
    Reading json s' c := by
  have hfollowing := Following.extend h he
  exact ⟨hfollowing.known, hfollowing.count, hfollowing.octets, rfl⟩

theorem reading_connect (hjson : Documented json) (hrecorded : Recorded cfg json s)
    {peer : SocketAddr}
    (h : ServerLoop.step cfg json accepts s (.accept (.push peer)) = some s') :
    Reading json s' ⟨s.threads.nextId, 0, 0⟩ := by
  have hfollowing := HostsAgreement.following_connect hjson hrecorded h ⟨[], none⟩
  exact ⟨hfollowing.known, hfollowing.count, hfollowing.octets, rfl⟩

/-- The broadcasts the client has not read. -/
def unread (s : Server) (c : Connection) : List Message :=
  ((s.history.drop (s.threads.joined c.id)).drop c.processed).map Prod.fst

/-- A whole line is the next broadcast. -/
theorem Reading.next (hjson : Documented json) (hdelivery : Delivery accepts s.threads)
    (hrecorded : Recorded cfg json s) (h : Reading json s c) {line : Bytes} {ls : List Bytes}
    (hcut : (cut newline (arrived s c)).1 = line :: ls) :
    ∃ msg text rest, unread s c = msg :: rest ∧ terminatedLine line = .ok text ∧
      json.fromStr text = .ok msg ∧
      Reading json s
        ⟨c.id, c.consumed + (line.length + 1), c.processed + 1⟩ := by
  have harrived : arrived s c <+: unlines newline ((unread s c).map (jsonBytes json)) :=
    Following.arrived hjson hdelivery hrecorded h
  obtain ⟨tail, htail⟩ := cut_of_prefix_unlines harrived (by
    intro l hl
    obtain ⟨msg, -, rfl⟩ := List.mem_map.mp hl
    exact newline_not_mem_jsonBytes hjson msg) hcut
  obtain ⟨msg, rest, hunread, rfl, -⟩ := List.map_eq_cons_iff.mp htail
  obtain ⟨text, htext, hline⟩ := terminatedLine_jsonBytes hjson msg
  refine ⟨msg, text, rest, hunread, hline, hjson.readsBack msg text htext, ?_⟩
  have hread : HostsAgreement.readLine json
      ⟨hostsAfter [] (readMessages s c.stream), some c.stream⟩ c.stream (arrived s c) =
        some ⟨(handleLine json HostsAgreement.updateHosts
            (hostsAfter [] (readMessages s c.stream)) text).1,
          some ⟨c.id, c.consumed + ((jsonBytes json msg).length + 1), c.processed + 1, []⟩⟩ := by
    unfold HostsAgreement.readLine
    rw [hcut]
    dsimp only
    rw [hline]
    rfl
  have hfollowing := Following.readLine hjson hdelivery hrecorded h hread rfl
  exact ⟨hfollowing.known, hfollowing.count, hfollowing.octets, rfl⟩

/-- The updates that were broadcast before what the client reads next. -/
def passed (s : Server) : Option Connection → List IpUpdate
  | none => updatesIn (s.history.map Prod.fst)
  | some c => updatesIn ((s.history.take (s.threads.joined c.id + c.processed)).map Prod.fst)

theorem passed_append_unread (s : Server) (c : Connection) :
    passed s (some c) ++ updatesIn (unread s c) = updatesIn (s.history.map Prod.fst) := by
  rw [passed, unread, ← updatesIn_append, List.drop_drop, ← List.map_append, List.take_append_drop]

theorem passed_sublist (s : Server) (connection : Option Connection) :
    (passed s connection).Sublist (updatesIn (s.history.map Prod.fst)) := by
  cases connection with
  | none => exact List.Sublist.refl _
  | some c =>
      rw [← passed_append_unread s c]
      exact List.sublist_append_left _ _

theorem passed_next {msg : Message} {rest : List Message} (h : unread s c = msg :: rest)
    (consumed : ℕ) :
    passed s (some ⟨c.id, consumed, c.processed + 1⟩) =
      passed s (some c) ++ updatesIn [msg] := by
  have hnext : ((s.history.map Prod.fst).drop (s.threads.joined c.id + c.processed))[0]? =
      some msg := by
    rw [← List.map_drop, ← List.drop_drop]
    exact congrArg (·[0]?) h
  rw [List.getElem?_drop, Nat.add_zero] at hnext
  simp only [passed, List.map_take]
  rw [← Nat.add_assoc, List.take_add_one, hnext, updatesIn_append]
  rfl

/-- A connection starts behind all broadcasts so far. -/
theorem passed_connect (hjson : Documented json) (hrecorded : Recorded cfg json s)
    {peer : SocketAddr}
    (h : ServerLoop.step cfg json accepts s (.accept (.push peer)) = some s') :
    passed s' (some ⟨s.threads.nextId, 0, 0⟩) = passed s' none := by
  obtain ⟨clients, rfl⟩ := HostsAgreement.push_of_step h
  simp only [passed, HostsAgreement.joined_push hjson hrecorded, Nat.add_zero, List.take_length]

theorem passed_append_update {u : IpUpdate} {rest : List Message}
    (h : unread s c = .ipUpdate u :: rest) :
    (passed s (some c) ++ [u]).Sublist (passed s none) := by
  have hsplit : passed s (some c) ++ (u :: updatesIn rest) = passed s none := by
    rw [passed, ← passed_append_unread s c, h]
    rfl
  rw [← hsplit]
  exact (List.Sublist.refl _).append (List.singleton_sublist.mpr (List.mem_cons_self ..))

theorem passed_extend (he : HostsAgreement.Extends s s') {connection : Option Connection}
    (hreading : ∀ c, connection = some c → Reading json s c) :
    (passed s connection).Sublist (passed s' connection) := by
  cases connection with
  | none => exact (he.history.sublist.map _).filterMap _
  | some c =>
      have hknown := (hreading c rfl).known
      dsimp only [passed]
      rw [he.joined c.id hknown]
      exact ((he.history.take _).sublist.map _).filterMap _

theorem updateRead_line {text : Text} {msg : Message} (h : json.fromStr text = .ok msg)
    (phase : ClientLoop.Phase) :
    (updateRead json phase (.line (.ok text))).Sublist (updatesIn [msg]) := by
  unfold updateRead
  cases hparsed : parsed json phase (.line (.ok text)) with
  | none => exact List.nil_sublist _
  | some r =>
      obtain ⟨hline, -, hread⟩ := ClientProcess.parsed_eq_some hparsed
      cases hline
      rw [h] at hread
      cases hread
      exact List.Sublist.refl _

/-- An update told by an unterminated last line is that of the next broadcast. -/
theorem update_of_ending (hjson : Documented json) {msg : Message} {rest : Bytes}
    (hrest : rest <+: jsonBytes json msg) {fin : ReadEnd} {phase : ClientLoop.Phase} {raw : Text}
    {u : IpUpdate} (h : parsed json phase (ending rest fin) = some (raw, u)) :
    msg = .ipUpdate u := by
  obtain ⟨hending, -, hread⟩ := ClientProcess.parsed_eq_some h
  have hitem : lastItem rest fin = [.ok raw] := by
    unfold ending at hending
    unfold lastItem at hending ⊢
    cases fin with
    | readError => cases hending
    | endOfStream =>
        dsimp only at hending ⊢
        split_ifs at hending ⊢
        exact congrArg (fun item => [item]) (ClientLoop.Action.line.inj hending)
  have hupdate := AppliedUpdates.handleStream_lastItem hjson
    (fun (us : List IpUpdate) hostname ip => (us ++ [⟨hostname, ip⟩], .ok ())) [] hrest fin []
  rw [hitem] at hupdate
  cases msg with
  | heartbeat => simp [handleStream, handleLine, hread, handleMessage] at hupdate
  | ipUpdate v =>
      simp only [handleStream, handleLine, hread, handleMessage, List.nil_append,
        List.cons_ne_nil, List.cons.injEq, and_true, false_or] at hupdate
      exact congrArg Message.ipUpdate hupdate.symm

/-- What a connection still brought in when it ended is the next broadcast, if it is an
update at all. -/
theorem Reading.atEnd (hjson : Documented json) (hdelivery : Delivery accepts s.threads)
    (hrecorded : Recorded cfg json s) (h : Reading json s c) {more : ℕ}
    (hpart : newline ∉ (arrived s c).take more) (fin : ReadEnd) (phase : ClientLoop.Phase) :
    (passed s (some c) ++ updateRead json phase (ending ((arrived s c).take more) fin)).Sublist
      (passed s none) := by
  have hprefix : (arrived s c).take more <+: unlines newline ((unread s c).map (jsonBytes json)) :=
    (List.take_prefix ..).trans (Following.arrived hjson hdelivery hrecorded h)
  unfold updateRead
  cases hparsed : parsed json phase (ending ((arrived s c).take more) fin) with
  | none =>
      rw [Option.map_none, Option.getD_none, List.append_nil]
      exact passed_sublist s (some c)
  | some r =>
      cases hunread : unread s c with
      | nil =>
          rw [hunread] at hprefix
          rw [List.prefix_nil.mp hprefix] at hparsed
          cases fin <;> cases hparsed
      | cons msg rest =>
          rw [hunread] at hprefix
          have hmsg := update_of_ending hjson (prefix_line hprefix hpart) hparsed
          exact passed_append_update (hmsg ▸ hunread)

end Reading

end DnslessHomelab.Connections
