import Mathlib.Logic.Function.Basic
import DnslessHomelab.Protocol
import DnslessHomelab.Runs
import DnslessHomelab.Utf8

/-!
# The server's two threads around the client list

The accept thread pushes a connection under the lock and later, without it, reports
the client. The main thread broadcasts: it serializes the message, takes the lock,
writes the line to every connection in list order and drops those whose write
fails, reporting each at once. Pushes wait for the lock, reports do not.

`accepts c i` is how many octets of the `i`-th broadcast line the connection `c`
takes before its write fails; the write succeeds when that is the whole line.
`sent` and `joined` record the lines of the broadcasts that took the lock and how
many there were when a connection was pushed. The reader threads only log.
-/
namespace DnslessHomelab.Broadcast
open Protocol

/-- The line a broadcast writes; nothing when the message cannot be serialized. -/
def broadcastLine (json : SerdeJson) (msg : Message) : Option Bytes :=
  match json.toString msg with
  | .error _ => none
  | .ok text => some (Utf8.encode (text ++ ['\n']))

structure ClientConn where
  id : ℕ
  peer : SocketAddr
  deriving DecidableEq, Repr

/-- The shared list behind its lock. The holder has a line to write, connections
that stay and connections still to be written to. -/
inductive ClientList where
  | free (clients : List ClientConn)
  | held (line : Bytes) (kept rest : List ClientConn)

namespace ClientList

def listed : ClientList → List ClientConn
  | .free clients => clients
  | .held _ kept rest => kept ++ rest

/-- Connections the ongoing broadcast has not come to. -/
def awaiting : ClientList → List ClientConn
  | .free _ => []
  | .held _ _ rest => rest

end ClientList

structure Threads where
  list : ClientList
  /-- A connection pushed by the accept thread and not yet reported. -/
  accepting : Option SocketAddr
  nextId : ℕ
  written : ℕ → Bytes
  events : List ServerEvent
  sent : List Bytes
  joined : ℕ → ℕ

def start : Threads := ⟨.free [], none, 0, fun _ => [], [], [], fun _ => 0⟩

/-- Events that say a client came or went. -/
def aboutClient : ServerEvent → Bool
  | .clientConnected _ | .clientDisconnected _ => true
  | .listening _ | .ipChanged .. | .heartbeatSent | .pollUnchanged _ | .error _ => false

inductive Action where
  | push (peer : SocketAddr)
  | announce
  | cloneFails
  | acceptFails (error : Text)
  | broadcast (msg : Message)
  | visit
  | unlock
  | report (ev : ServerEvent)

namespace Threads

def push (t : Threads) (clients : List ClientConn) (peer : SocketAddr) : Threads :=
  { t with
    list := .free (clients ++ [⟨t.nextId, peer⟩])
    accepting := some peer
    nextId := t.nextId + 1
    joined := Function.update t.joined t.nextId t.sent.length }

def emit (t : Threads) (ev : ServerEvent) : Threads := { t with events := t.events ++ [ev] }

/-- What the connection takes of the line of the ongoing broadcast. -/
def write (t : Threads) (accepts : ℕ → ℕ → ℕ) (line : Bytes) (c : ClientConn) : Threads :=
  let taken := line.take (accepts c.id (t.sent.length - 1))
  { t with written := Function.update t.written c.id (t.written c.id ++ taken) }

@[simp] theorem emit_list (t : Threads) (ev : ServerEvent) : (t.emit ev).list = t.list := rfl

@[simp] theorem write_events (t : Threads) (accepts : ℕ → ℕ → ℕ) (line : Bytes)
    (c : ClientConn) : (t.write accepts line c).events = t.events := rfl

end Threads

/-- The whole line is written to the connection. -/
def writes (accepts : ℕ → ℕ → ℕ) (t : Threads) (line : Bytes) (c : ClientConn) : Prop :=
  line.length ≤ accepts c.id (t.sent.length - 1)

instance (accepts : ℕ → ℕ → ℕ) (t : Threads) (line : Bytes) (c : ClientConn) :
    Decidable (writes accepts t line c) :=
  inferInstanceAs (Decidable (_ ≤ _))

def step (json : SerdeJson) (accepts : ℕ → ℕ → ℕ) (t : Threads) (a : Action) :
    Option Threads :=
  match a, t.list, t.accepting with
  | .push peer, .free clients, none => some (t.push clients peer)
  | .announce, _, some peer => some { t.emit (.clientConnected peer) with accepting := none }
  | .cloneFails, _, none => some t
  | .acceptFails error, _, none => some (t.emit (.error ("Accept error: ".toList ++ error)))
  | .broadcast msg, .free clients, _ =>
      match broadcastLine json msg with
      | none => some t
      | some line => some { t with list := .held line [] clients, sent := t.sent ++ [line] }
  | .visit, .held line kept (c :: rest), _ =>
      if writes accepts t line c then
        some { t.write accepts line c with list := .held line (kept ++ [c]) rest }
      else
        some { (t.write accepts line c).emit (.clientDisconnected c.peer) with
          list := .held line kept rest }
  | .unlock, .held _ kept [], _ => some { t with list := .free kept }
  | .report ev, _, _ => if aboutClient ev then none else some (t.emit ev)
  | _, _, _ => none

/-- Everything a step can do, with what it rests on. -/
inductive Effect (json : SerdeJson) (accepts : ℕ → ℕ → ℕ) (t : Threads) :
    Action → Threads → Prop
  | pushes (peer : SocketAddr) (clients : List ClientConn) (hlist : t.list = .free clients)
      (haccepting : t.accepting = none) : Effect json accepts t (.push peer) (t.push clients peer)
  | announces (peer : SocketAddr) (haccepting : t.accepting = some peer) :
      Effect json accepts t .announce { t.emit (.clientConnected peer) with accepting := none }
  | cloneFails : Effect json accepts t .cloneFails t
  | acceptFails (error : Text) : Effect json accepts t (.acceptFails error)
      (t.emit (.error ("Accept error: ".toList ++ error)))
  | unserialized (msg : Message) (hline : broadcastLine json msg = none) :
      Effect json accepts t (.broadcast msg) t
  | reports (ev : ServerEvent) (hev : aboutClient ev = false) :
      Effect json accepts t (.report ev) (t.emit ev)
  | locks (msg : Message) (clients : List ClientConn) (line : Bytes)
      (hlist : t.list = .free clients) (hline : broadcastLine json msg = some line) :
      Effect json accepts t (.broadcast msg)
        { t with list := .held line [] clients, sent := t.sent ++ [line] }
  | keeps (line : Bytes) (kept rest : List ClientConn) (c : ClientConn)
      (hlist : t.list = .held line kept (c :: rest)) (hwrites : writes accepts t line c) :
      Effect json accepts t .visit
        { t.write accepts line c with list := .held line (kept ++ [c]) rest }
  | drops (line : Bytes) (kept rest : List ClientConn) (c : ClientConn)
      (hlist : t.list = .held line kept (c :: rest)) (hwrites : ¬ writes accepts t line c) :
      Effect json accepts t .visit
        { (t.write accepts line c).emit (.clientDisconnected c.peer) with
          list := .held line kept rest }
  | unlocks (line : Bytes) (kept : List ClientConn) (hlist : t.list = .held line kept []) :
      Effect json accepts t .unlock { t with list := .free kept }

theorem effect_of_step {json : SerdeJson} {accepts : ℕ → ℕ → ℕ} {t t' : Threads} {a : Action}
    (h : step json accepts t a = some t') : Effect json accepts t a t' := by
  unfold step at h
  split at h
  · rename_i peer clients hlist haccepting
    cases h
    exact .pushes peer clients hlist haccepting
  · rename_i peer haccepting
    cases h
    exact .announces peer haccepting
  · cases h
    exact .cloneFails
  · cases h
    exact .acceptFails _
  · rename_i msg clients hlist
    split at h
    · rename_i hline
      cases h
      exact .unserialized msg hline
    · rename_i line hline
      cases h
      exact .locks msg clients line hlist hline
  · rename_i line kept c rest hlist
    split_ifs at h with hwrites
    · cases h
      exact .keeps line kept rest c hlist hwrites
    · cases h
      exact .drops line kept rest c hlist hwrites
  · rename_i line kept hlist
    cases h
    exact .unlocks line kept hlist
  · split_ifs at h with hev
    cases h
    exact .reports _ (by simpa using hev)
  · cases h

/-- Events are only added: about a client, about a failed accept, or as asked for. -/
theorem events_of_step {json : SerdeJson} {accepts : ℕ → ℕ → ℕ} {t t' : Threads} {a : Action}
    (h : step json accepts t a = some t') :
    ∃ new, t'.events = t.events ++ new ∧ ∀ ev ∈ new, aboutClient ev = true ∨
      (∃ error, ev = .error ("Accept error: ".toList ++ error)) ∨ a = .report ev := by
  cases effect_of_step h with
  | pushes | cloneFails | unserialized | locks | keeps | unlocks =>
      exact ⟨[], (List.append_nil _).symm, by simp⟩
  | announces peer =>
      refine ⟨[.clientConnected peer], rfl, ?_⟩
      intro ev hev
      exact .inl (List.mem_singleton.mp hev ▸ rfl)
  | acceptFails error =>
      refine ⟨_, rfl, ?_⟩
      intro ev hev
      exact .inr (.inl ⟨error, List.mem_singleton.mp hev⟩)
  | reports ev =>
      refine ⟨_, rfl, ?_⟩
      intro e he
      exact .inr (.inr (List.mem_singleton.mp he ▸ rfl))
  | drops line kept rest c =>
      refine ⟨[.clientDisconnected c.peer], rfl, ?_⟩
      intro ev hev
      exact .inl (List.mem_singleton.mp hev ▸ rfl)

end DnslessHomelab.Broadcast
