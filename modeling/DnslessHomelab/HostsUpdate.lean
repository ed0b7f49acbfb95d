import DnslessHomelab.InodeStore
import DnslessHomelab.ReplaceOrAppend
import DnslessHomelab.Runs
import DnslessHomelab.Utf8

/-!
# Updating the hosts file

`update_hosts_entry` in the steps that other processes and failures can see: read
the hosts file, open and truncate the temporary file in the same directory, write
it in any number of pieces, flush and close it, rename it over the hosts file,
return. Any number of calls may be running, each with its own descriptor. A step
may fail, with the error ending the call, and the process of a call may die. The open
of a name that the file system refuses is one that fails.

`renamed` and `outcomes` record what happened; the code does not read them. Log
lines and error texts of the system are left out.
-/
namespace DnslessHomelab.HostsUpdate
open Protocol ReplaceOrAppend InodeStore Runs

/-- A text free of path separators, so that it can be part of a file name. -/
structure Component where
  text : Text
  plain : '/' ∉ text
  deriving DecidableEq

/-- The temporary file of a hostname, in the directory of the hosts file. -/
def tmpName (hostname : Component) : Component where
  text := ".dnsless-".toList ++ hostname.text ++ ".tmp".toList
  plain := by
    have h := hostname.plain
    simp only [List.mem_append, not_or]
    exact ⟨⟨by decide, h⟩, by decide⟩

abbrev Directory := Disk Component UInt8

structure Request where
  hostname : Component
  ip : Text
  deriving DecidableEq

def Request.update (r : Request) : IpUpdate := ⟨r.hostname.text, r.ip⟩

/-- The text of the hosts file: empty when it does not exist, absent when it is
not UTF-8. -/
def existingOf : Option Bytes → Option Text
  | none => some []
  | some bytes => Utf8.decode bytes

def newContent (existing : Text) (r : Request) : Bytes :=
  Utf8.encode (applyUpdate existing r.update)

/-- Where a call stands, with its local variables. -/
inductive Stage where
  | entered
  | computed (existing : Text)
  | writing (existing : Text) (file written : ℕ)
  | closed (existing : Text)
  | renamed

/-- The local copy of the hosts file's text, from its read to the rename. -/
def Stage.existing : Stage → Option Text
  | .computed existing | .writing existing _ _ | .closed existing => some existing
  | .entered | .renamed => none

inductive Failure where
  | read | utf8 | openTemp | write | flush | rename
  deriving DecidableEq

structure Call where
  request : Request
  before : Option Bytes
  stage : Stage

structure Outcome where
  id : ℕ
  update : IpUpdate
  result : Except Failure Unit
  before : Option Bytes
  after : Option Bytes

structure World where
  disk : Directory
  calls : ℕ → Option Call
  nextId : ℕ
  renamed : List (ℕ × IpUpdate)
  outcomes : List Outcome

def start (disk : Directory) : World := ⟨disk, fun _ => none, 0, [], []⟩

inductive Op where
  | read
  | openTemp
  | write (count : ℕ)
  | flush
  | rename
  | returns
  | fails
  | dies

inductive Action where
  | call (request : Request)
  | at (id : ℕ) (op : Op)

namespace World

def advance (w : World) (id : ℕ) (c : Call) (stage : Stage) : World :=
  { w with calls := Function.update w.calls id (some { c with stage }) }

def remove (w : World) (id : ℕ) : World :=
  { w with calls := Function.update w.calls id none }

/-- The call returns to its caller. -/
def finish (w : World) (hosts : Component) (id : ℕ) (c : Call)
    (result : Except Failure Unit) : World :=
  { w.remove id with
    outcomes := w.outcomes ++ [⟨id, c.request.update, result, c.before, w.disk.read hosts⟩] }

def openTemp (w : World) (id : ℕ) (c : Call) (existing : Text) : World :=
  let tmp := tmpName c.request.hostname
  { w with disk := w.disk.openTruncate tmp }.advance id c
    (.writing existing (w.disk.descriptor tmp) 0)

/-- The next `count` bytes of the content, at the descriptor's own offset. -/
def write (w : World) (id : ℕ) (c : Call) (existing : Text) (file written count : ℕ) : World :=
  let chunk := ((newContent existing c.request).drop written).take count
  { w with disk := w.disk.writeAt 0 file written chunk }.advance id c
    (.writing existing file (written + count))

def publish (w : World) (hosts : Component) (id : ℕ) (c : Call) : World :=
  { w with
    disk := w.disk.rename (tmpName c.request.hostname) hosts
    renamed := w.renamed ++ [(id, c.request.update)] }.advance id c .renamed

end World

/-- What an operating-system error at this point is reported as. The existence
test hides a missing hosts file, so that reading one cannot fail. -/
def failureAt (present : Bool) (c : Call) : Option Failure :=
  match c.stage with
  | .entered => if present then some .read else none
  | .computed _ => some .openTemp
  | .writing existing _ written =>
      if written < (newContent existing c.request).length then some .write else some .flush
  | .closed _ => some .rename
  | .renamed => none

/-- One step of a running call. Renaming a temporary file that is gone is an error. -/
def callStep (hosts : Component) (w : World) (id : ℕ) (c : Call) (op : Op) : Option World :=
  match op, c.stage with
  | .read, .entered =>
      match existingOf (w.disk.read hosts) with
      | none => some (w.finish hosts id c (.error .utf8))
      | some existing => some (w.advance id c (.computed existing))
  | .openTemp, .computed existing => some (w.openTemp id c existing)
  | .write count, .writing existing file written =>
      if 0 < count ∧ written + count ≤ (newContent existing c.request).length then
        some (w.write id c existing file written count)
      else none
  | .flush, .writing existing _ written =>
      if written = (newContent existing c.request).length then
        some (w.advance id c (.closed existing))
      else none
  | .rename, .closed _ =>
      match w.disk.inode (tmpName c.request.hostname) with
      | none => some (w.finish hosts id c (.error .rename))
      | some _ => some (w.publish hosts id c)
  | .returns, .renamed => some (w.finish hosts id c (.ok ()))
  | .fails, _ =>
      (failureAt (w.disk.read hosts).isSome c).map fun failure =>
        w.finish hosts id c (.error failure)
  | .dies, _ => some (w.remove id)
  | _, _ => none

def step (hosts : Component) (w : World) : Action → Option World
  | .call request =>
      some { w with
        calls := Function.update w.calls w.nextId
          (some ⟨request, w.disk.read hosts, .entered⟩)
        nextId := w.nextId + 1 }
  | .at id op => (w.calls id).bind fun c => callStep hosts w id c op

/-- Everything a running call can do, with what it rests on. -/
inductive Effect (hosts : Component) (w : World) (id : ℕ) (c : Call) : Op → World → Prop
  | reads (existing : Text) (hstage : c.stage = .entered)
      (hread : existingOf (w.disk.read hosts) = some existing) :
      Effect hosts w id c .read (w.advance id c (.computed existing))
  | opens (existing : Text) (hstage : c.stage = .computed existing) :
      Effect hosts w id c .openTemp (w.openTemp id c existing)
  | writes (existing : Text) (file written count : ℕ)
      (hstage : c.stage = .writing existing file written) (hpos : 0 < count)
      (hcount : written + count ≤ (newContent existing c.request).length) :
      Effect hosts w id c (.write count) (w.write id c existing file written count)
  | flushes (existing : Text) (file : ℕ)
      (hstage : c.stage = .writing existing file (newContent existing c.request).length) :
      Effect hosts w id c .flush (w.advance id c (.closed existing))
  | renames (existing : Text) (i : ℕ) (hstage : c.stage = .closed existing)
      (hinode : w.disk.inode (tmpName c.request.hostname) = some i) :
      Effect hosts w id c .rename (w.publish hosts id c)
  | returns (hstage : c.stage = .renamed) :
      Effect hosts w id c .returns (w.finish hosts id c (.ok ()))
  | fails (op : Op) (failure : Failure) (hstage : c.stage ≠ .renamed) :
      Effect hosts w id c op (w.finish hosts id c (.error failure))
  | dies : Effect hosts w id c .dies (w.remove id)

theorem effect_of_callStep {hosts : Component} {w w' : World} {id : ℕ} {c : Call} {op : Op}
    (h : callStep hosts w id c op = some w') : Effect hosts w id c op w' := by
  unfold callStep at h
  split at h
  · rename_i hstage
    split at h
    · cases h
      exact .fails _ _ (by simp [hstage])
    · rename_i existing hread
      cases h
      exact .reads existing hstage hread
  · rename_i existing hstage
    cases h
    exact .opens existing hstage
  · rename_i count existing file written hstage
    split_ifs at h with hcount
    cases h
    exact .writes existing file written count hstage hcount.1 hcount.2
  · rename_i existing file written hstage
    split_ifs at h with hwritten
    cases h
    exact .flushes existing file (hwritten ▸ hstage)
  · rename_i existing hstage
    split at h
    · cases h
      exact .fails _ _ (by simp [hstage])
    · rename_i i hinode
      cases h
      exact .renames existing i hstage hinode
  · rename_i hstage
    cases h
    exact .returns hstage
  · obtain ⟨failure, hfailure, rfl⟩ := Option.map_eq_some_iff.mp h
    apply Effect.fails
    intro hstage
    simp [failureAt, hstage] at hfailure
  · cases h
    exact .dies
  · cases h

end DnslessHomelab.HostsUpdate
