import DnslessHomelab.ClientLoop
import DnslessHomelab.HostsCrash

/-!
# The client process

The client loop with each update of the hosts file taken in the steps of
`update_hosts_entry`, any of which may fail. It refines the loop whose updates are one
step with the outcomes the calls have had: the line of an update is handled there when
the call returns. So what is proved of the loop holds of the process, and a process that
is killed at any point leaves a hosts file that its events account for.

A hostname that does not fit into the name of a file has no temporary file: such a call
gets no further than the open, and fails. For a slash this supposes that no directory is
named like what stands in front of it. Stale temporary files may hold anything; none of
them has the name of the hosts file.
-/
namespace DnslessHomelab.ClientProcess
open Protocol Runs ReplaceOrAppend ClientStream HostsUpdate HostsConcurrent HostsCrash
open ClientLoop (Client Phase nasClient)
open ClientPanel.ClientState (updated?)

/-- `.dnsless-{hostname}.tmp` can be the name of a file: no separator, no NUL, and at most
255 octets. -/
structure FitsFileName (hostname : Text) : Prop where
  separator : '/' ∉ hostname
  nul : '\x00' ∉ hostname
  short : (Utf8.encode (".dnsless-".toList ++ hostname ++ ".tmp".toList)).length ≤ 255

instance (hostname : Text) : Decidable (FitsFileName hostname) :=
  decidable_of_iff ('/' ∉ hostname ∧ '\x00' ∉ hostname ∧
      (Utf8.encode (".dnsless-".toList ++ hostname ++ ".tmp".toList)).length ≤ 255)
    ⟨fun h => ⟨h.1, h.2.1, h.2.2⟩, fun h => ⟨h.separator, h.nul, h.short⟩⟩

/-- The call that is running, and the line it was made for. A stranded one has no temporary
file to open; it may have read the hosts file. -/
inductive Running where
  | call (id : ℕ) (raw : Text)
  | stranded (u : IpUpdate) (hasRead : Bool) (raw : Text)

def Running.raw : Running → Text
  | .call _ raw => raw
  | .stranded _ _ raw => raw

/-- `results` records how the calls so far have ended; the code does not read it. -/
structure Process where
  files : HostsUpdate.World
  phase : Phase
  updating : Option Running
  events : List ClientEvent
  results : List (Except Failure Unit)

inductive Action where
  | loop (a : ClientLoop.Action)
  | file (op : Op)

def start (cfg : ClientConfig) (disk : Directory) : Process :=
  ⟨HostsUpdate.start disk, .connecting, none, [.connecting cfg.serverAddr], []⟩

/-- The update of a line that the loop reads. -/
def parsed (json : SerdeJson) (phase : Phase) : ClientLoop.Action → Option (Text × IpUpdate)
  | .line (.ok raw) =>
      match phase, json.fromStr raw with
      | .reading, .ok (.ipUpdate u) => some (raw, u)
      | _, _ => none
  | .line (.error _) | .connected | .refused _ | .ended | .retry => none

/-- The request of an update, unless its hostname does not fit. -/
def requestOf (u : IpUpdate) : Option Request :=
  if h : FitsFileName u.hostname then some ⟨⟨u.hostname, h.separator⟩, u.ip⟩ else none

/-- What the loop tells about a call that has returned. -/
def outcomeEvent (errorText : Failure → Text) (u : IpUpdate) (result : Except Failure Unit) :
    ClientEvent :=
  match result with
  | .ok _ => .hostsFileUpdated u.hostname u.ip
  | .error failure => .hostsFileError u.hostname u.ip (errorText failure)

/-- What a stranded call can do: go on, or end with a failure. -/
def strandedStep (hosts : Component) (disk : Directory) (hasRead : Bool) :
    Op → Option (Option Failure)
  | .read =>
      if hasRead then none
      else
        match existingOf (disk.read hosts) with
        | none => some (some .utf8)
        | some _ => some none
  | .fails =>
      if hasRead then some (some .openTemp)
      else if (disk.read hosts).isSome then some (some .read)
      else none
  | .openTemp | .write _ | .flush | .rename | .returns | .dies => none

namespace Process

/-- A call has gone on, and has perhaps returned. -/
def proceed (p : Process) (errorText : Failure → Text) (id : ℕ) (raw : Text)
    (files : HostsUpdate.World) : Process :=
  let returned := files.outcomes.drop p.files.outcomes.length
  { p with
    files
    updating := if (files.calls id).isSome then some (.call id raw) else none
    events := p.events ++ returned.map fun o => outcomeEvent errorText o.update o.result
    results := p.results ++ returned.map Outcome.result }

/-- A stranded call has read the hosts file, or failed. -/
def proceedStranded (p : Process) (errorText : Failure → Text) (u : IpUpdate) (raw : Text) :
    Option Failure → Process
  | none => { p with updating := some (.stranded u true raw) }
  | some failure =>
      { p with
        updating := none
        events := p.events ++ [outcomeEvent errorText u (.error failure)]
        results := p.results ++ [.error failure] }

end Process

section Step
variable (cfg : ClientConfig) (json : SerdeJson) (hosts : Component) (errorText : Failure → Text)

/-- A step of the loop itself; its update is not reached. -/
def loopStep (p : Process) (a : ClientLoop.Action) : Option Process :=
  (ClientLoop.step cfg json (fun (s : Unit) _ _ => (s, .ok ())) ⟨(), p.phase, p.events⟩ a).map
    fun c => { p with phase := c.phase, events := c.events }

def step (p : Process) : Action → Option Process
  | .loop a =>
      match p.updating with
      | some _ => none
      | none =>
          match parsed json p.phase a with
          | none => loopStep cfg json p a
          | some (raw, u) =>
              let events := p.events ++ [.ipUpdateReceived u.hostname u.ip]
              match requestOf u with
              | none => some { p with updating := some (.stranded u false raw), events }
              | some request =>
                  (soloStep hosts p.files (.call request)).map fun files =>
                    { p with files, updating := some (.call p.files.nextId raw), events }
  | .file .dies => none
  | .file op =>
      match p.updating with
      | none => none
      | some (.call id raw) =>
          (soloStep hosts p.files (.at id op)).map (p.proceed errorText id raw)
      | some (.stranded u hasRead raw) =>
          (strandedStep hosts p.files.disk hasRead op).map (p.proceedStranded errorText u raw)

end Step

/-- Everything a step can do. -/
inductive Effect (cfg : ClientConfig) (json : SerdeJson) (hosts : Component)
    (errorText : Failure → Text) (p : Process) : Action → Process → Prop
  | loops (a : ClientLoop.Action) (c : Client Unit) (hidle : p.updating = none)
      (hparsed : parsed json p.phase a = none)
      (hloop : ClientLoop.step cfg json (fun (s : Unit) _ _ => (s, .ok ()))
        ⟨(), p.phase, p.events⟩ a = some c) :
      Effect cfg json hosts errorText p (.loop a) { p with phase := c.phase, events := c.events }
  | calls (a : ClientLoop.Action) (raw : Text) (u : IpUpdate) (request : Request)
      (files : HostsUpdate.World) (hidle : p.updating = none)
      (hparsed : parsed json p.phase a = some (raw, u)) (hrequest : request.update = u)
      (hcall : soloStep hosts p.files (.call request) = some files) :
      Effect cfg json hosts errorText p (.loop a)
        { p with
          files
          updating := some (.call p.files.nextId raw)
          events := p.events ++ [.ipUpdateReceived u.hostname u.ip] }
  | strands (a : ClientLoop.Action) (raw : Text) (u : IpUpdate) (hidle : p.updating = none)
      (hparsed : parsed json p.phase a = some (raw, u)) (hunfit : ¬ FitsFileName u.hostname) :
      Effect cfg json hosts errorText p (.loop a)
        { p with
          updating := some (.stranded u false raw)
          events := p.events ++ [.ipUpdateReceived u.hostname u.ip] }
  | works (op : Op) (id : ℕ) (raw : Text) (c : Call) (files : HostsUpdate.World)
      (halive : op ≠ .dies) (hrunning : p.updating = some (.call id raw))
      (hsolo : soloStep hosts p.files (.at id op) = some files)
      (hc : p.files.calls id = some c)
      (heffect : HostsUpdate.Effect hosts p.files id c op files) :
      Effect cfg json hosts errorText p (.file op) (p.proceed errorText id raw files)
  | strandedReads (u : IpUpdate) (raw : Text)
      (hrunning : p.updating = some (.stranded u false raw)) :
      Effect cfg json hosts errorText p (.file .read) (p.proceedStranded errorText u raw none)
  | strandedFails (op : Op) (u : IpUpdate) (hasRead : Bool) (raw : Text) (failure : Failure)
      (hrunning : p.updating = some (.stranded u hasRead raw))
      (hread : op ≠ .fails → existingOf (p.files.disk.read hosts) = none) :
      Effect cfg json hosts errorText p (.file op)
        (p.proceedStranded errorText u raw (some failure))

section Effects
variable {cfg : ClientConfig} {json : SerdeJson} {hosts : Component} {errorText : Failure → Text}
variable {p p' : Process}

theorem requestOf_eq_some {u : IpUpdate} {request : Request} (h : requestOf u = some request) :
    request.update = u := by
  unfold requestOf at h
  split_ifs at h
  cases h
  rfl

theorem requestOf_eq_none {u : IpUpdate} (h : requestOf u = none) :
    ¬ FitsFileName u.hostname := by
  unfold requestOf at h
  split_ifs at h with hfits
  exact hfits

theorem effect_of_strandedStep {op : Op} {u : IpUpdate} {hasRead : Bool} {raw : Text}
    {ended : Option Failure} (hrunning : p.updating = some (.stranded u hasRead raw))
    (h : strandedStep hosts p.files.disk hasRead op = some ended) :
    Effect cfg json hosts errorText p (.file op) (p.proceedStranded errorText u raw ended) := by
  unfold strandedStep at h
  split at h
  · cases hasRead with
    | true => cases h
    | false =>
        simp only [Bool.false_eq_true, if_false] at h
        split at h
        · rename_i hread
          cases h
          exact .strandedFails _ u false raw _ hrunning fun _ => hread
        · cases h
          exact .strandedReads u raw hrunning
  · split_ifs at h
    · cases h
      exact .strandedFails _ u hasRead raw _ hrunning fun hne => absurd rfl hne
    · cases h
      exact .strandedFails _ u hasRead raw _ hrunning fun hne => absurd rfl hne
  all_goals cases h

theorem effect_of_step {a : Action} (h : step cfg json hosts errorText p a = some p') :
    Effect cfg json hosts errorText p a p' := by
  cases a with
  | loop a =>
      dsimp only [step] at h
      split at h
      · cases h
      · rename_i hidle
        split at h
        · rename_i hparsed
          obtain ⟨c, hloop, rfl⟩ := Option.map_eq_some_iff.mp h
          exact .loops a c hidle hparsed hloop
        · rename_i raw u hparsed
          split at h
          · rename_i hrequest
            cases h
            exact .strands a raw u hidle hparsed (requestOf_eq_none hrequest)
          · rename_i request hrequest
            obtain ⟨files, hcall, rfl⟩ := Option.map_eq_some_iff.mp h
            exact .calls a raw u request files hidle hparsed (requestOf_eq_some hrequest) hcall
  | file op =>
      unfold step at h
      split at h
      · rename_i heq
        cases heq
      · cases h
      · rename_i op' halive heq
        cases heq
        split at h
        · cases h
        · rename_i id raw hrunning
          obtain ⟨files, hsolo, rfl⟩ := Option.map_eq_some_iff.mp h
          obtain ⟨c, hc, hcall⟩ := Option.bind_eq_some_iff.mp (step_of_soloStep hsolo)
          exact .works op id raw c files halive hrunning hsolo hc (effect_of_callStep hcall)
        · rename_i u hasRead raw hrunning
          obtain ⟨ended, hended, rfl⟩ := Option.map_eq_some_iff.mp h
          exact effect_of_strandedStep hrunning hended

theorem parsed_eq_some {phase : Phase} {a : ClientLoop.Action} {raw : Text} {u : IpUpdate}
    (h : parsed json phase a = some (raw, u)) :
    a = .line (.ok raw) ∧ phase = .reading ∧ json.fromStr raw = .ok (.ipUpdate u) := by
  unfold parsed at h
  split at h
  · rename_i text
    split at h
    · rename_i hread
      cases h
      exact ⟨rfl, rfl, hread⟩
    · cases h
  all_goals cases h

end Effects

/-! ### Updates in one step -/

/-- A hosts file once more updated; one that is not UTF-8 stays. -/
def rewrite (content : Bytes) (u : IpUpdate) : Bytes := (updateBytes content u).getD content

/-- An update in one step, with the next outcome of the script. -/
def scripted (s : Bytes × List (Option Text)) (hostname ip : Text) :
    (Bytes × List (Option Text)) × Except Text Unit :=
  match s.2 with
  | [] => (s, .error [])
  | none :: script => ((rewrite s.1 ⟨hostname, ip⟩, script), .ok ())
  | some e :: script => ((s.1, script), .error e)

/-- How the calls so far have ended, as the loop tells it. -/
def told (errorText : Failure → Text) (results : List (Except Failure Unit)) :
    List (Option Text) :=
  results.map fun result => match result with
    | .ok _ => none
    | .error failure => some (errorText failure)

/-- The steps of the loop with atomic updates: a line is handled when its call returns. -/
def atomicActions (p : Process) (a : Action) (p' : Process) : List ClientLoop.Action :=
  match a, p.updating with
  | .loop a, none => if p'.updating.isSome then [] else [a]
  | .file _, some running => if p'.updating.isSome then [] else [.line (.ok running.raw)]
  | .loop _, some _ | .file _, none => []

/-- The running call is about the update. It has not touched the hosts file before its
rename, and has updated it after. -/
def Underway (hosts : Component) (content : Bytes) (files : HostsUpdate.World) (u : IpUpdate) :
    Running → Prop
  | .call id _ => ∃ c, files.calls id = some c ∧ c.request.update = u ∧
      match c.stage with
      | .renamed => updateBytes content u = some (contentOf files.disk hosts)
      | _ => contentOf files.disk hosts = content
  | .stranded v _ _ => v = u ∧ ¬ FitsFileName u.hostname ∧ (∀ j, files.calls j = none) ∧
      contentOf files.disk hosts = content

theorem Underway.content {hosts : Component} {content : Bytes} {files : HostsUpdate.World}
    {u : IpUpdate} {running : Running} (h : Underway hosts content files u running) :
    contentOf files.disk hosts = content ∨
      updateBytes content u = some (contentOf files.disk hosts) := by
  cases running with
  | stranded => exact .inl h.2.2.2
  | call id raw =>
      obtain ⟨c, -, -, hstage⟩ := h
      split at hstage
      · exact .inr hstage
      · exact .inl hstage

section Refinement
variable {cfg : ClientConfig} {json : SerdeJson} {hosts : Component} {errorText : Failure → Text}
variable {initial : Bytes} {p p' : Process} {actions : List ClientLoop.Action}

/-- The atomic loop with the outcomes told so far, and any others after them. -/
def Follows (cfg : ClientConfig) (json : SerdeJson) (errorText : Failure → Text)
    (initial : Bytes) (results : List (Except Failure Unit)) (actions : List ClientLoop.Action)
    (content : Bytes) (phase : Phase) (events : List ClientEvent) : Prop :=
  ∀ script, run (ClientLoop.step cfg json scripted)
    (ClientLoop.start cfg (initial, told errorText results ++ script)) actions =
      some ⟨(content, script), phase, events⟩

/-- Where the atomic loop is: in the same state, or at the line that a call is running
for. -/
def Matched (cfg : ClientConfig) (json : SerdeJson) (hosts : Component)
    (errorText : Failure → Text) (initial : Bytes) (p : Process)
    (actions : List ClientLoop.Action) : Prop :=
  match p.updating with
  | none => (∀ j, p.files.calls j = none) ∧
      Follows cfg json errorText initial p.results actions (contentOf p.files.disk hosts) p.phase
        p.events
  | some running => ∃ u content events, Underway hosts content p.files u running ∧
      json.fromStr running.raw = .ok (.ipUpdate u) ∧ p.phase = .reading ∧
      p.events = events ++ [.ipUpdateReceived u.hostname u.ip] ∧
      Follows cfg json errorText initial p.results actions content .reading events

structure Refines (cfg : ClientConfig) (json : SerdeJson) (hosts : Component)
    (errorText : Failure → Text) (initial : Bytes) (p : Process)
    (actions : List ClientLoop.Action) : Prop where
  solo : Solo hosts p.files
  consistent : Consistent hosts initial p.files
  matched : Matched cfg json hosts errorText initial p actions

theorem refines_start (cfg : ClientConfig) (json : SerdeJson) (hosts : Component)
    (errorText : Failure → Text) (disk : Directory) :
    Refines cfg json hosts errorText (contentOf disk hosts) (start cfg disk) [] where
  solo := solo_start hosts disk
  consistent := HostsConcurrent.consistent_start hosts disk
  matched := ⟨fun _ => rfl, fun _ => rfl⟩

/-- A step that parses no update is the same whatever updates do. -/
theorem step_of_parsed_none {σ : Type*} {update : σ → Text → Text → σ × Except Text Unit}
    {phase : Phase} {events : List ClientEvent} {a : ClientLoop.Action} {c : Client Unit}
    (hparsed : parsed json phase a = none)
    (h : ClientLoop.step cfg json (fun (s : Unit) _ _ => (s, .ok ())) ⟨(), phase, events⟩ a =
      some c) (s : σ) :
    ClientLoop.step cfg json update ⟨s, phase, events⟩ a = some ⟨s, c.phase, c.events⟩ := by
  unfold ClientLoop.step at h
  split at h
  case h_7 => cases h
  case h_3 raw hphase =>
    dsimp only at hphase
    subst hphase
    cases h
    cases hread : json.fromStr raw with
    | error e => simp [ClientLoop.step, handleLine, hread]
    | ok msg =>
        cases msg with
        | heartbeat => simp [ClientLoop.step, handleLine, handleMessage, hread]
        | ipUpdate u => simp [parsed, hread] at hparsed
  all_goals
    rename_i hphase
    dsimp only at hphase
    subst hphase
    cases h
    rfl

theorem Follows.concat {results : List (Except Failure Unit)} {content content' : Bytes}
    {phase phase' : Phase} {events events' : List ClientEvent} {a : ClientLoop.Action}
    (h : Follows cfg json errorText initial results actions content phase events)
    {more : List (Except Failure Unit)}
    (hstep : ∀ script, ClientLoop.step cfg json scripted
      ⟨(content, told errorText more ++ script), phase, events⟩ a =
        some ⟨(content', script), phase', events'⟩) :
    Follows cfg json errorText initial (results ++ more) (actions ++ [a]) content' phase'
      events' := by
  intro script
  have htold : told errorText (results ++ more) =
      told errorText results ++ told errorText more := List.map_append
  rw [htold, List.append_assoc, run_append, h (told errorText more ++ script), Option.bind_some,
    run_cons_iff]
  exact ⟨_, hstep script, rfl⟩

/-- The hosts file only changes with a rename. -/
theorem content_of_renamed {files files' : HostsUpdate.World}
    (h : Consistent hosts initial files) (h' : Consistent hosts initial files')
    (hrenamed : files'.renamed = files.renamed) :
    contentOf files'.disk hosts = contentOf files.disk hosts := by
  have hcontent := h'.content
  rw [hrenamed, h.content] at hcontent
  exact (Option.some.inj hcontent).symm

theorem content_of_rename {files files' : HostsUpdate.World} {id : ℕ} {u : IpUpdate}
    (h : Consistent hosts initial files) (h' : Consistent hosts initial files')
    (hrenamed : files'.renamed = files.renamed ++ [(id, u)]) :
    updateBytes (contentOf files.disk hosts) u = some (contentOf files'.disk hosts) := by
  have hcontent := h'.content
  rw [hrenamed, List.map_append, List.foldlM_append, h.content] at hcontent
  simpa using hcontent

section Call
variable {running : Running} {u : IpUpdate} {content : Bytes} {events : List ClientEvent}

/-- The call goes on; the atomic loop waits. -/
theorem matched_goes (hrunning : p.updating = some running)
    (hread : json.fromStr running.raw = .ok (.ipUpdate u)) (hphase : p.phase = .reading)
    (hevents : p.events = events ++ [.ipUpdateReceived u.hostname u.ip])
    (hfollows : Follows cfg json errorText initial p.results actions content .reading events)
    {files : HostsUpdate.World} {running' : Running} (hraw : running'.raw = running.raw)
    (hunderway : Underway hosts content files u running') {op : Op} :
    let p' := { p with files, updating := some running' }
    Matched cfg json hosts errorText initial p' (actions ++ atomicActions p (.file op) p') := by
  intro p'
  have hwaits : atomicActions p (.file op) p' = [] := by
    simp [atomicActions, hrunning, p']
  rw [hwaits, List.append_nil]
  exact ⟨u, content, events, hunderway, hraw ▸ hread, hphase, hevents, hfollows⟩

/-- What a call leaves that ends so. -/
def afterCall (content : Bytes) (u : IpUpdate) : Except Failure Unit → Bytes
  | .ok _ => rewrite content u
  | .error _ => content

/-- The call returns; the atomic loop handles its line with that outcome. -/
theorem matched_ends (hrunning : p.updating = some running)
    (hread : json.fromStr running.raw = .ok (.ipUpdate u)) (hphase : p.phase = .reading)
    (hevents : p.events = events ++ [.ipUpdateReceived u.hostname u.ip])
    (hfollows : Follows cfg json errorText initial p.results actions content .reading events)
    {files : HostsUpdate.World} {result : Except Failure Unit}
    (hcalls : ∀ j, files.calls j = none)
    (hcontent : contentOf files.disk hosts = afterCall content u result) {op : Op} :
    let p' : Process := { p with
      files
      updating := none
      events := p.events ++ [outcomeEvent errorText u result]
      results := p.results ++ [result] }
    Matched cfg json hosts errorText initial p' (actions ++ atomicActions p (.file op) p') := by
  intro p'
  have hactions : atomicActions p (.file op) p' = [.line (.ok running.raw)] := by
    simp [atomicActions, hrunning, p']
  rw [hactions]
  refine ⟨hcalls, hfollows.concat ?_⟩
  intro script
  dsimp only [p']
  rw [hphase, hevents, hcontent]
  cases result with
  | ok v =>
      simp [ClientLoop.step, handleLine, hread, handleMessage, scripted, told, outcomeEvent,
        afterCall]
  | error failure =>
      simp [ClientLoop.step, handleLine, hread, handleMessage, scripted, told, outcomeEvent,
        afterCall]

end Call

section Proceed
variable {id : ℕ} {raw : Text} {c : Call}

/-- The call is still there. -/
theorem proceed_goes {files : HostsUpdate.World} {stage : Stage}
    (hcalls : files.calls id = some { c with stage })
    (houtcomes : files.outcomes = p.files.outcomes) :
    p.proceed errorText id raw files =
      { p with files, updating := some (.call id raw) } := by
  simp [Process.proceed, hcalls, houtcomes]

/-- The call has returned. -/
theorem proceed_finish (hosts : Component) (result : Except Failure Unit) :
    p.proceed errorText id raw (p.files.finish hosts id c result) =
      { p with
        files := p.files.finish hosts id c result
        updating := none
        events := p.events ++ [outcomeEvent errorText c.request.update result]
        results := p.results ++ [result] } := by
  have hcalls : (p.files.finish hosts id c result).calls id = none := Function.update_self ..
  have houtcomes : (p.files.finish hosts id c result).outcomes.drop p.files.outcomes.length =
      [⟨id, c.request.update, result, c.before, p.files.disk.read hosts⟩] := List.drop_left ..
  simp [Process.proceed, hcalls, houtcomes]

end Proceed

/-- The invariants of the files, after any step of theirs. -/
theorem files_step {files files' : HostsUpdate.World} {a : HostsUpdate.Action}
    (hname : ∀ hostname, tmpName hostname ≠ hosts) (hs : Solo hosts files)
    (hw : Consistent hosts initial files) (h : soloStep hosts files a = some files') :
    Solo hosts files' ∧ Consistent hosts initial files' := by
  constructor
  · exact solo_step hs hw (fun r _ => hname r.hostname) h
  · exact HostsConcurrent.consistent_step files a files' hw (hs.undisturbed a) (step_of_soloStep h)

theorem calls_of_finish {files : HostsUpdate.World} {id : ℕ} {c : Call}
    (hs : Solo hosts files) (hc : files.calls id = some c) (result : Except Failure Unit) (j : ℕ) :
    (files.finish hosts id c result).calls j = none := by
  by_cases hj : j = id
  · rw [hj]
    exact Function.update_self ..
  · have hother : (files.finish hosts id c result).calls j = files.calls j :=
      Function.update_of_ne hj ..
    cases hd : files.calls j with
    | none => exact hother.trans hd
    | some d => exact absurd (hs.alone j id d c hd hc) hj

/-- A call makes its next step. -/
theorem matched_works {op : Op} {id : ℕ} {raw : Text} {c : Call} {files : HostsUpdate.World}
    (hw : Consistent hosts initial p.files) (hw' : Consistent hosts initial files)
    (hs : Solo hosts p.files) (hrunning : p.updating = some (.call id raw))
    (hc : p.files.calls id = some c) (halive : op ≠ .dies)
    (heffect : HostsUpdate.Effect hosts p.files id c op files)
    (h : Matched cfg json hosts errorText initial p actions) :
    Matched cfg json hosts errorText initial (p.proceed errorText id raw files)
      (actions ++ atomicActions p (.file op) (p.proceed errorText id raw files)) := by
  unfold Matched at h
  rw [hrunning] at h
  obtain ⟨u, content, events, ⟨c', hc', rfl, hunderway⟩, hread, hphase, hevents, hfollows⟩ := h
  rw [hc, Option.some.injEq] at hc'
  subst hc'
  have hbefore : c.stage ≠ .renamed → contentOf p.files.disk hosts = content := by
    intro hstage
    split at hunderway
    · rename_i heq
      exact absurd heq hstage
    · exact hunderway
  -- a call that goes on without a rename, and one that ends
  have hgoes : ∀ stage, stage ≠ .renamed → c.stage ≠ .renamed →
      files.calls id = some { c with stage } → files.outcomes = p.files.outcomes →
        files.renamed = p.files.renamed →
          Matched cfg json hosts errorText initial (p.proceed errorText id raw files)
            (actions ++ atomicActions p (.file op) (p.proceed errorText id raw files)) := by
    intro stage hnew hold hcalls houtcomes hrenamed
    rw [proceed_goes hcalls houtcomes]
    apply matched_goes hrunning hread hphase hevents hfollows rfl
    refine ⟨_, hcalls, rfl, ?_⟩
    dsimp only
    split
    · exact absurd rfl hnew
    · exact (content_of_renamed hw hw' hrenamed).trans (hbefore hold)
  have hends : ∀ result, contentOf p.files.disk hosts = afterCall content c.request.update result →
      Matched cfg json hosts errorText initial
        (p.proceed errorText id raw (p.files.finish hosts id c result))
        (actions ++ atomicActions p (.file op)
          (p.proceed errorText id raw (p.files.finish hosts id c result))) := by
    intro result hcontent
    rw [proceed_finish]
    have hcalls := calls_of_finish hs hc result
    exact matched_ends hrunning hread hphase hevents hfollows hcalls hcontent
  cases heffect with
  | reads existing hstage _ =>
      exact hgoes _ (by simp) (by simp [hstage]) (Function.update_self ..) rfl rfl
  | opens existing hstage =>
      exact hgoes _ (by simp) (by simp [hstage]) (Function.update_self ..) rfl rfl
  | writes existing file written count hstage _ _ =>
      exact hgoes _ (by simp) (by simp [hstage]) (Function.update_self ..) rfl rfl
  | flushes existing file hstage =>
      exact hgoes _ (by simp) (by simp [hstage]) (Function.update_self ..) rfl rfl
  | renames existing i hstage _ =>
      have hcalls : (p.files.publish hosts id c).calls id = some { c with stage := .renamed } :=
        Function.update_self ..
      have hrename := content_of_rename hw hw' rfl
      rw [hbefore (by simp [hstage])] at hrename
      rw [proceed_goes hcalls rfl]
      exact matched_goes hrunning hread hphase hevents hfollows rfl ⟨_, hcalls, rfl, hrename⟩
  | returns hstage =>
      rw [hstage] at hunderway
      dsimp only at hunderway
      apply hends
      rw [afterCall, rewrite, hunderway, Option.getD_some]
  | fails op failure hstage => exact hends _ (hbefore hstage)
  | dies => exact absurd rfl halive

/-- A call begins; the atomic loop stays at its line. -/
theorem matched_begins {a : ClientLoop.Action} {raw : Text} {u : IpUpdate}
    {files : HostsUpdate.World} {running : Running} (hidle : p.updating = none)
    (hparsed : parsed json p.phase a = some (raw, u)) (hraw : running.raw = raw)
    (hunderway : Underway hosts (contentOf p.files.disk hosts) files u running)
    (h : Matched cfg json hosts errorText initial p actions) :
    let p' : Process := { p with
      files
      updating := some running
      events := p.events ++ [.ipUpdateReceived u.hostname u.ip] }
    Matched cfg json hosts errorText initial p' (actions ++ atomicActions p (.loop a) p') := by
  intro p'
  unfold Matched at h
  rw [hidle] at h
  obtain ⟨-, hfollows⟩ := h
  obtain ⟨-, hphase, hread⟩ := parsed_eq_some hparsed
  have hwaits : atomicActions p (.loop a) p' = [] := by
    simp [atomicActions, hidle, p']
  rw [hwaits, List.append_nil]
  refine ⟨u, _, p.events, hunderway, hraw ▸ hread, hphase, rfl, ?_⟩
  rw [← hphase]
  exact hfollows

theorem refines_step (hname : ∀ hostname, tmpName hostname ≠ hosts) (p : Process) (a : Action)
    (p' : Process) (actions : List ClientLoop.Action)
    (h : Refines cfg json hosts errorText initial p actions)
    (hstep : step cfg json hosts errorText p a = some p') :
    Refines cfg json hosts errorText initial p' (actions ++ atomicActions p a p') := by
  have hmatched := h.matched
  cases effect_of_step hstep with
  | loops a c hidle hparsed hloop =>
      unfold Matched at hmatched
      rw [hidle] at hmatched
      obtain ⟨hcalls, hfollows⟩ := hmatched
      refine ⟨h.solo, h.consistent, ?_⟩
      unfold Matched
      dsimp only [atomicActions]
      rw [hidle]
      have hnext : Follows cfg json errorText initial (p.results ++ []) (actions ++ [a])
          (contentOf p.files.disk hosts) c.phase c.events :=
        hfollows.concat fun script => step_of_parsed_none hparsed hloop _
      rw [List.append_nil] at hnext
      exact ⟨hcalls, hnext⟩
  | calls a raw u request files hidle hparsed hrequest hcall =>
      obtain ⟨hsolo, hconsistent⟩ := files_step hname h.solo h.consistent hcall
      cases step_of_soloStep hcall
      refine ⟨hsolo, hconsistent, matched_begins hidle hparsed rfl ?_ hmatched⟩
      exact ⟨⟨request, p.files.disk.read hosts, .entered⟩, Function.update_self .., hrequest, rfl⟩
  | strands a raw u hidle hparsed hunfit =>
      refine ⟨h.solo, h.consistent, matched_begins hidle hparsed rfl ?_ hmatched⟩
      unfold Matched at hmatched
      rw [hidle] at hmatched
      exact ⟨rfl, hunfit, hmatched.1, rfl⟩
  | works op id raw c files halive hrunning hsolo hc heffect =>
      obtain ⟨hs, hw⟩ := files_step hname h.solo h.consistent hsolo
      exact ⟨hs, hw, matched_works h.consistent hw h.solo hrunning hc halive heffect hmatched⟩
  | strandedReads u raw hrunning =>
      unfold Matched at hmatched
      rw [hrunning] at hmatched
      obtain ⟨v, content, events, hunderway, hread, hphase, hevents, hfollows⟩ := hmatched
      exact ⟨h.solo, h.consistent,
        matched_goes hrunning hread hphase hevents hfollows rfl hunderway⟩
  | strandedFails op u hasRead raw failure hrunning _ =>
      unfold Matched at hmatched
      rw [hrunning] at hmatched
      obtain ⟨_, content, events, ⟨rfl, -, hcalls, hcontent⟩, hread, hphase, hevents, hfollows⟩ :=
        hmatched
      exact ⟨h.solo, h.consistent,
        matched_ends hrunning hread hphase hevents hfollows hcalls hcontent⟩

end Refinement

theorem refines_of_run {cfg : ClientConfig} {json : SerdeJson} {hosts : Component}
    {errorText : Failure → Text} {disk : Directory} {actions : List Action} {p : Process}
    (hname : ∀ hostname, tmpName hostname ≠ hosts)
    (h : run (step cfg json hosts errorText) (start cfg disk) actions = some p) :
    Refines cfg json hosts errorText (contentOf disk hosts) p
      (observe (step cfg json hosts errorText) atomicActions (start cfg disk) actions) :=
  invariant_observe (b := []) (refines_step hname) (refines_start cfg json hosts errorText disk) h

/-- Every run of the process is a run of the loop with updates in one step and the
outcomes that the calls have had. While a call is running the loop is at its line, and
the hosts file is as the loop has it, or already updated. -/
theorem process_refines_loop (cfg : ClientConfig) (json : SerdeJson) (hosts : Component)
    (hname : ∀ hostname, tmpName hostname ≠ hosts) (errorText : Failure → Text)
    (disk : Directory) (actions : List Action) (p : Process)
    (h : run (step cfg json hosts errorText) (start cfg disk) actions = some p) :
    ∃ c, run (ClientLoop.step cfg json scripted)
        (ClientLoop.start cfg (contentOf disk hosts, told errorText p.results))
        (observe (step cfg json hosts errorText) atomicActions (start cfg disk) actions) = some c ∧
      c.phase = p.phase ∧
      match p.updating with
      | none => c.hosts.1 = contentOf p.files.disk hosts ∧ c.events = p.events
      | some running => ∃ u, json.fromStr running.raw = .ok (.ipUpdate u) ∧
          p.events = c.events ++ [.ipUpdateReceived u.hostname u.ip] ∧
          (contentOf p.files.disk hosts = c.hosts.1 ∨
            updateBytes c.hosts.1 u = some (contentOf p.files.disk hosts)) := by
  have hmatched := (refines_of_run hname h).matched
  unfold Matched at hmatched
  split at hmatched
  · obtain ⟨-, hfollows⟩ := hmatched
    have hrun := hfollows []
    rw [List.append_nil] at hrun
    exact ⟨_, hrun, rfl, rfl, rfl⟩
  · obtain ⟨u, content, events, hunderway, hread, hphase, hevents, hfollows⟩ := hmatched
    have hrun := hfollows []
    rw [List.append_nil] at hrun
    exact ⟨_, hrun, hphase.symm, u, hread, hevents, hunderway.content⟩

/-- A content after updates. -/
def rewritten (content : Bytes) (us : List IpUpdate) : Bytes := us.foldl rewrite content

theorem rewritten_append (content : Bytes) (us vs : List IpUpdate) :
    rewritten content (us ++ vs) = rewritten (rewritten content us) vs := List.foldl_append ..

/-- The content that the events account for. -/
def accounted (initial : Bytes) (events : List ClientEvent) : Bytes :=
  rewritten initial ((events.filterMap updated?).map fun u => ⟨u.1, u.2⟩)

theorem accounted_append (initial : Bytes) (es fs : List ClientEvent) :
    accounted initial (es ++ fs) = accounted (accounted initial es) fs := by
  rw [accounted, accounted, accounted, List.filterMap_append, List.map_append, rewritten_append]

/-- With updates in one step the file is what the events say. -/
theorem accounted_step {cfg : ClientConfig} {json : SerdeJson} {initial : Bytes}
    (c : Client (Bytes × List (Option Text))) (a : ClientLoop.Action)
    (c' : Client (Bytes × List (Option Text))) (h : c.hosts.1 = accounted initial c.events)
    (hstep : ClientLoop.step cfg json scripted c a = some c') :
    c'.hosts.1 = accounted initial c'.events := by
  unfold ClientLoop.step at hstep
  split at hstep
  case h_7 => cases hstep
  case h_3 raw hphase =>
    cases hstep
    dsimp only
    rw [accounted_append, ← h]
    unfold handleLine
    cases json.fromStr raw with
    | error e => rfl
    | ok msg =>
        cases msg with
        | heartbeat => rfl
        | ipUpdate u =>
            unfold handleMessage scripted
            cases c.hosts.2 with
            | nil => rfl
            | cons outcome script =>
                cases outcome with
                | none => rfl
                | some e => rfl
  all_goals
    cases hstep
    dsimp only
    rw [accounted_append, ← h]
    rfl

/-- At every point of every run, so also wherever the process is killed: the hosts file is
what the updates reported as written make of the first one, or one more update has been
renamed into place whose call is still running. A call that was reported as failed has
left no trace in it. -/
theorem file_accounted (cfg : ClientConfig) (json : SerdeJson) (hosts : Component)
    (hname : ∀ hostname, tmpName hostname ≠ hosts) (errorText : Failure → Text)
    (disk : Directory) (actions : List Action) (p : Process)
    (h : run (step cfg json hosts errorText) (start cfg disk) actions = some p) :
    contentOf p.files.disk hosts = accounted (contentOf disk hosts) p.events ∨
      ∃ running u, p.updating = some running ∧ json.fromStr running.raw = .ok (.ipUpdate u) ∧
        updateBytes (accounted (contentOf disk hosts) p.events) u =
          some (contentOf p.files.disk hosts) := by
  have hmatched := (refines_of_run hname h).matched
  have haccounted : ∀ content phase events, Follows cfg json errorText (contentOf disk hosts)
      p.results (observe (step cfg json hosts errorText) atomicActions (start cfg disk) actions)
      content phase events → content = accounted (contentOf disk hosts) events := by
    intro content phase events hfollows
    exact invariant_run (I := fun c => c.hosts.1 = accounted _ c.events) accounted_step
      (s := ClientLoop.start cfg (contentOf disk hosts, _)) rfl (hfollows [])
  unfold Matched at hmatched
  split at hmatched
  · exact .inl (haccounted _ _ _ hmatched.2)
  · rename_i running hrunning
    obtain ⟨u, content, events, hunderway, hread, -, hevents, hfollows⟩ := hmatched
    have hcontent : content = accounted (contentOf disk hosts) p.events := by
      rw [haccounted _ _ _ hfollows, hevents, accounted_append]
      rfl
    rw [← hcontent]
    cases hunderway.content with
    | inl hsame => exact .inl hsame
    | inr hupdated => exact .inr ⟨running, u, hrunning, hread, hupdated⟩

def noText : Failure → Text := fun _ => []

theorem tmpName_ne_hosts (hostname : Component) : tmpName hostname ≠ hostsName := by
  intro h
  have hhead : some '.' = some 'h' := congrArg (fun c => c.text.head?) h
  simp at hhead

def line (u : IpUpdate) : Action := .loop (.line (.ok (MessageText.printMessage (.ipUpdate u))))

/-- The first call finds no name for its temporary file; the second fails in the middle of
its write, over a stale temporary file; the third has renamed and not yet returned. -/
def killedAfterRename : List Action :=
  [.loop .connected, line ⟨"nas/lan".toList, "10.0.0.9".toList⟩, .file .read, .file .fails,
    line nas.update, .file .read, .file .openTemp, .file (.write 7),
    .file .fails, .loop (.line (.ok (MessageText.printMessage .heartbeat))), line nas.update,
    .file .read, .file .openTemp,
    .file (.write (newContent "127.0.0.1 localhost".toList nas).length), .file .flush,
    .file .rename]

theorem killedAfterRename_refines : ∃ p c,
    run (step nasClient MessageText.compactJson hostsName noText) (start nasClient staleTemp)
        killedAfterRename = some p ∧
      run (ClientLoop.step nasClient MessageText.compactJson scripted)
        (ClientLoop.start nasClient (contentOf staleTemp hostsName, [some [], some []]))
        (observe (step nasClient MessageText.compactJson hostsName noText) atomicActions
          (start nasClient staleTemp) killedAfterRename) = some c ∧
      c.phase = p.phase := by
  have hrun : ∃ p, run (step nasClient MessageText.compactJson hostsName noText)
      (start nasClient staleTemp) killedAfterRename = some p ∧
        told noText p.results = [some [], some []] := by decide +kernel
  obtain ⟨p, hp, htold⟩ := hrun
  obtain ⟨c, hc, hphase, -⟩ := process_refines_loop nasClient MessageText.compactJson hostsName
    tmpName_ne_hosts noText staleTemp killedAfterRename p hp
  exact ⟨p, c, hp, htold ▸ hc, hphase⟩

theorem killedAfterRename_accounted : ∃ p running u,
    run (step nasClient MessageText.compactJson hostsName noText) (start nasClient staleTemp)
        killedAfterRename = some p ∧
      p.updating = some running ∧
      updateBytes (contentOf staleTemp hostsName) u = some (contentOf p.files.disk hostsName) := by
  have hrun : ∃ p, run (step nasClient MessageText.compactJson hostsName noText)
      (start nasClient staleTemp) killedAfterRename = some p ∧
        accounted (contentOf staleTemp hostsName) p.events = contentOf staleTemp hostsName ∧
        contentOf p.files.disk hostsName ≠ contentOf staleTemp hostsName := by decide +kernel
  obtain ⟨p, hp, hevents, hchanged⟩ := hrun
  have haccounted := file_accounted nasClient MessageText.compactJson hostsName
    tmpName_ne_hosts noText staleTemp killedAfterRename p hp
  rw [hevents] at haccounted
  obtain ⟨running, u, hrunning, -, hupdate⟩ := haccounted.resolve_left hchanged
  exact ⟨p, running, u, hp, hrunning, hupdate⟩

end DnslessHomelab.ClientProcess
