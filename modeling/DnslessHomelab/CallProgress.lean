import DnslessHomelab.PendingUpdates
import DnslessHomelab.AppliedUpdates

/-!
# Calls that nothing stops

Steps of a client process without failures. A running call comes closer to its end with
each of them, and the content that it is about to give the hosts file stays the same; an
idle process takes any line of the server.
-/
namespace DnslessHomelab.CallProgress
open Protocol Runs ReplaceOrAppend HostsConcurrent HostsCrash PendingUpdates
open HostsUpdate (Component Call Stage Op Failure tmpName newContent existingOf callStep)
open ClientProcess (Process Refines FitsFileName rewritten)
open ClientStream (ClientConfig)
open AppliedUpdates (updatesIn)

/-! ### One call -/

/-- Steps left of a call that nothing stops and that writes the rest at once. -/
def stepsOf (c : Call) : ℕ :=
  match c.stage with
  | .entered => 6
  | .computed _ => 5
  | .writing existing _ written =>
      if written < (newContent existing c.request).length then 4 else 3
  | .closed _ => 2
  | .renamed => 1

section Call
variable {hosts : Component} {initial : Bytes} {w w' : HostsUpdate.World} {id : ℕ} {c : Call}

/-- A call can always go on, and comes closer to its end. -/
theorem callStep_enabled (id : ℕ) (htemp : TempOk hosts w.disk c) :
    ∃ op w', op ≠ .fails ∧ op ≠ .dies ∧ callStep hosts w id c op = some w' ∧
      ((w'.calls id).map stepsOf).getD 0 < stepsOf c := by
  have hgoes : ∀ {w' : HostsUpdate.World} {stage : Stage},
      w'.calls = Function.update w.calls id (some { c with stage }) →
        stepsOf { c with stage } < stepsOf c →
          ((w'.calls id).map stepsOf).getD 0 < stepsOf c := by
    intro w' stage hcalls hsteps
    rw [hcalls, Function.update_self]
    exact hsteps
  have hends : ∀ {w' : HostsUpdate.World}, w'.calls = Function.update w.calls id none →
      0 < stepsOf c → ((w'.calls id).map stepsOf).getD 0 < stepsOf c := by
    intro w' hcalls hsteps
    rw [hcalls, Function.update_self]
    exact hsteps
  cases hstage : c.stage with
  | entered =>
      cases hread : existingOf (w.disk.read hosts) with
      | none =>
          refine ⟨.read, w.finish hosts id c (.error .utf8), by simp, by simp, ?_, hends rfl ?_⟩
          · simp [callStep, hstage, hread]
          · simp [stepsOf, hstage]
      | some existing =>
          refine ⟨.read, w.advance id c (.computed existing), by simp, by simp, ?_, hgoes rfl ?_⟩
          · simp [callStep, hstage, hread]
          · simp [stepsOf, hstage]
  | computed existing =>
      refine ⟨.openTemp, w.openTemp id c existing, by simp, by simp, ?_, hgoes rfl ?_⟩
      · simp [callStep, hstage]
      · simp only [stepsOf, hstage]
        split <;> omega
  | writing existing file written =>
      by_cases hrest : written < (newContent existing c.request).length
      · obtain ⟨count, hcount⟩ := Nat.exists_eq_add_of_lt hrest
        refine ⟨.write (count + 1), w.write id c existing file written (count + 1), by simp,
          by simp, ?_, hgoes rfl ?_⟩
        · simp only [callStep, hstage]
          exact if_pos (by omega)
        · simp only [stepsOf, hstage, if_pos hrest]
          rw [if_neg (by omega)]
          omega
      · unfold TempOk at htemp
        rw [hstage] at htemp
        have hwritten : written = (newContent existing c.request).length := by
          have := htemp.2.2.2
          omega
        refine ⟨.flush, w.advance id c (.closed existing), by simp, by simp, ?_, hgoes rfl ?_⟩
        · simp only [callStep, hstage]
          exact if_pos hwritten
        · simp [stepsOf, hstage, hwritten]
  | closed existing =>
      unfold TempOk at htemp
      rw [hstage] at htemp
      obtain ⟨i, hinode, -⟩ := Option.map_eq_some_iff.mp htemp.2
      refine ⟨.rename, w.publish hosts id c, by simp, by simp, ?_, hgoes rfl ?_⟩
      · simp [callStep, hstage, hinode]
      · simp [stepsOf, hstage]
  | renamed =>
      refine ⟨.returns, w.finish hosts id c (.ok ()), by simp, by simp, ?_, hends rfl ?_⟩
      · simp [callStep, hstage]
      · simp [stepsOf, hstage]

/-- A step that is no failure leaves the content that the call is about to give the file:
without UTF-8 it gives none. -/
theorem callStep_keeps (hw : Consistent hosts initial w) (hw' : Consistent hosts initial w')
    (hc : w.calls id = some c) {op : Op} (hfails : op ≠ .fails) (hdies : op ≠ .dies)
    (h : callStep hosts w id c op = some w') :
    rewritten (contentOf w'.disk hosts) (((w'.calls id).map dueOf).getD []) =
      rewritten (contentOf w.disk hosts) (dueOf c) := by
  have hgoes : ∀ {stage : Stage}, w'.renamed = w.renamed →
      w'.calls = Function.update w.calls id (some { c with stage }) →
        dueOf { c with stage } = dueOf c →
          rewritten (contentOf w'.disk hosts) (((w'.calls id).map dueOf).getD []) =
            rewritten (contentOf w.disk hosts) (dueOf c) := by
    intro stage hrenamed hcalls hdue
    rw [ClientProcess.content_of_renamed hw hw' hrenamed, hcalls, Function.update_self, ← hdue]
    rfl
  unfold callStep at h
  split at h
  · rename_i hstage
    split at h
    · rename_i hread
      cases h
      rw [existingOf_read] at hread
      simp [HostsUpdate.World.finish, HostsUpdate.World.remove, dueOf, hstage, rewritten,
        ClientProcess.rewrite, updateBytes, hread]
    · cases h
      exact hgoes rfl rfl (by simp [dueOf, hstage])
  · rename_i hstage
    cases h
    exact hgoes rfl rfl (by simp [dueOf, hstage])
  · rename_i hstage
    split_ifs at h
    cases h
    exact hgoes rfl rfl (by simp [dueOf, hstage])
  · rename_i hstage
    split_ifs at h
    cases h
    exact hgoes rfl rfl (by simp [dueOf, hstage])
  · rename_i existing hstage
    have htemp := hw.temp id c hc
    unfold TempOk at htemp
    rw [hstage] at htemp
    obtain ⟨i, hinode, -⟩ := Option.map_eq_some_iff.mp htemp.2
    simp only [hinode] at h
    cases h
    have hrename := ClientProcess.content_of_rename hw hw' rfl
    have hcalls : (w.publish hosts id c).calls id = some { c with stage := .renamed } :=
      Function.update_self ..
    have hdue : dueOf c = [c.request.update] := by simp [dueOf, hstage]
    have hone : rewritten (contentOf w.disk hosts) [c.request.update] =
        (updateBytes (contentOf w.disk hosts) c.request.update).getD _ := rfl
    rw [hcalls, hdue, hone, hrename]
    rfl
  · rename_i hstage
    cases h
    simp [HostsUpdate.World.finish, HostsUpdate.World.remove, dueOf, hstage]
  · exact absurd rfl hfails
  · exact absurd rfl hdies
  · cases h

end Call

/-! ### One process -/

def stepsLeft (p : Process) : ℕ := ((running p).map stepsOf).getD 0

section Process
variable {cfg : ClientConfig} {json : SerdeJson} {hosts : Component}
variable {errorText : Failure → Text} {p p' : Process}

/-- The process has got here from some start. -/
def Refined (cfg : ClientConfig) (json : SerdeJson) (hosts : Component)
    (errorText : Failure → Text) (p : Process) : Prop :=
  ∃ initial actions, Refines cfg json hosts errorText initial p actions

theorem Refined.idle (h : Refined cfg json hosts errorText p) (hidle : p.updating = none)
    (id : ℕ) : p.files.calls id = none := by
  obtain ⟨initial, actions, hrefines⟩ := h
  have hmatched := hrefines.matched
  unfold ClientProcess.Matched at hmatched
  rw [hidle] at hmatched
  exact hmatched.1 id

theorem Refined.busy (h : Refined cfg json hosts errorText p) {id : ℕ} {raw : Text}
    (hbusy : p.updating = some (.call id raw)) : ∃ c, p.files.calls id = some c := by
  obtain ⟨initial, actions, hrefines⟩ := h
  have hmatched := hrefines.matched
  unfold ClientProcess.Matched at hmatched
  rw [hbusy] at hmatched
  obtain ⟨u, content, events, ⟨c, hc, -⟩, -⟩ := hmatched
  exact ⟨c, hc⟩

/-- A call is stranded for its hostname only. -/
theorem Refined.unfit (h : Refined cfg json hosts errorText p) {u : IpUpdate} {hasRead : Bool}
    {raw : Text} (hstranded : p.updating = some (.stranded u hasRead raw)) :
    ¬ FitsFileName u.hostname := by
  obtain ⟨initial, actions, hrefines⟩ := h
  have hmatched := hrefines.matched
  unfold ClientProcess.Matched at hmatched
  rw [hstranded] at hmatched
  obtain ⟨v, content, events, ⟨rfl, hunfit, -⟩, -⟩ := hmatched
  exact hunfit

theorem Refined.sound (h : Refined cfg json hosts errorText p) : Sound hosts p := by
  obtain ⟨initial, actions, hrefines⟩ := h
  exact ⟨initial, hrefines.solo, hrefines.consistent⟩

theorem Refined.step (hname : ∀ hostname, tmpName hostname ≠ hosts)
    (h : Refined cfg json hosts errorText p) {a : ClientProcess.Action}
    (hstep : ClientProcess.step cfg json hosts errorText p a = some p') :
    Refined cfg json hosts errorText p' := by
  obtain ⟨initial, actions, hrefines⟩ := h
  exact ⟨initial, _, ClientProcess.refines_step hname p a p' actions hrefines hstep⟩

/-- A running call goes on, and comes closer to its end. -/
theorem Refined.file_enabled (h : Refined cfg json hosts errorText p)
    {id : ℕ} {raw : Text} (hbusy : p.updating = some (.call id raw)) :
    ∃ op p', op ≠ .fails ∧
      ClientProcess.step cfg json hosts errorText p (.file op) = some p' ∧
        stepsLeft p' < stepsLeft p := by
  obtain ⟨c, hc⟩ := h.busy hbusy
  obtain ⟨initial, actions, hrefines⟩ := h
  obtain ⟨op, files, hfails, hdies, hcall, hless⟩ :=
    callStep_enabled id (hrefines.consistent.temp id c hc)
  have hsolo : soloStep hosts p.files (.at id op) = some files := by
    simp only [soloStep, HostsUpdate.step, hc, Option.bind_some, hcall]
  have hstep : ClientProcess.step cfg json hosts errorText p (.file op) =
      some (p.proceed errorText id raw files) := by
    cases op with
    | dies => exact absurd rfl hdies
    | read | openTemp | write | flush | rename | returns | fails =>
        simp only [ClientProcess.step, hbusy, hsolo, Option.map_some]
  have hnow : running p = some c := by
    unfold running
    rw [hbusy]
    exact hc
  refine ⟨op, _, hfails, hstep, ?_⟩
  rw [stepsLeft, stepsLeft, running_proceed, hnow]
  exact hless

/-- A step of a call that is no failure leaves the content that the file is about to have. -/
theorem Refined.file_keeps (hname : ∀ hostname, tmpName hostname ≠ hosts)
    (h : Refined cfg json hosts errorText p) {op : Op} (hfails : op ≠ .fails)
    (hstep : ClientProcess.step cfg json hosts errorText p (.file op) = some p') :
    rewritten (contentOf p'.files.disk hosts) (due p') =
      rewritten (contentOf p.files.disk hosts) (due p) := by
  obtain ⟨initial, actions, hrefines⟩ := h
  cases ClientProcess.effect_of_step hstep with
  | strandedReads u raw hstranded => simp [due, hstranded, Process.proceedStranded]
  | strandedFails op u hasRead raw failure hstranded hread =>
      have hnone := hread hfails
      rw [existingOf_read] at hnone
      simp [due, hstranded, Process.proceedStranded, rewritten, ClientProcess.rewrite, updateBytes,
        hnone]
  | works op id raw c files halive hbusy hsolo hc _ =>
      have hcall : callStep hosts p.files id c op = some files := by
        have hat := step_of_soloStep hsolo
        rw [HostsUpdate.step, hc] at hat
        exact hat
      have hafter := (ClientProcess.files_step hname hrefines.solo hrefines.consistent hsolo).2
      have hkeeps := callStep_keeps hrefines.consistent hafter hc hfails halive hcall
      have hdue : due p = dueOf c := by simp [due, hbusy, hc]
      rw [hdue, due_proceed]
      exact hkeeps

theorem phase_of_file {op : Op}
    (hstep : ClientProcess.step cfg json hosts errorText p (.file op) = some p') :
    p'.phase = p.phase := by
  cases ClientProcess.effect_of_step hstep with
  | works | strandedReads | strandedFails => rfl

theorem phase_of_connected
    (hstep : ClientProcess.step cfg json hosts errorText p (.loop .connected) = some p') :
    p'.phase = .reading := by
  cases ClientProcess.effect_of_step hstep with
  | loops _ c _ _ hloop =>
      cases hphase : p.phase with
      | reading | sleeping => simp [ClientLoop.step, hphase] at hloop
      | connecting =>
          simp only [ClientLoop.step, hphase, Option.some.injEq] at hloop
          exact hloop ▸ rfl
  | calls _ raw u request files _ hparsed => cases hparsed
  | strands _ raw u _ hparsed => cases hparsed

/-- A line is read only while reading, and reading goes on. -/
theorem phase_of_line {text : Text}
    (hstep : ClientProcess.step cfg json hosts errorText p (.loop (.line (.ok text))) =
      some p') : p.phase = .reading ∧ p'.phase = .reading := by
  cases ClientProcess.effect_of_step hstep with
  | loops _ c _ _ hloop =>
      cases hphase : p.phase with
      | connecting | sleeping => simp [ClientLoop.step, hphase] at hloop
      | reading =>
          simp only [ClientLoop.step, hphase, Option.some.injEq] at hloop
          exact ⟨rfl, hloop ▸ rfl⟩
  | calls _ raw u request files _ hparsed | strands _ raw u _ hparsed =>
      obtain ⟨-, hphase, -⟩ := ClientProcess.parsed_eq_some hparsed
      exact ⟨hphase, hphase⟩

/-- What a reading loop makes due of a line. -/
theorem updateRead_reading {text : Text} {msg : Message} (hread : json.fromStr text = .ok msg) :
    updateRead json .reading (.line (.ok text)) = updatesIn [msg] := by
  cases msg <;> simp [updateRead, ClientProcess.parsed, hread, updatesIn]

/-- An idle loop takes any line of the server; a call for a hostname that fits has no more
than six steps. -/
theorem Refined.line_enabled (h : Refined cfg json hosts errorText p)
    (hidle : p.updating = none) (hphase : p.phase = .reading) {text : Text} {msg : Message}
    (hread : json.fromStr text = .ok msg)
    (hfits : ∀ u, msg = .ipUpdate u → FitsFileName u.hostname) :
    ∃ p', ClientProcess.step cfg json hosts errorText p (.loop (.line (.ok text))) =
      some p' ∧ stepsLeft p' ≤ 6 := by
  cases msg with
  | heartbeat =>
      have hparsed : ClientProcess.parsed json .reading (.line (.ok text)) = none := by
        simp [ClientProcess.parsed, hread]
      simp only [ClientProcess.step, hidle, hphase, hparsed, ClientProcess.loopStep,
        ClientLoop.step, Option.map_some]
      refine ⟨_, rfl, ?_⟩
      simp [stepsLeft, running]
  | ipUpdate u =>
      have hparsed : ClientProcess.parsed json p.phase (.line (.ok text)) = some (text, u) := by
        simp [ClientProcess.parsed, hphase, hread]
      have hrequest : ClientProcess.requestOf u =
          some ⟨⟨u.hostname, (hfits u rfl).separator⟩, u.ip⟩ := dif_pos (hfits u rfl)
      have hcalls : ∀ j < p.files.nextId, p.files.calls j = none := fun j _ => h.idle hidle j
      simp only [ClientProcess.step, hidle, hparsed, hrequest, soloStep, if_pos hcalls,
        HostsUpdate.step, Option.map_some]
      refine ⟨_, rfl, ?_⟩
      simp [stepsLeft, running, stepsOf]

end Process

end DnslessHomelab.CallProgress
