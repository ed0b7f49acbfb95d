import DnslessHomelab.ClientProcess

/-!
# One process and its file

What a client process does to its hosts file, seen from outside: an update becomes due when
its line is read, and changes the file when its call renames. A failed call and a killed
process drop it.
-/
namespace DnslessHomelab.PendingUpdates
open Protocol ReplaceOrAppend ClientStream HostsUpdate HostsConcurrent HostsCrash
open ClientLoop (Phase)
open ClientProcess (Process parsed rewritten rewritten_append)

theorem rewritten_concat {content : Bytes} {us : List IpUpdate} {u : IpUpdate} {content' : Bytes}
    (h : updateBytes (rewritten content us) u = some content') :
    rewritten content (us ++ [u]) = content' := by
  rw [rewritten_append, rewritten, List.foldl_cons, List.foldl_nil, ClientProcess.rewrite, h,
    Option.getD_some]

theorem rewritten_encode (text : Text) (us : List IpUpdate) :
    rewritten (Utf8.encode text) us = Utf8.encode (applyUpdates text us) := by
  induction us generalizing text with
  | nil => rfl
  | cons u us ih =>
      rw [applyUpdates_cons, ← ih, rewritten, List.foldl_cons, ClientProcess.rewrite, updateBytes,
        Utf8.decode_encode]
      rfl

/-- The update of a call that has not renamed yet. -/
def dueOf (c : Call) : List IpUpdate :=
  match c.stage with
  | .renamed => []
  | .entered | .computed _ | .writing .. | .closed _ => [c.request.update]

/-- The call of a process, if it has got to the files. -/
def running (p : Process) : Option Call :=
  match p.updating with
  | some (.call id _) => p.files.calls id
  | some (.stranded ..) | none => none

/-- The update that a running call is still about to make, or to fail. -/
def due (p : Process) : List IpUpdate :=
  match p.updating with
  | none => []
  | some (.call id _) => ((p.files.calls id).map dueOf).getD []
  | some (.stranded u _ _) => [u]

theorem running_proceed {p : Process} {errorText : Failure → Text} {id : ℕ} {raw : Text}
    {files : HostsUpdate.World} :
    running (p.proceed errorText id raw files) = files.calls id := by
  unfold running Process.proceed
  cases hcalls : files.calls id with
  | none => rfl
  | some c => exact hcalls

theorem due_proceed {p : Process} {errorText : Failure → Text} {id : ℕ} {raw : Text}
    {files : HostsUpdate.World} :
    due (p.proceed errorText id raw files) = ((files.calls id).map dueOf).getD [] := by
  unfold due Process.proceed
  cases hcalls : files.calls id with
  | none => rfl
  | some c => simp [hcalls]

/-- The update of the line that a step of the loop reads, if it is one. -/
def updateRead (json : SerdeJson) (phase : Phase) (a : ClientLoop.Action) : List IpUpdate :=
  ((parsed json phase a).map fun r => [r.2]).getD []

/-- The updates that a step has renamed into place. -/
def newlyRenamed (files files' : HostsUpdate.World) : List IpUpdate :=
  (files'.renamed.drop files.renamed.length).map Prod.snd

/-- The files are as the calls of one process have left them. -/
def Sound (hosts : Component) (p : Process) : Prop :=
  ∃ initial, Solo hosts p.files ∧ Consistent hosts initial p.files

theorem sound_start (hosts : Component) (cfg : ClientConfig) (disk : Directory) :
    Sound hosts (ClientProcess.start cfg disk) :=
  ⟨_, solo_start hosts disk, HostsConcurrent.consistent_start hosts disk⟩

section Process
variable {cfg : ClientConfig} {json : SerdeJson} {hosts : Component} {errorText : Failure → Text}
variable {p p' : Process}

/-- A step of the loop leaves the file alone; reading an update makes it due. -/
theorem loop_step (hname : ∀ hostname, tmpName hostname ≠ hosts) {a : ClientLoop.Action}
    (hs : Sound hosts p)
    (hstep : ClientProcess.step cfg json hosts errorText p (.loop a) = some p') :
    Sound hosts p' ∧ contentOf p'.files.disk hosts = contentOf p.files.disk hosts ∧
      due p = [] ∧ due p' = updateRead json p.phase a := by
  obtain ⟨initial, hsolo, hconsistent⟩ := hs
  cases ClientProcess.effect_of_step hstep with
  | loops a c hidle hparsed hloop =>
      refine ⟨⟨initial, hsolo, hconsistent⟩, rfl, ?_, ?_⟩
      · simp [due, hidle]
      · simp [due, hidle, updateRead, hparsed]
  | calls a raw u request files hidle hparsed hrequest hcall =>
      refine ⟨⟨initial, ClientProcess.files_step hname hsolo hconsistent hcall⟩, ?_, ?_, ?_⟩
      · cases step_of_soloStep hcall
        rfl
      · simp [due, hidle]
      · cases step_of_soloStep hcall
        simp [due, updateRead, hparsed, dueOf, hrequest]
  | strands a raw u hidle hparsed _ =>
      refine ⟨⟨initial, hsolo, hconsistent⟩, rfl, ?_, ?_⟩
      · simp [due, hidle]
      · simp [due, updateRead, hparsed]

/-- A step of a call changes the file only when it renames, and then by what was due. -/
theorem file_step (hname : ∀ hostname, tmpName hostname ≠ hosts) {op : Op} (hs : Sound hosts p)
    (hstep : ClientProcess.step cfg json hosts errorText p (.file op) = some p') :
    Sound hosts p' ∧
      (newlyRenamed p.files p'.files = [] ∧
          contentOf p'.files.disk hosts = contentOf p.files.disk hosts ∧
          (due p').Sublist (due p) ∨
        ∃ u, newlyRenamed p.files p'.files = [u] ∧ due p = [u] ∧ due p' = [] ∧
          updateBytes (contentOf p.files.disk hosts) u = some (contentOf p'.files.disk hosts)) := by
  obtain ⟨initial, hsolo, hconsistent⟩ := hs
  cases ClientProcess.effect_of_step hstep with
  | strandedReads u raw hrunning =>
      refine ⟨⟨initial, hsolo, hconsistent⟩, .inl ⟨?_, rfl, ?_⟩⟩
      · simp [newlyRenamed, Process.proceedStranded]
      · simp [due, hrunning, Process.proceedStranded]
  | strandedFails op u hasRead raw failure hrunning _ =>
      refine ⟨⟨initial, hsolo, hconsistent⟩, .inl ⟨?_, rfl, ?_⟩⟩
      · simp [newlyRenamed, Process.proceedStranded]
      · simp [due, hrunning, Process.proceedStranded]
  | works op id raw c files halive hrunning hcall hc heffect =>
      obtain ⟨hsolo', hconsistent'⟩ := ClientProcess.files_step hname hsolo hconsistent hcall
      refine ⟨⟨initial, hsolo', hconsistent'⟩, ?_⟩
      have hdue : due p = dueOf c := by simp [due, hrunning, hc]
      have hquiet : ∀ due' : List IpUpdate, due'.Sublist (dueOf c) →
          files.renamed = p.files.renamed → newlyRenamed p.files files = [] ∧
            contentOf files.disk hosts = contentOf p.files.disk hosts ∧
              due'.Sublist (dueOf c) := by
        intro due' hsub hrenamed
        refine ⟨?_, ClientProcess.content_of_renamed hconsistent hconsistent' hrenamed, hsub⟩
        rw [newlyRenamed, hrenamed, List.drop_length, List.map_nil]
      -- a call that goes on, and one that ends
      have hgoes : ∀ stage, files.calls id = some { c with stage } →
          dueOf { c with stage } = dueOf c →
          (((files.calls id).map dueOf).getD []).Sublist (dueOf c) := by
        intro stage hcalls hstage
        rw [hcalls]
        exact hstage ▸ List.Sublist.refl _
      have hends : files.calls id = none →
          (((files.calls id).map dueOf).getD []).Sublist (dueOf c) := by
        intro hcalls
        rw [hcalls]
        exact List.nil_sublist _
      rw [hdue, due_proceed]
      cases heffect with
      | reads existing hstage _ =>
          exact .inl (hquiet _ (hgoes _ (Function.update_self ..) (by simp [dueOf, hstage])) rfl)
      | opens existing hstage =>
          exact .inl (hquiet _ (hgoes _ (Function.update_self ..) (by simp [dueOf, hstage])) rfl)
      | writes existing file written count hstage _ _ =>
          exact .inl (hquiet _ (hgoes _ (Function.update_self ..) (by simp [dueOf, hstage])) rfl)
      | flushes existing file hstage =>
          exact .inl (hquiet _ (hgoes _ (Function.update_self ..) (by simp [dueOf, hstage])) rfl)
      | renames existing i hstage _ =>
          refine .inr ⟨c.request.update, ?_, by simp [dueOf, hstage], ?_,
            ClientProcess.content_of_rename hconsistent hconsistent' rfl⟩
          · simp [newlyRenamed, Process.proceed, World.publish, World.advance]
          · have hcalls : (p.files.publish hosts id c).calls id =
                some { c with stage := .renamed } := Function.update_self ..
            rw [hcalls]
            rfl
      | returns hstage => exact .inl (hquiet _ (hends (Function.update_self ..)) rfl)
      | fails op failure hstage => exact .inl (hquiet _ (hends (Function.update_self ..)) rfl)
      | dies => exact absurd rfl halive

/-- The file holds the updates `applied`, which are some of `us`, each once and in order;
a call that has not renamed yet is about a later one of them. -/
def Kept (hosts : Component) (initial : Bytes) (us applied : List IpUpdate) (p : Process) :
    Prop :=
  contentOf p.files.disk hosts = rewritten initial applied ∧ (applied ++ due p).Sublist us

section Kept
variable {initial : Bytes} {us us' applied : List IpUpdate}

theorem Kept.mono (h : Kept hosts initial us applied p) (hus : us.Sublist us') :
    Kept hosts initial us' applied p := ⟨h.1, h.2.trans hus⟩

theorem Kept.loop (hname : ∀ hostname, tmpName hostname ≠ hosts) {a : ClientLoop.Action}
    (h : Kept hosts initial us applied p) (hs : Sound hosts p)
    (hstep : ClientProcess.step cfg json hosts errorText p (.loop a) = some p') :
    Kept hosts initial (us ++ updateRead json p.phase a) applied p' := by
  obtain ⟨-, hfile, hnone, hdue⟩ := loop_step hname hs hstep
  obtain ⟨hcontent, hsub⟩ := h
  rw [hnone, List.append_nil] at hsub
  refine ⟨hfile.trans hcontent, ?_⟩
  rw [hdue]
  exact hsub.append (List.Sublist.refl _)

theorem Kept.file (hname : ∀ hostname, tmpName hostname ≠ hosts) {op : Op}
    (h : Kept hosts initial us applied p) (hs : Sound hosts p)
    (hstep : ClientProcess.step cfg json hosts errorText p (.file op) = some p') :
    Kept hosts initial us (applied ++ newlyRenamed p.files p'.files) p' := by
  obtain ⟨hcontent, hsub⟩ := h
  cases (file_step hname hs hstep).2 with
  | inl hsame =>
      obtain ⟨hnew, hfile, hdue⟩ := hsame
      rw [hnew, List.append_nil]
      exact ⟨hfile.trans hcontent, ((List.Sublist.refl _).append hdue).trans hsub⟩
  | inr hrename =>
      obtain ⟨u, hnew, hdue, hdone, hupdate⟩ := hrename
      rw [hcontent] at hupdate
      rw [hnew]
      refine ⟨(rewritten_concat hupdate).symm, ?_⟩
      rw [hdone, List.append_nil, ← hdue]
      exact hsub

/-- A process that is killed leaves its files, and nothing is due. -/
theorem Kept.restart (h : Kept hosts initial us applied p) :
    Kept hosts initial us applied (ClientProcess.start cfg p.files.disk) := by
  refine ⟨h.1, ?_⟩
  have hdue : due (ClientProcess.start cfg p.files.disk) = [] := rfl
  rw [hdue, List.append_nil]
  exact (List.sublist_append_left _ _).trans h.2

end Kept

end Process

end DnslessHomelab.PendingUpdates
