import DnslessHomelab.HostsConcurrent

/-!
# One process, failures and deaths

A client process runs one call at a time. Every step of a call may fail or be the
last one before the process dies and is started again, and stale temporary files
may hold anything. The hosts file still is the fold of the updates whose rename
took place; a call that reports an error has left it as it was.
-/
namespace DnslessHomelab.HostsCrash
open Protocol ReplaceOrAppend InodeStore Runs HostsUpdate HostsConcurrent

/-- A process enters a call only when its last one has ended. -/
def soloStep (hosts : Component) (w : World) (a : Action) : Option World :=
  match a with
  | .call _ => if ∀ j < w.nextId, w.calls j = none then step hosts w a else none
  | _ => step hosts w a

theorem step_of_soloStep {hosts : Component} {w w' : World} {a : Action}
    (h : soloStep hosts w a = some w') : step hosts w a = some w' := by
  unfold soloStep at h
  split at h
  · split_ifs at h
    exact h
  · exact h

/-- The hosts file has not changed since the call began, and what the call knows
of it is right. -/
structure Pending (hosts : Component) (w : World) (id : ℕ) (c : Call) : Prop where
  before : c.before = w.disk.read hosts
  existing : ∀ text ∈ c.stage.existing, existingOf c.before = some text
  notRenamed : id ∉ w.renamed.map Prod.fst

/-- A call that is still running: pending, or renamed and about to return. -/
def Running (hosts : Component) (w : World) (id : ℕ) (c : Call) : Prop :=
  c.stage = .renamed ∧ (id, c.request.update) ∈ w.renamed ∨
    c.stage ≠ .renamed ∧ Pending hosts w id c

/-- What the result of a call promises. -/
def Honest (w : World) (o : Outcome) : Prop :=
  match o.result with
  | .ok _ => (o.id, o.update) ∈ w.renamed
  | .error _ => o.after = o.before ∧ o.id ∉ w.renamed.map Prod.fst

structure Solo (hosts : Component) (w : World) : Prop where
  alone : ∀ i j c d, w.calls i = some c → w.calls j = some d → i = j
  named : ∀ id c, w.calls id = some c → tmpOf c ≠ hosts
  running : ∀ id c, w.calls id = some c → Running hosts w id c
  ended : ∀ o ∈ w.outcomes, o.id < w.nextId ∧ w.calls o.id = none
  honest : ∀ o ∈ w.outcomes, Honest w o
  renamedBefore : ∀ id ∈ w.renamed.map Prod.fst, id < w.nextId

theorem solo_start (hosts : Component) (disk : Directory) : Solo hosts (start disk) := by
  constructor <;> simp [start]

section Step
variable {hosts : Component} {w w' : World} {id : ℕ} {c : Call}

/-- A single running call disturbs nothing. -/
theorem Solo.undisturbed (hs : Solo hosts w) (a : Action) :
    Undisturbed hosts w a := by
  cases a with
  | call request => trivial
  | «at» id op =>
      cases op with
      | openTemp =>
          intro c hc
          refine ⟨hs.named id c hc, fun j _ hj d hd _ => ?_⟩
          exact absurd (hs.alone j id d c hd hc) hj
      | rename =>
          intro c hc
          split
          · rename_i existing hstage
            have hpending : Pending hosts w id c := by
              cases hs.running id c hc with
              | inl h => simp [hstage] at h
              | inr h => exact h.2
            rw [← hpending.before]
            exact hpending.existing existing (by simp [hstage, Stage.existing])
          · trivial
      | read | write | flush | returns | fails | dies => trivial

variable (hs : Solo hosts w) (hc : w.calls id = some c)
include hs hc

/-- The call goes on: only its own entry, and perhaps its temporary file, change. -/
theorem Solo.advance {stage : Stage}
    (hcalls : w'.calls = Function.update w.calls id (some { c with stage }))
    (hnext : w'.nextId = w.nextId) (houtcomes : w'.outcomes = w.outcomes)
    (hfresh : id < w.nextId)
    (hrenamed : ∃ more, w'.renamed = w.renamed ++ more ∧ ∀ p ∈ more, p.1 = id)
    (hrunning : Running hosts w' id { c with stage }) : Solo hosts w' := by
  obtain ⟨more, hmore, hid⟩ := hrenamed
  have halone : ∀ j d, w'.calls j = some d → j = id ∧ d = { c with stage } := by
    intro j d hd
    rw [hcalls, Function.update_apply] at hd
    split_ifs at hd with hj
    · exact ⟨hj, (Option.some.inj hd).symm⟩
    · exact absurd (hs.alone j id d c hd hc) hj
  constructor
  · intro i j d e hd he
    rw [(halone i d hd).1, (halone j e he).1]
  · intro j d hd
    rw [(halone j d hd).2]
    exact hs.named id c hc
  · intro j d hd
    obtain ⟨rfl, rfl⟩ := halone j d hd
    exact hrunning
  · intro o ho
    rw [houtcomes] at ho
    obtain ⟨hlt, hnone⟩ := hs.ended o ho
    have hne : o.id ≠ id := by
      intro h
      rw [h, hc] at hnone
      cases hnone
    exact ⟨hnext ▸ hlt, by rw [hcalls, Function.update_of_ne hne, hnone]⟩
  · intro o ho
    rw [houtcomes] at ho
    have hne : o.id ≠ id := by
      intro h
      have := (hs.ended o ho).2
      rw [h, hc] at this
      cases this
    have hhonest := hs.honest o ho
    unfold Honest at hhonest ⊢
    split at hhonest
    · rw [hmore]
      exact List.mem_append_left _ hhonest
    · refine ⟨hhonest.1, ?_⟩
      rw [hmore, List.map_append, List.mem_append]
      rintro (h | h)
      · exact hhonest.2 h
      · obtain ⟨p, hp, hpid⟩ := List.mem_map.mp h
        exact hne (hpid ▸ hid p hp)
  · intro j hj
    rw [hmore, List.map_append, List.mem_append] at hj
    rw [hnext]
    cases hj with
    | inl hj => exact hs.renamedBefore j hj
    | inr hj =>
        obtain ⟨p, hp, rfl⟩ := List.mem_map.mp hj
        exact hid p hp ▸ hfresh

/-- The call ends, with one more outcome or with none. -/
theorem Solo.remove (hcalls : w'.calls = Function.update w.calls id none)
    (hnext : w'.nextId = w.nextId) (hrenamed : w'.renamed = w.renamed) (hfresh : id < w.nextId)
    (houtcomes : ∀ o ∈ w'.outcomes, o ∈ w.outcomes ∨ o.id = id ∧ Honest w o) :
    Solo hosts w' := by
  have hnone : ∀ j, w'.calls j = none := by
    intro j
    rw [hcalls, Function.update_apply]
    split_ifs with hj
    · rfl
    · cases hd : w.calls j with
      | none => rfl
      | some d => exact absurd (hs.alone j id d c hd hc) hj
  constructor
  · intro i j d e hd
    rw [hnone] at hd
    cases hd
  · intro j d hd
    rw [hnone] at hd
    cases hd
  · intro j d hd
    rw [hnone] at hd
    cases hd
  · intro o ho
    refine ⟨?_, hnone _⟩
    rw [hnext]
    cases houtcomes o ho with
    | inl h => exact (hs.ended o h).1
    | inr h => exact h.1 ▸ hfresh
  · intro o ho
    unfold Honest
    rw [hrenamed]
    cases houtcomes o ho with
    | inl h => exact hs.honest o h
    | inr h => exact h.2
  · rw [hrenamed, hnext]
    exact hs.renamedBefore

theorem Solo.finish {result : Except Failure Unit} (hfresh : id < w.nextId)
    (hresult : (∃ u, result = .ok u) ↔ c.stage = .renamed) :
    Solo hosts (w.finish hosts id c result) := by
  refine hs.remove hc rfl rfl rfl hfresh ?_
  intro o ho
  cases List.mem_append.mp ho with
  | inl h => exact .inl h
  | inr h =>
      cases List.mem_singleton.mp h
      refine .inr ⟨rfl, ?_⟩
      cases result with
      | ok u =>
          have hstage := hresult.mp ⟨u, rfl⟩
          cases hs.running id c hc with
          | inl h => exact h.2
          | inr h => exact absurd hstage h.1
      | error failure =>
          cases hs.running id c hc with
          | inl h =>
              obtain ⟨u, hu⟩ := hresult.mpr h.1
              cases hu
          | inr h => exact ⟨h.2.before.symm, h.2.notRenamed⟩

/-- A pending call stays pending while the hosts file keeps its content. -/
theorem Solo.pending (hstage : c.stage ≠ .renamed) {stage : Stage}
    (hread : w'.disk.read hosts = w.disk.read hosts) (hrenamed : w'.renamed = w.renamed)
    (hexisting : ∀ text ∈ stage.existing, existingOf c.before = some text)
    (hne : stage ≠ .renamed) : Running hosts w' id { c with stage } := by
  cases hs.running id c hc with
  | inl h => exact absurd h.1 hstage
  | inr h =>
      refine .inr ⟨hne, ?_⟩
      constructor
      · rw [hread]
        exact h.2.before
      · exact hexisting
      · rw [hrenamed]
        exact h.2.notRenamed

end Step

theorem solo_call {hosts : Component} {w w' : World} {request : Request} (hs : Solo hosts w)
    (hname : tmpName request.hostname ≠ hosts)
    (h : soloStep hosts w (.call request) = some w')
    (hnew : ∀ j, w.nextId ≤ j → w.calls j = none) : Solo hosts w' := by
  unfold soloStep at h
  split_ifs at h with hidle
  cases h
  have hnone : ∀ j, w.calls j = none := by
    intro j
    cases Nat.lt_or_ge j w.nextId with
    | inl hj => exact hidle j hj
    | inr hj => exact hnew j hj
  have hentry : ∀ j d, Function.update w.calls w.nextId
      (some ⟨request, w.disk.read hosts, .entered⟩) j = some d →
      j = w.nextId ∧ d = ⟨request, w.disk.read hosts, .entered⟩ := by
    intro j d hd
    rw [Function.update_apply, hnone] at hd
    split_ifs at hd with hj
    exact ⟨hj, (Option.some.inj hd).symm⟩
  constructor
  · intro i j d e hd he
    rw [(hentry i d hd).1, (hentry j e he).1]
  · intro j d hd
    rw [(hentry j d hd).2]
    exact hname
  · intro j d hd
    obtain ⟨rfl, rfl⟩ := hentry j d hd
    refine .inr ⟨by simp, rfl, by simp [Stage.existing], ?_⟩
    exact fun h => Nat.lt_irrefl _ (hs.renamedBefore _ h)
  · intro o ho
    have hlt := (hs.ended o ho).1
    refine ⟨Nat.lt_succ_of_lt hlt, ?_⟩
    exact (Function.update_of_ne (Nat.ne_of_lt hlt) ..).trans (hnone _)
  · exact hs.honest
  · exact fun j hj => Nat.lt_succ_of_lt (hs.renamedBefore j hj)

theorem solo_step {hosts : Component} {initial : Bytes} {w w' : World} {a : Action}
    (hs : Solo hosts w) (hw : Consistent hosts initial w)
    (hname : ∀ r, a = .call r → tmpName r.hostname ≠ hosts)
    (h : soloStep hosts w a = some w') : Solo hosts w' := by
  cases a with
  | call request =>
      apply solo_call hs (hname request rfl) h
      intro j hj
      cases hd : w.calls j with
      | none => rfl
      | some d => exact absurd (hw.fresh j d hd) (Nat.not_lt.mpr hj)
  | «at» id op =>
      obtain ⟨c, hc, h⟩ := Option.bind_eq_some_iff.mp (step_of_soloStep h)
      have hfresh := hw.fresh id c hc
      have hne := hs.named id c hc
      have hknown : c.stage ≠ .renamed → ∀ text ∈ c.stage.existing,
          existingOf c.before = some text := by
        intro hstage
        cases hs.running id c hc with
        | inl h => exact absurd h.1 hstage
        | inr h => exact h.2.existing
      cases effect_of_callStep h with
      | reads existing hstage hread =>
          refine hs.advance hc rfl rfl rfl hfresh ⟨[], by simp [World.advance], by simp⟩ ?_
          refine hs.pending hc (by simp [hstage]) rfl rfl ?_ (by simp)
          rintro _ ⟨⟩
          cases hs.running id c hc with
          | inl h => simp [hstage] at h
          | inr h => rw [h.2.before, hread]
      | opens existing hstage =>
          refine hs.advance hc rfl rfl rfl hfresh
            ⟨[], by simp [World.openTemp, World.advance], by simp⟩ ?_
          refine hs.pending hc (by simp [hstage]) ?_ rfl ?_ (by simp)
          · exact Disk.read_openTruncate_of_ne hne.symm
          · exact fun text htext => hknown (by simp [hstage]) text (by rw [hstage]; exact htext)
      | writes existing file written count hstage hpos hcount =>
          have htemp := hw.temp id c hc
          unfold TempOk at htemp
          simp only [hstage] at htemp
          refine hs.advance hc rfl rfl rfl hfresh
            ⟨[], by simp [World.write, World.advance], by simp⟩ ?_
          refine hs.pending hc (by simp [hstage]) ?_ rfl ?_ (by simp)
          · exact Disk.read_writeAt_of_ne htemp.2.1 hne.symm _ _ _
          · exact fun text htext => hknown (by simp [hstage]) text (by rw [hstage]; exact htext)
      | flushes existing file hstage =>
          refine hs.advance hc rfl rfl rfl hfresh ⟨[], by simp [World.advance], by simp⟩ ?_
          refine hs.pending hc (by simp [hstage]) rfl rfl ?_ (by simp)
          exact fun text htext => hknown (by simp [hstage]) text (by rw [hstage]; exact htext)
      | renames existing i hstage hinode =>
          refine hs.advance hc rfl rfl rfl hfresh
            ⟨[(id, c.request.update)], rfl, by simp⟩ (.inl ⟨rfl, ?_⟩)
          exact List.mem_append_right _ (List.mem_singleton.mpr rfl)
      | returns hstage => exact hs.finish hc hfresh (by simp [hstage])
      | fails op failure hstage => exact hs.finish hc hfresh (by simp [hstage])
      | dies => exact hs.remove hc rfl rfl rfl hfresh (fun o ho => .inl ho)

/-- Both invariants, for the calls that stay away from the hosts file's own name. -/
theorem solo_run {hosts : Component} {disk : Directory} {actions : List Action} {w : World}
    (hname : ∀ r, Action.call r ∈ actions → tmpName r.hostname ≠ hosts)
    (h : run (soloStep hosts) (start disk) actions = some w) :
    Solo hosts w ∧ Consistent hosts (contentOf disk hosts) w := by
  have hok : Guarded (soloStep hosts)
      (fun _ a => ∀ r, a = Action.call r → tmpName r.hostname ≠ hosts) (start disk) actions :=
    guarded_of_forall fun a ha r hr => hname r (hr ▸ ha)
  refine invariant_guarded (I := fun w => Solo hosts w ∧ Consistent hosts _ w) ?_
    ⟨solo_start hosts disk, consistent_start hosts disk⟩ hok h
  intro w a w' hw hok hstep
  constructor
  · exact solo_step hw.1 hw.2 hok hstep
  · exact consistent_step w a w' hw.2 (hw.1.undisturbed a) (step_of_soloStep hstep)

/-- The hosts file is the fold of the updates whose rename took place; a call that
returned without an error was renamed, and one that returned an error has left the
file as it was. -/
theorem hosts_eq_renamed (hosts : Component) (disk : Directory) (actions : List Action)
    (w : World) (hname : ∀ r, Action.call r ∈ actions → tmpName r.hostname ≠ hosts)
    (h : run (soloStep hosts) (start disk) actions = some w) :
    (w.renamed.map Prod.snd).foldlM updateBytes (contentOf disk hosts) =
        some (contentOf w.disk hosts) ∧
      ∀ o ∈ w.outcomes, Honest w o := by
  obtain ⟨hs, hw⟩ := solo_run hname h
  exact ⟨hw.content, hs.honest⟩

/-- A hosts file, and a temporary file left behind by an earlier process. -/
def staleTemp : Directory :=
  let disk := (Disk.empty.openTruncate hostsName).writeAt 0 0 0
    (Utf8.encode "127.0.0.1 localhost".toList)
  (disk.openTruncate (tmpName nas.hostname)).writeAt 0 1 0 [255, 10]

/-- A call fails in the middle of its write, the next one of the same hostname is
carried out, and the process dies in a third. -/
def failedThenRetried : List Action :=
  [.call nas, .at 0 .read, .at 0 .openTemp, .at 0 (.write 7), .at 0 .fails,
    .call nas, .at 1 .read] ++ writeSteps 1 "127.0.0.1 localhost".toList nas ++
  [.call box, .at 2 .read, .at 2 .openTemp, .at 2 (.write 3), .at 2 .dies]

theorem failedThenRetried_renamed :
    ∃ w, run (soloStep hostsName) (start staleTemp) failedThenRetried = some w ∧
      w.renamed = [(1, nas.update)] ∧
      (w.renamed.map Prod.snd).foldlM updateBytes (contentOf staleTemp hostsName) =
        some (contentOf w.disk hostsName) ∧
      ∀ o ∈ w.outcomes, Honest w o := by
  have hrun : ∃ w, run (soloStep hostsName) (start staleTemp) failedThenRetried = some w ∧
      w.renamed = [(1, nas.update)] := by decide +kernel
  obtain ⟨w, hw, hrenamed⟩ := hrun
  have hname : ∀ r, Action.call r ∈ failedThenRetried → tmpName r.hostname ≠ hostsName := by
    intro r hr
    have : r = nas ∨ r = box := by simpa [failedThenRetried, writeSteps] using hr
    cases this with
    | inl h => exact h ▸ by decide
    | inr h => exact h ▸ by decide
  exact ⟨w, hw, hrenamed,
    hosts_eq_renamed hostsName staleTemp failedThenRetried w hname hw⟩

end DnslessHomelab.HostsCrash
