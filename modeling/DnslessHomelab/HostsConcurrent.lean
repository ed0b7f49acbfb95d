import DnslessHomelab.HostsUpdate
import Mathlib.Data.List.Permutation

/-!
# Concurrent updates of one hosts file

The calls of any number of processes share the hosts file and, for one hostname,
the temporary file. Two things keep an interleaving harmless: no call opens a
temporary file that another call is still filling, and when a call renames, the
hosts file still has the text the call has read. Runs that meet both keep the hosts
file equal to the updates in the order of their renames.
-/
namespace DnslessHomelab.HostsConcurrent
open Protocol ReplaceOrAppend InodeStore Runs HostsUpdate

/-- The update of a file content; absent when the content is not UTF-8. -/
def updateBytes (content : Bytes) (u : IpUpdate) : Option Bytes :=
  (Utf8.decode content).map fun text => Utf8.encode (applyUpdate text u)

/-- A file that does not exist has the empty content. -/
def contentOf (disk : Directory) (n : Component) : Bytes := (disk.read n).getD []

theorem existingOf_read (disk : Directory) (n : Component) :
    existingOf (disk.read n) = Utf8.decode (contentOf disk n) := by
  unfold contentOf existingOf
  cases disk.read n <;> rfl

/-- The temporary file of the call is open, or written and not yet renamed. -/
def holding (c : Call) : Bool :=
  match c.stage with
  | .writing .. | .closed _ => true
  | _ => false

abbrev tmpOf (c : Call) : Component := tmpName c.request.hostname

/-- What the step needs so that the calls do not disturb each other. -/
def Undisturbed (hosts : Component) (w : World) : Action → Prop
  | .at id .openTemp => ∀ c ∈ w.calls id, tmpOf c ≠ hosts ∧
      ∀ j < w.nextId, j ≠ id → ∀ d ∈ w.calls j, holding d = true → tmpOf d ≠ tmpOf c
  | .at id .rename => ∀ c ∈ w.calls id, match c.stage with
      | .closed existing => existingOf (w.disk.read hosts) = some existing
      | _ => True
  | _ => True

instance (hosts : Component) (w : World) (a : Action) : Decidable (Undisturbed hosts w a) :=
  match a with
  | .at id .openTemp =>
      inferInstanceAs (Decidable (∀ c ∈ w.calls id, tmpOf c ≠ hosts ∧
        ∀ j < w.nextId, j ≠ id → ∀ d ∈ w.calls j, holding d = true → tmpOf d ≠ tmpOf c))
  | .at id .rename =>
      have (c : Call) : Decidable (match c.stage with
          | .closed existing => existingOf (w.disk.read hosts) = some existing
          | _ => True) := by split <;> infer_instance
      inferInstanceAs (Decidable (∀ c ∈ w.calls id, _))
  | .call _ | .at _ .read | .at _ (.write _) | .at _ .flush | .at _ .returns | .at _ .fails
  | .at _ .dies => inferInstanceAs (Decidable True)

/-- A held temporary file contains what its call has written. -/
def TempOk (hosts : Component) (disk : Directory) (c : Call) : Prop :=
  match c.stage with
  | .writing existing file written =>
      tmpOf c ≠ hosts ∧ disk.inode (tmpOf c) = some file ∧
        disk.data file = (newContent existing c.request).take written ∧
        written ≤ (newContent existing c.request).length
  | .closed existing =>
      tmpOf c ≠ hosts ∧ disk.read (tmpOf c) = some (newContent existing c.request)
  | _ => True

theorem TempOk.ne_hosts {hosts : Component} {disk : Directory} {c : Call}
    (h : TempOk hosts disk c) (hc : holding c = true) : tmpOf c ≠ hosts := by
  unfold TempOk at h
  unfold holding at hc
  split at h
  · exact h.1
  · exact h.1
  · simp_all

/-- Only the inode of the temporary file and its data matter. -/
theorem TempOk.frame {hosts : Component} {disk disk' : Directory} {c : Call}
    (h : TempOk hosts disk c)
    (hinode : holding c = true → disk'.inode (tmpOf c) = disk.inode (tmpOf c))
    (hdata : holding c = true → ∀ i, disk.inode (tmpOf c) = some i →
      disk'.data i = disk.data i) : TempOk hosts disk' c := by
  unfold TempOk at h ⊢
  unfold holding at hinode hdata
  split at h <;> rename_i hstage
  · simp only [hstage, forall_const] at hinode hdata ⊢
    rw [hinode, hdata _ h.2.1]
    exact h
  · simp only [hstage, forall_const] at hinode hdata ⊢
    refine ⟨h.1, ?_⟩
    rw [← h.2]
    unfold Disk.read
    rw [hinode]
    cases hi : disk.inode (tmpOf c) with
    | none => rfl
    | some i => exact congrArg some (hdata i hi)
  · trivial

/-- The hosts file is what the renames made of it, and no two calls hold the same
temporary file. -/
structure Consistent (hosts : Component) (initial : Bytes) (w : World) : Prop where
  fresh : ∀ id c, w.calls id = some c → id < w.nextId
  temp : ∀ id c, w.calls id = some c → TempOk hosts w.disk c
  exclusive : ∀ i j c d, w.calls i = some c → w.calls j = some d → i ≠ j →
    holding c = true → holding d = true → tmpOf c ≠ tmpOf d
  content : (w.renamed.map Prod.snd).foldlM updateBytes initial =
    some (contentOf w.disk hosts)

theorem consistent_start (hosts : Component) (disk : Directory) :
    Consistent hosts (contentOf disk hosts) (start disk) where
  fresh := by simp [start]
  temp := by simp [start]
  exclusive := by simp [start]
  content := rfl

section Step
variable {hosts : Component} {initial : Bytes} {w w' : World} {id : ℕ}

/-- One table entry and the disk change: what has to be shown. -/
theorem Consistent.change (hw : Consistent hosts initial w) {entry : Option Call}
    (hcalls : w'.calls = Function.update w.calls id entry)
    (hnext : w.nextId ≤ w'.nextId) (hid : id < w'.nextId)
    (hothers : ∀ j d, j ≠ id → w.calls j = some d → TempOk hosts w'.disk d)
    (hentry : ∀ c ∈ entry, TempOk hosts w'.disk c)
    (halone : ∀ c ∈ entry, holding c = true → ∀ j d, j ≠ id → w.calls j = some d →
      holding d = true → tmpOf d ≠ tmpOf c)
    (hcontent : (w'.renamed.map Prod.snd).foldlM updateBytes initial =
      some (contentOf w'.disk hosts)) : Consistent hosts initial w' := by
  constructor
  · intro j d hd
    rw [hcalls, Function.update_apply] at hd
    split_ifs at hd with hj
    · rw [hj]
      exact hid
    · exact Nat.lt_of_lt_of_le (hw.fresh j d hd) hnext
  · intro j d hd
    rw [hcalls, Function.update_apply] at hd
    split_ifs at hd with hj
    · exact hentry d hd
    · exact hothers j d hj hd
  · intro i j c d hc hd hij hhc hhd
    rw [hcalls, Function.update_apply] at hc hd
    split_ifs at hc hd with h₁ h₂ h₂
    · exact absurd (h₁.trans h₂.symm) hij
    · exact (halone c hc hhc j d h₂ hd hhd).symm
    · exact halone d hd hhd i c h₁ hc hhc
    · exact hw.exclusive i j c d hc hd hij hhc hhd
  · exact hcontent

/-- A call is entered, goes on without touching a file, or ends. -/
theorem Consistent.change_quiet (hw : Consistent hosts initial w) {entry : Option Call}
    (hcalls : w'.calls = Function.update w.calls id entry)
    (hnext : w.nextId ≤ w'.nextId) (hid : id < w'.nextId)
    (hdisk : w'.disk = w.disk) (hrenamed : w'.renamed = w.renamed)
    (hentry : ∀ c ∈ entry, holding c = false) : Consistent hosts initial w' := by
  apply hw.change hcalls hnext hid
  · intro j d _ hd
    rw [hdisk]
    exact hw.temp j d hd
  · intro c hc
    have := hentry c hc
    unfold TempOk
    unfold holding at this
    split <;> simp_all
  · intro c hc hhc
    rw [hentry c hc] at hhc
    cases hhc
  · rw [hrenamed, hdisk]
    exact hw.content

variable {c : Call} (hw : Consistent hosts initial w) (hc : w.calls id = some c)
include hw hc

theorem Consistent.remove (id_eq : w'.calls = Function.update w.calls id none)
    (hnext : w'.nextId = w.nextId) (hdisk : w'.disk = w.disk)
    (hrenamed : w'.renamed = w.renamed) : Consistent hosts initial w' :=
  hw.change_quiet id_eq hnext.ge (hnext ▸ hw.fresh id c hc) hdisk hrenamed (by simp)

theorem Consistent.openTemp (existing : Text)
    (hok : Undisturbed hosts w (.at id .openTemp)) :
    Consistent hosts initial (w.openTemp id c existing) := by
  obtain ⟨hne, hothers⟩ := hok c hc
  have hframe : ∀ j d, j ≠ id → w.calls j = some d → holding d = true → tmpOf d ≠ tmpOf c :=
    fun j d hj hd => hothers j (hw.fresh j d hd) hj d hd
  refine hw.change rfl (Nat.le_refl _) (hw.fresh id c hc) ?_ ?_ ?_ ?_
  · intro j d hj hd
    apply (hw.temp j d hd).frame
    · exact fun hhd => Disk.inode_openTruncate_of_ne (hframe j d hj hd hhd)
    · exact fun hhd i hi => Disk.data_openTruncate_of_ne (hframe j d hj hd hhd) hi
  · rintro _ ⟨⟩
    refine ⟨hne, Disk.inode_openTruncate .., ?_, Nat.zero_le _⟩
    exact Disk.data_openTruncate ..
  · rintro _ ⟨⟩ _ j d hj hd hhd
    exact hframe j d hj hd hhd
  · have hread := Disk.read_openTruncate_of_ne (d := w.disk) (Ne.symm hne)
    have := hw.content
    simp only [World.openTemp, World.advance, contentOf] at this ⊢
    rw [hread]
    exact this

theorem Consistent.write {existing : Text} {file written count : ℕ}
    (hstage : c.stage = .writing existing file written)
    (hcount : written + count ≤ (newContent existing c.request).length) :
    Consistent hosts initial (w.write id c existing file written count) := by
  have hheld : holding c = true := by simp [holding, hstage]
  have htemp := hw.temp id c hc
  unfold TempOk at htemp
  simp only [hstage] at htemp
  obtain ⟨hne, hinode, hdata, hwritten⟩ := htemp
  have hframe : ∀ j d, j ≠ id → w.calls j = some d → holding d = true → tmpOf d ≠ tmpOf c :=
    fun j d hj hd hhd => hw.exclusive j id d c hd hc hj hhd hheld
  refine hw.change rfl (Nat.le_refl _) (hw.fresh id c hc) ?_ ?_ ?_ ?_
  · intro j d hj hd
    apply (hw.temp j d hd).frame
    · exact fun _ => rfl
    · exact fun hhd i hi => Disk.data_writeAt_of_ne hinode (hframe j d hj hd hhd) hi _ _ _
  · rintro _ ⟨⟩
    refine ⟨hne, hinode, ?_, hcount⟩
    -- the descriptor's offset is the length of what is there
    have hlen : (w.disk.data file).length = written := by
      rw [hdata, List.length_take]
      omega
    have hnew := Disk.data_writeAt w.disk 0 file (w.disk.data file).length
      (((newContent existing c.request).drop written).take count)
    rw [Disk.overwrite_end, hlen, hdata, ← List.take_add] at hnew
    exact hnew
  · rintro _ ⟨⟩ _ j d hj hd hhd
    exact hframe j d hj hd hhd
  · have hread := Disk.read_writeAt_of_ne hinode (Ne.symm hne) 0 written
      (((newContent existing c.request).drop written).take count)
    have := hw.content
    simp only [World.write, World.advance, contentOf] at this ⊢
    rw [hread]
    exact this

theorem Consistent.flush {existing : Text} {file : ℕ}
    (hstage : c.stage = .writing existing file (newContent existing c.request).length) :
    Consistent hosts initial (w.advance id c (.closed existing)) := by
  have hheld : holding c = true := by simp [holding, hstage]
  have htemp := hw.temp id c hc
  unfold TempOk at htemp
  simp only [hstage] at htemp
  obtain ⟨hne, hinode, hdata, -⟩ := htemp
  refine hw.change rfl (Nat.le_refl _) (hw.fresh id c hc) ?_ ?_ ?_ ?_
  · exact fun j d _ hd => hw.temp j d hd
  · rintro _ ⟨⟩
    refine ⟨hne, ?_⟩
    rw [List.take_length] at hdata
    exact hdata ▸ congrArg (Option.map w.disk.data) hinode
  · rintro _ ⟨⟩ _ j d hj hd hhd
    exact hw.exclusive j id d c hd hc hj hhd hheld
  · exact hw.content

theorem Consistent.publish {existing : Text} {i : ℕ} (hstage : c.stage = .closed existing)
    (hinode : w.disk.inode (tmpOf c) = some i)
    (hok : Undisturbed hosts w (.at id .rename)) :
    Consistent hosts initial (w.publish hosts id c) := by
  have hheld : holding c = true := by simp [holding, hstage]
  have htemp := hw.temp id c hc
  have hcurrent := hok c hc
  unfold TempOk at htemp
  simp only [hstage] at htemp hcurrent
  have hupdate : updateBytes (contentOf w.disk hosts) c.request.update =
      some (newContent existing c.request) := by
    rw [existingOf_read] at hcurrent
    rw [updateBytes, hcurrent]
    rfl
  have hdata : w.disk.data i = newContent existing c.request := by
    have := htemp.2
    simpa [Disk.read, hinode] using this
  refine hw.change rfl (Nat.le_refl _) (hw.fresh id c hc) ?_ ?_ ?_ ?_
  · intro j d hj hd
    apply (hw.temp j d hd).frame
    · intro hhd
      exact Disk.inode_rename_of_ne hinode (hw.exclusive j id d c hd hc hj hhd hheld)
        ((hw.temp j d hd).ne_hosts hhd)
    · exact fun _ _ _ => rfl
  · rintro _ ⟨⟩
    trivial
  · rintro _ ⟨⟩ hholding
    cases hholding
  · have hcontent := hw.content
    have hread : (w.disk.rename (tmpOf c) hosts).read hosts = some (w.disk.data i) :=
      Disk.read_rename hinode
    simp only [World.publish, World.advance, List.map_append, List.map_cons, List.map_nil,
      List.foldlM_append, hcontent, contentOf, hread, hdata] at hupdate ⊢
    simpa using hupdate

end Step

theorem consistent_step {hosts : Component} {initial : Bytes} (w : World) (a : Action)
    (w' : World) (hw : Consistent hosts initial w) (hok : Undisturbed hosts w a)
    (h : step hosts w a = some w') : Consistent hosts initial w' := by
  cases a with
  | call request =>
      cases h
      exact hw.change_quiet rfl (Nat.le_succ _) (Nat.lt_succ_self _) rfl rfl (by simp [holding])
  | «at» id op =>
      obtain ⟨c, hc, h⟩ := Option.bind_eq_some_iff.mp h
      cases effect_of_callStep h with
      | reads existing hstage hread =>
          exact hw.change_quiet rfl (Nat.le_refl _) (hw.fresh id c hc) rfl rfl (by simp [holding])
      | opens existing hstage => exact hw.openTemp hc existing hok
      | writes existing file written count hstage hpos hcount => exact hw.write hc hstage hcount
      | flushes existing file hstage => exact hw.flush hc hstage
      | renames existing i hstage hinode => exact hw.publish hc hstage hinode hok
      | returns hstage => exact hw.remove hc rfl rfl rfl rfl
      | fails op failure hstage => exact hw.remove hc rfl rfl rfl rfl
      | dies => exact hw.remove hc rfl rfl rfl rfl

/-- Some sequential order of the updates explains the content. -/
def Linearized (initial : Bytes) (updates : List IpUpdate) (content : Bytes) : Prop :=
  ∃ order : List IpUpdate, order.Perm updates ∧
    order.foldlM updateBytes initial = some content

instance (initial : Bytes) (updates : List IpUpdate) (content : Bytes) :
    Decidable (Linearized initial updates content) :=
  decidable_of_iff (∃ order ∈ updates.permutations',
    order.foldlM updateBytes initial = some content) (by simp [Linearized])

/-- In every run whose steps do not disturb each other, the updates renamed into
place so far explain the hosts file, in the order of the renames. -/
theorem linearized_of_undisturbed (hosts : Component) (disk : Directory)
    (actions : List Action) (w : World)
    (hok : Guarded (step hosts) (Undisturbed hosts) (start disk) actions)
    (h : run (step hosts) (start disk) actions = some w) :
    Linearized (contentOf disk hosts) (w.renamed.map Prod.snd) (contentOf w.disk hosts) := by
  have hw := invariant_guarded (fun w a w' => consistent_step w a w')
    (consistent_start hosts disk) hok h
  exact ⟨_, List.Perm.refl _, hw.content⟩

def hostsName : Component := ⟨"hosts".toList, by decide⟩

def nas : Request := ⟨⟨"nas".toList, by decide⟩, "10.0.0.1".toList⟩

def box : Request := ⟨⟨"box".toList, by decide⟩, "10.0.0.2".toList⟩

/-- The steps of a call that meets no failure, after its read of `existing`. -/
def writeSteps (id : ℕ) (existing : Text) (r : Request) : List Action :=
  [.at id .openTemp, .at id (.write (newContent existing r).length), .at id .flush,
    .at id .rename, .at id .returns]

/-- Both calls read before either renames. -/
def overlappingReads : List Action :=
  [.call nas, .call box, .at 0 .read, .at 1 .read] ++ writeSteps 0 [] nas ++
    writeSteps 1 [] box

/-- The second call reads what the first one published. -/
def consecutiveCalls : List Action :=
  [.call nas, .call box, .at 0 .read] ++ writeSteps 0 [] nas ++ [.at 1 .read] ++
    writeSteps 1 (applyUpdate [] nas.update) box

theorem consecutiveCalls_linearized :
    ∃ w, run (step hostsName) (start Disk.empty) consecutiveCalls = some w ∧
      w.renamed.map Prod.snd = [nas.update, box.update] ∧
      Linearized (contentOf Disk.empty hostsName) (w.renamed.map Prod.snd)
        (contentOf w.disk hostsName) := by
  have hrun : ∃ w, run (step hostsName) (start Disk.empty) consecutiveCalls = some w ∧
      w.renamed.map Prod.snd = [nas.update, box.update] := by decide +kernel
  obtain ⟨w, hw, hrenamed⟩ := hrun
  exact ⟨w, hw, hrenamed, linearized_of_undisturbed hostsName Disk.empty consecutiveCalls w
    (by decide +kernel) hw⟩

/-- Both updates returned without an error; only one is in the file. -/
theorem overlappingReads_lose_update :
    ∃ w, run (step hostsName) (start Disk.empty) overlappingReads = some w ∧
      w.renamed.map Prod.snd = [nas.update, box.update] ∧
      ¬ Linearized (contentOf Disk.empty hostsName) (w.renamed.map Prod.snd)
        (contentOf w.disk hostsName) := by decide +kernel

end DnslessHomelab.HostsConcurrent
