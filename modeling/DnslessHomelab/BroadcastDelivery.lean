import DnslessHomelab.Broadcast
import DnslessHomelab.MessageText
import Mathlib.Data.List.Nodup

/-!
# What a connection receives

`deliver` says what one connection gets of a sequence of lines by its own write
outcomes alone: whole lines up to its first failing write, and of that line the
octets that were taken. Every connection receives `deliver` of the broadcasts that
took the lock after it was pushed, and is in the list exactly as long as no write
to it has failed.
-/
namespace DnslessHomelab.BroadcastDelivery
open Protocol Runs Broadcast

section Deliver
variable (accepts : ℕ → ℕ)

/-- Octets taken of the lines from index `i` on. -/
def deliver (i : ℕ) : List Bytes → Bytes
  | [] => []
  | line :: lines =>
      if line.length ≤ accepts i then line ++ deliver (i + 1) lines else line.take (accepts i)

/-- No write among the lines from index `i` on fails. -/
def survives (i : ℕ) : List Bytes → Bool
  | [] => true
  | line :: lines => line.length ≤ accepts i && survives (i + 1) lines

theorem survives_concat (i : ℕ) (lines : List Bytes) (line : Bytes) :
    survives accepts i (lines ++ [line]) =
      (survives accepts i lines && decide (line.length ≤ accepts (i + lines.length))) := by
  induction lines generalizing i with
  | nil => simp [survives]
  | cons l lines ih =>
      rw [List.length_cons, ← Nat.add_assoc, Nat.add_right_comm]
      simp [survives, ih, Bool.and_assoc]

/-- One more line adds what is taken of it, unless an earlier write failed. -/
theorem deliver_concat (i : ℕ) (lines : List Bytes) (line : Bytes) :
    deliver accepts i (lines ++ [line]) =
      deliver accepts i lines ++
        if survives accepts i lines then line.take (accepts (i + lines.length)) else [] := by
  induction lines generalizing i with
  | nil =>
      simp only [List.nil_append, deliver, survives, if_true, List.length_nil, Nat.add_zero]
      split_ifs with h
      · rw [List.append_nil, List.take_of_length_le h]
      · rfl
  | cons l lines ih =>
      rw [List.length_cons, ← Nat.add_assoc, Nat.add_right_comm]
      by_cases h : l.length ≤ accepts i
      · simp [deliver, survives, h, ih]
      · simp [deliver, survives, h]

/-- Whole lines, then at most a strict prefix of the next one. -/
theorem deliver_split (i : ℕ) (lines : List Bytes) :
    ∃ front torn back, lines = front ++ back ∧ deliver accepts i lines = front.flatten ++ torn ∧
      (survives accepts i lines = true → torn = [] ∧ back = []) ∧
      (survives accepts i lines = false →
        ∃ line rest, back = line :: rest ∧ torn <+: line ∧ torn ≠ line) := by
  induction lines generalizing i with
  | nil => exact ⟨[], [], [], rfl, rfl, by simp, by simp [survives]⟩
  | cons line lines ih =>
      simp only [deliver, survives]
      split_ifs with h
      · obtain ⟨front, torn, back, hlines, hdeliver, halive, hdead⟩ := ih (i + 1)
        refine ⟨line :: front, torn, back, by simp [← hlines], by simp [hdeliver], ?_, ?_⟩
        · simpa [h] using halive
        · simpa [h] using hdead
      · refine ⟨[], line.take (accepts i), line :: lines, rfl, rfl, by simp [h], ?_⟩
        refine fun _ => ⟨line, lines, rfl, List.take_prefix _ _, fun heq => h ?_⟩
        rw [← heq, List.length_take]
        exact Nat.min_le_left _ _

end Deliver

def ids (clients : List ClientConn) : List ℕ := clients.map ClientConn.id

/-- The lines whose turn has come for the connection. -/
def served (t : Threads) (id : ℕ) : List Bytes :=
  (if id ∈ ids t.list.awaiting then t.sent.dropLast else t.sent).drop (t.joined id)

/-- The list and the octets written, connection by connection. -/
structure Delivery (accepts : ℕ → ℕ → ℕ) (t : Threads) : Prop where
  nodup : (ids t.list.listed).Nodup
  fresh : ∀ id ∈ ids t.list.listed, id < t.nextId
  unwritten : ∀ id, t.nextId ≤ id → t.written id = []
  joinedBefore : ∀ id, id < t.nextId → t.joined id ≤ t.sent.length
  current : ∀ line kept rest, t.list = .held line kept rest →
    ∃ before, t.sent = before ++ [line]
  awaitingBefore : ∀ id ∈ ids t.list.awaiting, t.joined id < t.sent.length
  writtenEq : ∀ id, id < t.nextId →
    t.written id = deliver (accepts id) (t.joined id) (served t id)
  listedIff : ∀ id, id < t.nextId →
    (id ∈ ids t.list.listed ↔ survives (accepts id) (t.joined id) (served t id) = true)

theorem delivery_start (accepts : ℕ → ℕ → ℕ) : Delivery accepts start := by
  constructor <;> simp [start, ClientList.listed, ClientList.awaiting, ids]

section Step
variable {json : SerdeJson} {accepts : ℕ → ℕ → ℕ} {t t' : Threads}

/-- Events and the report of an accepted client do not matter. -/
theorem Delivery.congr (h : Delivery accepts t) (hlist : t'.list = t.list)
    (hnext : t'.nextId = t.nextId) (hwritten : t'.written = t.written)
    (hsent : t'.sent = t.sent) (hjoined : t'.joined = t.joined) : Delivery accepts t' := by
  have hserved : served t' = served t := by
    funext id
    simp [served, hlist, hsent, hjoined]
  constructor
  · exact hlist ▸ h.nodup
  · rw [hlist, hnext]
    exact h.fresh
  · rw [hnext, hwritten]
    exact h.unwritten
  · rw [hnext, hjoined, hsent]
    exact h.joinedBefore
  · rw [hlist, hsent]
    exact h.current
  · rw [hlist, hjoined, hsent]
    exact h.awaitingBefore
  · rw [hnext, hwritten, hjoined, hserved]
    exact h.writtenEq
  · rw [hnext, hlist, hjoined, hserved]
    exact h.listedIff

theorem Delivery.push (h : Delivery accepts t) {clients : List ClientConn}
    (hlist : t.list = .free clients) (peer : SocketAddr) :
    Delivery accepts (t.push clients peer) := by
  have hfresh : ∀ id ∈ ids clients, id < t.nextId := by
    have := h.fresh
    simpa [hlist, ClientList.listed] using this
  have hnotin : t.nextId ∉ ids clients := fun hm => Nat.lt_irrefl _ (hfresh _ hm)
  have hids : ids (t.push clients peer).list.listed = ids clients ++ [t.nextId] := by
    simp [Threads.push, ClientList.listed, ids]
  have hsame : ∀ id, id ≠ t.nextId → (t.push clients peer).joined id = t.joined id :=
    fun id hne => Function.update_of_ne hne ..
  have hnew : (t.push clients peer).joined t.nextId = t.sent.length :=
    Function.update_self ..
  have hserved : ∀ id, id ≠ t.nextId → served (t.push clients peer) id = served t id := by
    intro id hne
    simp only [served, hsame id hne, hlist]
    rfl
  have hservedNew : served (t.push clients peer) t.nextId = [] := by
    simp only [served, hnew]
    exact List.drop_length
  constructor
  · rw [hids, List.nodup_append]
    have hnodup : (ids clients).Nodup := by
      have := h.nodup
      simpa [hlist, ClientList.listed] using this
    refine ⟨hnodup, List.nodup_singleton _, ?_⟩
    intro a ha b hb
    cases List.mem_singleton.mp hb
    exact fun hab => hnotin (hab ▸ ha)
  · intro id hid
    rw [hids, List.mem_append, List.mem_singleton] at hid
    cases hid with
    | inl hid => exact Nat.lt_succ_of_lt (hfresh id hid)
    | inr hid => exact hid ▸ Nat.lt_succ_self _
  · exact fun id hid => h.unwritten id (Nat.le_of_succ_le hid)
  · intro id hid
    cases Nat.lt_succ_iff_lt_or_eq.mp hid with
    | inl hlt =>
        rw [hsame id (Nat.ne_of_lt hlt)]
        exact h.joinedBefore id hlt
    | inr heq =>
        rw [heq, hnew]
        exact Nat.le_refl _
  · intro line kept rest hheld
    cases hheld
  · simp [Threads.push, ClientList.awaiting, ids]
  · intro id hid
    cases Nat.lt_succ_iff_lt_or_eq.mp hid with
    | inl hlt =>
        rw [hserved id (Nat.ne_of_lt hlt), hsame id (Nat.ne_of_lt hlt)]
        exact h.writtenEq id hlt
    | inr heq =>
        rw [heq, hservedNew]
        exact h.unwritten _ (Nat.le_refl _)
  · intro id hid
    rw [hids, List.mem_append, List.mem_singleton]
    cases Nat.lt_succ_iff_lt_or_eq.mp hid with
    | inl hlt =>
        have hne := Nat.ne_of_lt hlt
        rw [hserved id hne, hsame id hne, ← h.listedIff id hlt, hlist]
        simp [ClientList.listed, hne]
    | inr heq =>
        rw [heq, hservedNew]
        simp [survives]

/-- Taking the lock makes every listed connection wait for the new line. -/
theorem Delivery.lock (h : Delivery accepts t) {clients : List ClientConn}
    (hlist : t.list = .free clients) (line : Bytes) :
    Delivery accepts { t with list := .held line [] clients, sent := t.sent ++ [line] } := by
  have hserved : ∀ id, served t id = t.sent.drop (t.joined id) := by
    intro id
    simp [served, hlist, ClientList.awaiting, ids]
  have hlisted : ∀ id, id < t.nextId →
      (id ∈ ids clients ↔ survives (accepts id) (t.joined id) (served t id) = true) := by
    intro id hid
    have := h.listedIff id hid
    simpa [hlist, ClientList.listed] using this
  have hcut : ∀ id, id < t.nextId →
      (t.sent ++ [line]).drop (t.joined id) = served t id ++ [line] := by
    intro id hid
    rw [hserved, List.drop_append_of_le_length (h.joinedBefore id hid)]
  constructor
  · have := h.nodup
    simpa [hlist, ClientList.listed] using this
  · have := h.fresh
    simpa [hlist, ClientList.listed] using this
  · exact h.unwritten
  · intro id hid
    have := h.joinedBefore id hid
    simp only [List.length_append, List.length_singleton]
    omega
  · rintro _ _ _ ⟨⟩
    exact ⟨t.sent, rfl⟩
  · intro id hid
    have hfresh := h.fresh id (by simpa [hlist, ClientList.listed, ClientList.awaiting] using hid)
    have := h.joinedBefore id hfresh
    simp only [List.length_append, List.length_singleton]
    omega
  · intro id hid
    have hwritten := h.writtenEq id hid
    unfold served
    simp only [ClientList.awaiting, List.dropLast_concat]
    split_ifs with hin
    · rw [← hserved]
      exact hwritten
    · have hdead : survives (accepts id) (t.joined id) (served t id) = false := by
        simpa using fun hs => hin ((hlisted id hid).mpr hs)
      rw [hcut id hid, deliver_concat, hdead]
      simpa using hwritten
  · intro id hid
    unfold served
    simp only [ClientList.awaiting, ClientList.listed, List.nil_append, List.dropLast_concat]
    split_ifs with hin
    · rw [← hserved]
      exact hlisted id hid
    · have hdead : survives (accepts id) (t.joined id) (served t id) = false := by
        simpa using fun hs => hin ((hlisted id hid).mpr hs)
      rw [hcut id hid, survives_concat, hdead]
      simpa using hin

section Visit
variable {line : Bytes} {kept rest kept' : List ClientConn} {c : ClientConn}

/-- The connection whose turn it is stands nowhere else in the list. -/
theorem Delivery.turn_unique (h : Delivery accepts t)
    (hlist : t.list = .held line kept (c :: rest)) :
    (c.id ∉ ids kept ∧ c.id ∉ ids rest) ∧ (ids kept ++ ids rest).Nodup := by
  have hnodup := h.nodup
  have hlisted : ids t.list.listed = ids kept ++ c.id :: ids rest := by
    simp [hlist, ClientList.listed, ids]
  rw [hlisted, List.nodup_middle, List.nodup_cons, List.mem_append, not_or] at hnodup
  exact hnodup

/-- No write to the connection whose turn it is has failed. -/
theorem Delivery.turn_survives (h : Delivery accepts t)
    (hlist : t.list = .held line kept (c :: rest)) :
    c.id < t.nextId ∧ survives (accepts c.id) (t.joined c.id) (served t c.id) = true := by
  have hlisted : c.id ∈ ids t.list.listed := by simp [hlist, ClientList.listed, ids]
  have hc := h.fresh c.id hlisted
  exact ⟨hc, (h.listedIff c.id hc).mp hlisted⟩

theorem mem_listed_visit (hlist : t.list = .held line kept (c :: rest))
    (hlist' : t'.list = .held line kept' rest) (hkept : kept' = kept ++ [c] ∨ kept' = kept)
    {id : ℕ} (hne : id ≠ c.id) : id ∈ ids t'.list.listed ↔ id ∈ ids t.list.listed := by
  rw [hlist, hlist']
  cases hkept with
  | inl hk => simp [hk, ClientList.listed, ids, hne]
  | inr hk => simp [hk, ClientList.listed, ids, hne]

theorem served_visit_of_ne (hlist : t.list = .held line kept (c :: rest))
    (hlist' : t'.list = .held line kept' rest) (hsent : t'.sent = t.sent)
    (hjoined : t'.joined = t.joined) {id : ℕ} (hne : id ≠ c.id) : served t' id = served t id := by
  simp [served, hlist, hlist', ClientList.awaiting, ids, hne, hsent, hjoined]

/-- The line comes last in what the connection has been served after its turn. -/
theorem Delivery.served_visit (h : Delivery accepts t)
    (hlist : t.list = .held line kept (c :: rest)) (hlist' : t'.list = .held line kept' rest)
    (hsent : t'.sent = t.sent) (hjoined : t'.joined = t.joined) :
    served t' c.id = served t c.id ++ [line] ∧
      t.joined c.id + (served t c.id).length = t.sent.length - 1 := by
  obtain ⟨before, hbefore⟩ := h.current line kept (c :: rest) hlist
  have hcrest := (h.turn_unique hlist).1.2
  have hjoinedLt : t.joined c.id ≤ before.length := by
    have := h.awaitingBefore c.id (by simp [hlist, ClientList.awaiting, ids])
    rw [hbefore, List.length_append, List.length_singleton] at this
    omega
  have hserved : served t c.id = before.drop (t.joined c.id) := by
    simp [served, hlist, ClientList.awaiting, ids, hbefore]
  constructor
  · rw [hserved]
    simp [served, hlist', ClientList.awaiting, hcrest, hsent, hjoined, hbefore,
      List.drop_append_of_le_length hjoinedLt]
  · rw [hserved, hbefore, List.length_drop, List.length_append, List.length_singleton]
    omega

/-- One connection gets its turn; it stays listed when the whole line was written. -/
theorem Delivery.visit (h : Delivery accepts t) (hlist : t.list = .held line kept (c :: rest))
    (hlist' : t'.list = .held line kept' rest) (hnext : t'.nextId = t.nextId)
    (hwritten : t'.written = (t.write accepts line c).written)
    (hsent : t'.sent = t.sent) (hjoined : t'.joined = t.joined)
    (hkept : writes accepts t line c ∧ kept' = kept ++ [c] ∨
      ¬ writes accepts t line c ∧ kept' = kept) : Delivery accepts t' := by
  obtain ⟨⟨hckept, hcrest⟩, hnodup⟩ := h.turn_unique hlist
  obtain ⟨hc, halive⟩ := h.turn_survives hlist
  obtain ⟨hservedNew, hindex⟩ := h.served_visit hlist hlist' hsent hjoined
  have hkept' : kept' = kept ++ [c] ∨ kept' = kept := hkept.imp And.right And.right
  have hlisted' : ids t'.list.listed = ids kept' ++ ids rest := by
    simp [hlist', ClientList.listed, ids]
  constructor
  · rw [hlisted']
    cases hkept' with
    | inl hk =>
        have hsame : ids kept' ++ ids rest = ids t.list.listed := by
          simp [hk, hlist, ClientList.listed, ids]
        rw [hsame]
        exact h.nodup
    | inr hk =>
        rw [hk]
        exact hnodup
  · intro id hid
    rw [hnext]
    by_cases hid' : id = c.id
    · exact hid' ▸ hc
    · exact h.fresh id ((mem_listed_visit hlist hlist' hkept' hid').mp hid)
  · intro id hid
    rw [hnext] at hid
    have hne : id ≠ c.id := by omega
    rw [hwritten]
    exact (Function.update_of_ne hne ..).trans (h.unwritten id hid)
  · rw [hnext, hjoined, hsent]
    exact h.joinedBefore
  · intro l k r hheld
    rw [hlist'] at hheld
    cases hheld
    rw [hsent]
    exact h.current line kept (c :: rest) hlist
  · intro id hid
    rw [hjoined, hsent]
    apply h.awaitingBefore
    rw [hlist'] at hid
    rw [hlist]
    exact List.mem_cons_of_mem _ hid
  · intro id hid
    rw [hnext] at hid
    rw [hwritten, hjoined]
    by_cases hid' : id = c.id
    · subst hid'
      rw [hservedNew, deliver_concat, halive, if_pos rfl, hindex, ← h.writtenEq c.id hc]
      exact Function.update_self ..
    · rw [served_visit_of_ne hlist hlist' hsent hjoined hid', ← h.writtenEq id hid]
      exact Function.update_of_ne hid' ..
  · intro id hid
    rw [hnext] at hid
    rw [hjoined]
    by_cases hid' : id = c.id
    · subst hid'
      rw [hservedNew, survives_concat, halive, hindex, hlisted']
      cases hkept with
      | inl hk =>
          have hwrites := hk.1
          unfold writes at hwrites
          simp [hk.2, ids, hwrites]
      | inr hk =>
          have hwrites := hk.1
          unfold writes at hwrites
          simp [hk.2, hckept, hcrest, hwrites]
    · rw [served_visit_of_ne hlist hlist' hsent hjoined hid',
        mem_listed_visit hlist hlist' hkept' hid']
      exact h.listedIff id hid

end Visit

theorem Delivery.unlock (h : Delivery accepts t) {line : Bytes} {kept : List ClientConn}
    (hlist : t.list = .held line kept []) :
    Delivery accepts { t with list := .free kept } := by
  have hserved : ∀ id, served { t with list := .free kept } id = served t id := by
    intro id
    simp [served, hlist, ClientList.awaiting, ids]
  have hlisted : t.list.listed = kept := by simp [hlist, ClientList.listed]
  constructor
  · exact hlisted ▸ h.nodup
  · exact hlisted ▸ h.fresh
  · exact h.unwritten
  · exact h.joinedBefore
  · intro l k r hheld
    cases hheld
  · simp [ClientList.awaiting, ids]
  · intro id hid
    rw [hserved]
    exact h.writtenEq id hid
  · intro id hid
    rw [hserved]
    exact hlisted ▸ h.listedIff id hid

end Step

theorem delivery_step {json : SerdeJson} {accepts : ℕ → ℕ → ℕ} (t : Threads) (a : Action)
    (t' : Threads) (h : Delivery accepts t) (hstep : step json accepts t a = some t') :
    Delivery accepts t' := by
  cases effect_of_step hstep with
  | pushes peer clients hlist _ => exact h.push hlist peer
  | announces peer _ => exact h.congr rfl rfl rfl rfl rfl
  | cloneFails | unserialized => exact h
  | acceptFails | reports => exact h.congr rfl rfl rfl rfl rfl
  | locks msg clients line hlist _ => exact h.lock hlist line
  | keeps line kept rest c hlist hwrites =>
      exact h.visit hlist rfl rfl rfl rfl rfl (.inl ⟨hwrites, rfl⟩)
  | drops line kept rest c hlist hwrites =>
      exact h.visit hlist rfl rfl rfl rfl rfl (.inr ⟨hwrites, rfl⟩)
  | unlocks line kept hlist => exact h.unlock hlist

theorem delivery_run {json : SerdeJson} {accepts : ℕ → ℕ → ℕ} {actions : List Action}
    {t : Threads} (h : run (step json accepts) start actions = some t) : Delivery accepts t :=
  invariant_run delivery_step (delivery_start accepts) h

/-- Whole lines of the broadcasts since the push: all of them while the connection is
listed and has had its turn; otherwise up to the line that was torn or is to come. -/
def Received (t : Threads) (id : ℕ) : Prop :=
  ∃ front torn back, t.sent.drop (t.joined id) = front ++ back ∧
    t.written id = front.flatten ++ torn ∧
    (id ∈ ids t.list.listed →
      torn = [] ∧ (back = [] ∨ id ∈ ids t.list.awaiting ∧ ∃ line, back = [line])) ∧
    (id ∉ ids t.list.listed → ∃ line rest, back = line :: rest ∧ torn <+: line ∧ torn ≠ line)

theorem Received.prefix_sent {t : Threads} {id : ℕ} (h : Received t id) :
    t.written id <+: (t.sent.drop (t.joined id)).flatten := by
  obtain ⟨front, torn, back, hsent, hwritten, hin, hout⟩ := h
  rw [hsent, hwritten, List.flatten_append, List.prefix_append_right_inj]
  by_cases hlisted : id ∈ ids t.list.listed
  · rw [(hin hlisted).1]
    exact List.nil_prefix
  · obtain ⟨line, rest, rfl, htorn, -⟩ := hout hlisted
    exact htorn.trans (List.prefix_append _ _)

theorem Delivery.received {accepts : ℕ → ℕ → ℕ} {t : Threads} (h : Delivery accepts t) {id : ℕ}
    (hid : id < t.nextId) : Received t id := by
  obtain ⟨front, torn, back, hserved, hdeliver, halive, hdead⟩ :=
    deliver_split (accepts id) (t.joined id) (served t id)
  have hwritten := (h.writtenEq id hid).trans hdeliver
  have hlisted := h.listedIff id hid
  by_cases hawaiting : id ∈ ids t.list.awaiting
  · -- one line is still to come
    cases hlist : t.list with
    | free clients => simp [hlist, ClientList.awaiting, ids] at hawaiting
    | held line kept rest =>
        obtain ⟨before, hbefore⟩ := h.current line kept rest hlist
        have hlt := h.awaitingBefore id hawaiting
        rw [hbefore, List.length_append, List.length_singleton] at hlt
        have hin : id ∈ ids t.list.listed := by
          rw [hlist] at hawaiting ⊢
          simp only [ids, ClientList.listed, List.map_append, List.mem_append]
          exact .inr hawaiting
        obtain ⟨htorn, hback⟩ := halive (hlisted.mp hin)
        refine ⟨front, torn, [line], ?_, hwritten, ?_, fun hout => absurd hin hout⟩
        · rw [hback, List.append_nil] at hserved
          rw [← hserved]
          simp only [served, if_pos hawaiting, hbefore, List.dropLast_concat]
          exact List.drop_append_of_le_length (by omega)
        · exact fun _ => ⟨htorn, .inr ⟨hlist ▸ hawaiting, line, rfl⟩⟩
  · have hall : served t id = t.sent.drop (t.joined id) := by
      simp only [served, if_neg hawaiting]
    refine ⟨front, torn, back, hall ▸ hserved, hwritten, ?_, ?_⟩
    · intro hin
      obtain ⟨htorn, hback⟩ := halive (hlisted.mp hin)
      exact ⟨htorn, .inl hback⟩
    · intro hout
      exact hdead (by simpa using fun hs => hout (hlisted.mpr hs))

/-- A connection that left the list stays out of it and is not written to. -/
theorem gone_step {json : SerdeJson} {accepts : ℕ → ℕ → ℕ} {id : ℕ} {bytes : Bytes}
    (t : Threads) (a : Action) (t' : Threads)
    (h : id < t.nextId ∧ id ∉ ids t.list.listed ∧ t.written id = bytes)
    (hstep : step json accepts t a = some t') :
    id < t'.nextId ∧ id ∉ ids t'.list.listed ∧ t'.written id = bytes := by
  obtain ⟨hid, hout, hwritten⟩ := h
  have hvisited : ∀ {line : Bytes} {kept rest : List ClientConn} {c : ClientConn},
      t.list = .held line kept (c :: rest) → id ≠ c.id := by
    intro line kept rest c hlist heq
    subst heq
    simp [hlist, ClientList.listed, ids] at hout
  cases effect_of_step hstep with
  | pushes peer clients hlist _ =>
      refine ⟨Nat.lt_succ_of_lt hid, ?_, hwritten⟩
      simp only [hlist, ClientList.listed] at hout
      have hne : id ≠ t.nextId := Nat.ne_of_lt hid
      simpa [Threads.push, ClientList.listed, ids, hne] using hout
  | announces | cloneFails | acceptFails | unserialized | reports => exact ⟨hid, hout, hwritten⟩
  | locks msg clients line hlist _ =>
      refine ⟨hid, ?_, hwritten⟩
      simpa [hlist, ClientList.listed] using hout
  | keeps line kept rest c hlist _ =>
      refine ⟨hid, ?_, (Function.update_of_ne (hvisited hlist) ..).trans hwritten⟩
      simpa [hlist, ClientList.listed, ids] using hout
  | drops line kept rest c hlist _ =>
      refine ⟨hid, ?_, (Function.update_of_ne (hvisited hlist) ..).trans hwritten⟩
      simp only [hlist, ClientList.listed, ids, List.map_append, List.map_cons, List.mem_append,
        List.mem_cons, not_or] at hout ⊢
      exact ⟨hout.1, hout.2.2⟩
  | unlocks line kept hlist =>
      refine ⟨hid, ?_, hwritten⟩
      simpa [hlist, ClientList.listed] using hout

/-- Connections keep their places in the sequence of lines. -/
theorem joined_of_step {json : SerdeJson} {accepts : ℕ → ℕ → ℕ} {t t' : Threads} {a : Action}
    (h : step json accepts t a = some t') :
    t.nextId ≤ t'.nextId ∧ ∀ id, id < t.nextId → t'.joined id = t.joined id := by
  cases effect_of_step h with
  | pushes =>
      refine ⟨Nat.le_succ _, fun id hid => ?_⟩
      exact Function.update_of_ne (Nat.ne_of_lt hid) ..
  | announces | cloneFails | acceptFails | unserialized | reports | locks | keeps | drops
  | unlocks => exact ⟨Nat.le_refl _, fun _ _ => rfl⟩

/-- The line that an action starts to broadcast. -/
def lineOf (json : SerdeJson) : Action → List Bytes
  | .broadcast msg => (broadcastLine json msg).toList
  | .push _ | .announce | .cloneFails | .acceptFails _ | .visit | .unlock | .report _ => []

/-- The lines of the broadcasts of a run, in order. -/
def broadcastLines (json : SerdeJson) (actions : List Action) : List Bytes :=
  actions.flatMap (lineOf json)

section Run
variable {json : SerdeJson} {accepts : ℕ → ℕ → ℕ} {s t : Threads} {actions : List Action}

theorem sent_of_step {a : Action} (h : step json accepts s a = some t) :
    t.sent = s.sent ++ lineOf json a := by
  cases effect_of_step h with
  | locks msg clients line _ hline => simp [lineOf, hline]
  | unserialized msg hline => simp [lineOf, hline]
  | pushes | announces | cloneFails | acceptFails | reports | keeps | drops | unlocks =>
      exact (List.append_nil _).symm

theorem sent_of_run (h : run (step json accepts) s actions = some t) :
    t.sent = s.sent ++ broadcastLines json actions := by
  induction actions generalizing s with
  | nil =>
      cases h
      exact (List.append_nil _).symm
  | cons a actions ih =>
      obtain ⟨m, hm, h⟩ := run_cons_iff.mp h
      rw [ih h, sent_of_step hm, List.append_assoc, broadcastLines, broadcastLines,
        List.flatMap_cons]

/-- A connection that was pushed keeps its place, whatever comes after. -/
theorem joined_of_run {id : ℕ} (hid : id < s.nextId)
    (h : run (step json accepts) s actions = some t) :
    id < t.nextId ∧ t.joined id = s.joined id :=
  invariant_run (I := fun u => id < u.nextId ∧ u.joined id = s.joined id)
    (fun u a v hu hstep => by
      obtain ⟨hnext, hjoined⟩ := joined_of_step hstep
      exact ⟨Nat.lt_of_lt_of_le hu.1 hnext, (hjoined id hu.1).trans hu.2⟩) ⟨hid, rfl⟩ h

/-- The place of a connection is where the run pushed it. -/
theorem place_of_push {before after : List Action} {peer : SocketAddr}
    (hbefore : run (step json accepts) start before = some s)
    (h : run (step json accepts) s (.push peer :: after) = some t) :
    s.nextId < t.nextId ∧ t.joined s.nextId = (broadcastLines json before).length ∧
      t.sent = broadcastLines json before ++ broadcastLines json after := by
  have hs : s.sent = broadcastLines json before := sent_of_run hbefore
  obtain ⟨m, hm, hafter⟩ := run_cons_iff.mp h
  cases effect_of_step hm with
  | pushes peer clients _ _ =>
      have hnew : s.nextId < (s.push clients peer).nextId := Nat.lt_succ_self _
      obtain ⟨hid, hjoined⟩ := joined_of_run hnew hafter
      refine ⟨hid, ?_, ?_⟩
      · rw [hjoined, ← hs]
        exact Function.update_self ..
      · rw [sent_of_run hafter, ← hs]
        rfl

end Run

/-- The lines whose turn has come for a connection, of those broadcast since its push. -/
def turned (t : Threads) (id : ℕ) (lines : List Bytes) : List Bytes :=
  if id ∈ ids t.list.awaiting then lines.dropLast else lines

theorem Delivery.served_eq {accepts : ℕ → ℕ → ℕ} {t : Threads} (h : Delivery accepts t) {id : ℕ}
    {first lines : List Bytes} (hsent : t.sent = first ++ lines)
    (hjoined : t.joined id = first.length) : served t id = turned t id lines := by
  unfold served turned
  rw [hjoined]
  by_cases hawaiting : id ∈ ids t.list.awaiting
  · have hne : lines ≠ [] := by
      intro hnil
      have hlt := h.awaitingBefore id hawaiting
      rw [hsent, hnil, List.append_nil, hjoined] at hlt
      exact Nat.lt_irrefl _ hlt
    rw [if_pos hawaiting, if_pos hawaiting, hsent, List.dropLast_append_of_ne_nil hne,
      List.drop_left]
  · rw [if_neg hawaiting, if_neg hawaiting, hsent, List.drop_left]

/-- What the connection of a push receives, in terms of the broadcasts `lines` that took the
lock after it: what its own writes take of them, and it is in the list exactly while none of
these has failed. So these are whole lines in order, and at most a strict prefix of one
more; nothing after it has left the list; and the same whatever happens on the other
connections. -/
theorem received_of_run (json : SerdeJson) (accepts : ℕ → ℕ → ℕ) (peer : SocketAddr)
    (before after more : List Action) (s t u : Threads)
    (hbefore : run (step json accepts) start before = some s)
    (h : run (step json accepts) s (.push peer :: after) = some t)
    (hmore : run (step json accepts) t more = some u) :
    let id := s.nextId
    let place := (broadcastLines json before).length
    let lines := broadcastLines json after
    t.written id = deliver (accepts id) place (turned t id lines) ∧
    (id ∈ ids t.list.listed ↔ survives (accepts id) place (turned t id lines) = true) ∧
    (t.sent.drop (t.joined id) = lines ∧ Received t id) ∧
    (id ∉ ids t.list.listed → id ∉ ids u.list.listed ∧ u.written id = t.written id) ∧
    ∀ accepts' peer' before' after' s' t', run (step json accepts') start before' = some s' →
      run (step json accepts') s' (.push peer' :: after') = some t' →
      s'.nextId = id → accepts' id = accepts id →
      broadcastLines json before' = broadcastLines json before →
      broadcastLines json after' = lines →
      id ∉ ids t.list.awaiting → id ∉ ids t'.list.awaiting → t'.written id = t.written id := by
  intro id place lines
  have hexact : ∀ {accepts : ℕ → ℕ → ℕ} {peer : SocketAddr} {before after : List Action}
      {s t : Threads}, run (step json accepts) start before = some s →
      run (step json accepts) s (.push peer :: after) = some t →
      t.written s.nextId = deliver (accepts s.nextId) (broadcastLines json before).length
          (turned t s.nextId (broadcastLines json after)) ∧
        (s.nextId ∈ ids t.list.listed ↔
          survives (accepts s.nextId) (broadcastLines json before).length
            (turned t s.nextId (broadcastLines json after)) = true) := by
    intro accepts peer before after s t hbefore h
    have hdelivery : Delivery accepts t := invariant_run delivery_step (delivery_run hbefore) h
    obtain ⟨hid, hjoined, hsent⟩ := place_of_push hbefore h
    rw [← hdelivery.served_eq hsent hjoined, ← hjoined]
    exact ⟨hdelivery.writtenEq _ hid, hdelivery.listedIff _ hid⟩
  obtain ⟨hwritten, hlisted⟩ := hexact hbefore h
  obtain ⟨hid, hjoined, hsent⟩ := place_of_push hbefore h
  have hdelivery : Delivery accepts t := invariant_run delivery_step (delivery_run hbefore) h
  refine ⟨hwritten, hlisted, ⟨?_, hdelivery.received hid⟩, ?_, ?_⟩
  · rw [hjoined, hsent, List.drop_left]
  · intro hout
    exact (invariant_run (I := fun v => id < v.nextId ∧ id ∉ ids v.list.listed ∧
      v.written id = t.written id) gone_step ⟨hid, hout, rfl⟩ hmore).2
  · intro accepts' peer' before' after' s' t' hbefore' h' hsame haccepts hfirst hlines hturn hturn'
    have hwritten' := (hexact hbefore' h').1
    rw [hsame] at hwritten'
    rw [hwritten, hwritten', haccepts, hfirst, hlines, turned, turned, if_neg hturn,
      if_neg hturn']

/-- Two connections, three heartbeats; the second write to the first one fails after
five octets. -/
def tornAccepts (c i : ℕ) : ℕ := if c = 0 ∧ i = 1 then 5 else 100

def laterBroadcasts : List Action :=
  [.announce, .broadcast .heartbeat, .visit, .unlock, .push ⟨⟨10, 0, 0, 8⟩, 4000⟩,
    .broadcast .heartbeat, .visit, .announce, .visit, .unlock]

theorem laterBroadcasts_received : ∃ t u,
    run (step MessageText.compactJson tornAccepts) start
        (.push ⟨⟨10, 0, 0, 7⟩, 4000⟩ :: laterBroadcasts) = some t ∧
      run (step MessageText.compactJson tornAccepts) t [.broadcast .heartbeat, .visit, .unlock] =
        some u ∧
      0 ∉ ids t.list.listed ∧ u.written 0 = t.written 0 ∧
      t.written 0 = deliver (tornAccepts 0) 0
        (broadcastLines MessageText.compactJson laterBroadcasts) := by
  have hrun : ∃ t, run (step MessageText.compactJson tornAccepts) start
        (.push ⟨⟨10, 0, 0, 7⟩, 4000⟩ :: laterBroadcasts) = some t ∧
      0 ∉ ids t.list.listed ∧ 0 ∉ ids t.list.awaiting ∧
      (run (step MessageText.compactJson tornAccepts) t
        [.broadcast .heartbeat, .visit, .unlock]).isSome := by decide +kernel
  obtain ⟨t, ht, hout, hturn, hmore⟩ := hrun
  obtain ⟨u, hu⟩ := Option.isSome_iff_exists.mp hmore
  obtain ⟨hwritten, -, -, hgone, -⟩ := received_of_run MessageText.compactJson tornAccepts
    ⟨⟨10, 0, 0, 7⟩, 4000⟩ [] laterBroadcasts _ start t u rfl ht hu
  have hall : turned t 0 (broadcastLines MessageText.compactJson laterBroadcasts) =
      broadcastLines MessageText.compactJson laterBroadcasts := if_neg hturn
  rw [← hall]
  exact ⟨t, u, ht, hu, hout, (hgone hout).2, hwritten⟩

end DnslessHomelab.BroadcastDelivery
