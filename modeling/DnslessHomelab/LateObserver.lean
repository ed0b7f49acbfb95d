import DnslessHomelab.MessageText
import DnslessHomelab.PanelState
import DnslessHomelab.ServerLoop

/-!
# An observer that starts late

A browser may open at any time and then folds only the events from there on. The
events of a successful poll tell the server's address whatever came before them; no
other event touches what the panel knows, and only such a poll changes the server's.
-/
namespace DnslessHomelab.LateObserver
open Protocol Runs ServerLoop PanelState PanelState.ServerState

theorem ipAfter_of_aboutClient {ev : ServerEvent} (h : Broadcast.aboutClient ev = true)
    (known : Option Text) : ipAfter known ev = known := by
  cases ev with
  | clientConnected | clientDisconnected => rfl
  | listening | ipChanged | heartbeatSent | pollUnchanged | error => cases h

theorem foldl_ipAfter_eq_self {events : List ServerEvent}
    (h : ∀ ev ∈ events, ∀ known, ipAfter known ev = known) (known : Option Text) :
    events.foldl ipAfter known = known := by
  induction events with
  | nil => rfl
  | cons ev events ih =>
      rw [List.foldl_cons, h ev (List.mem_cons_self ..)]
      exact ih fun e he => h e (List.mem_cons_of_mem _ he)

/-- The new events of a step tell the address after a successful poll, and otherwise
nothing. -/
inductive Tells (s : Server) (a : Action) (s' : Server) (new : List ServerEvent) : Prop
  | address (ip : Ipv4Addr) (ha : a = .poll (.ok ip)) (hlast : s'.lastIp = some ip.toString)
      (hnew : ∀ known, new.foldl ipAfter known = s'.lastIp)
  | nothing (ha : ∀ ip, a ≠ .poll (.ok ip)) (hlast : s'.lastIp = s.lastIp)
      (hnew : ∀ known, new.foldl ipAfter known = known)

section Step
variable {cfg : ServerConfig} {json : SerdeJson} {accepts : ℕ → ℕ → ℕ} {s s' : Server}

/-- The accept thread and the broadcasts report clients and failed accepts. -/
theorem tells_of_threads {a : Action} {b : Broadcast.Action} (hb : ∀ ev, b ≠ .report ev)
    (ha : ∀ ip, a ≠ .poll (.ok ip)) (hlast : s'.lastIp = s.lastIp)
    (h : Broadcast.step json accepts s.threads b = some s'.threads) :
    ∃ new, s'.threads.events = s.threads.events ++ new ∧ Tells s a s' new := by
  obtain ⟨new, hevents, hnew⟩ := Broadcast.events_of_step h
  refine ⟨new, hevents, .nothing ha hlast (foldl_ipAfter_eq_self ?_)⟩
  intro ev hev known
  rcases hnew ev hev with hclient | ⟨error, rfl⟩ | hreport
  · exact ipAfter_of_aboutClient hclient known
  · rfl
  · exact absurd hreport (hb ev)

theorem tells_of_step {a : Action} (h : step cfg json accepts s a = some s') :
    ∃ new, s'.threads.events = s.threads.events ++ new ∧ Tells s a s' new := by
  cases effect_of_step h with
  | accepts b threads hb hthreads =>
      exact tells_of_threads (not_report_of_acceptThread hb) (by simp) rfl hthreads
  | changed ip => exact ⟨_, rfl, .address ip rfl rfl fun _ => rfl⟩
  | unchanged ip _ hip => exact ⟨_, rfl, .address ip rfl hip fun _ => hip.symm⟩
  | undetected e => exact ⟨_, rfl, .nothing (by simp) rfl fun _ => rfl⟩
  | unserialized =>
      exact ⟨[], (List.append_nil _).symm, .nothing (by simp) rfl fun _ => rfl⟩
  | locks msg line threads _ _ hthreads _ =>
      exact tells_of_threads (by simp) (by simp) rfl hthreads
  | visits msg threads _ hthreads _ => exact tells_of_threads (by simp) (by simp) rfl hthreads
  | unlocks msg threads _ hthreads _ => exact tells_of_threads (by simp) (by simp) rfl hthreads
  | heartbeatSent => exact ⟨_, rfl, .nothing (by simp) rfl fun _ => rfl⟩

/-- Every address the server has, and no other, was told. -/
theorem address_step {a : Action} (h : s.threads.events.foldl ipAfter none = s.lastIp)
    (hstep : step cfg json accepts s a = some s') :
    s.threads.events <+: s'.threads.events ∧
      s'.threads.events.foldl ipAfter none = s'.lastIp := by
  obtain ⟨new, hevents, htells⟩ := tells_of_step hstep
  refine ⟨⟨new, hevents.symm⟩, ?_⟩
  rw [hevents, List.foldl_append, h]
  cases htells with
  | address ip _ _ hnew => exact hnew _
  | nothing _ hlast hnew => exact (hnew _).trans hlast.symm

/-- What an observer has seen since the events `past`. -/
def Seen (past : List ServerEvent) (s : Server) : Prop := past <+: s.threads.events

/-- The observer knows an address, and it is the server's. -/
def Knows (past : List ServerEvent) (s : Server) : Prop :=
  ∃ seen, s.threads.events = past ++ seen ∧ s.lastIp.isSome ∧ seen.foldl ipAfter none = s.lastIp

theorem seen_step {past : List ServerEvent} (s : Server) (a : Action) (s' : Server)
    (h : Seen past s) (hstep : step cfg json accepts s a = some s') : Seen past s' := by
  obtain ⟨new, hevents, -⟩ := tells_of_step hstep
  have hgrown : s.threads.events <+: s'.threads.events := ⟨new, hevents.symm⟩
  exact h.trans hgrown

/-- From the first successful poll on the observer knows. -/
theorem knows_of_poll {past : List ServerEvent} {ip : Ipv4Addr} (h : Seen past s)
    (hstep : step cfg json accepts s (.poll (.ok ip)) = some s') : Knows past s' := by
  obtain ⟨seen, hseen⟩ := h
  obtain ⟨new, hevents, htells⟩ := tells_of_step hstep
  cases htells with
  | address found _ hlast hnew =>
      refine ⟨seen ++ new, ?_, ?_, ?_⟩
      · rw [hevents, ← hseen, List.append_assoc]
      · rw [hlast]
        rfl
      · rw [List.foldl_append]
        exact hnew _
  | nothing ha => exact absurd rfl (ha ip)

theorem knows_step {past : List ServerEvent} (s : Server) (a : Action) (s' : Server)
    (h : Knows past s) (hstep : step cfg json accepts s a = some s') : Knows past s' := by
  obtain ⟨seen, hseen, hsome, hfold⟩ := h
  obtain ⟨new, hevents, htells⟩ := tells_of_step hstep
  refine ⟨seen ++ new, ?_, ?_⟩
  · rw [hevents, hseen, List.append_assoc]
  · rw [List.foldl_append, hfold]
    cases htells with
    | address ip _ hlast hnew => exact ⟨hlast ▸ rfl, hnew _⟩
    | nothing _ hlast hnew => exact ⟨hlast ▸ hsome, (hnew _).trans hlast.symm⟩

theorem knows_of_run {s s' : Server} {late : List Action} {ip : Ipv4Addr}
    (h : run (step cfg json accepts) s late = some s') (hpoll : .poll (.ok ip) ∈ late) :
    Knows s.threads.events s' := by
  obtain ⟨front, back, rfl⟩ := List.append_of_mem hpoll
  rw [run_append] at h
  obtain ⟨m, hfront, hback⟩ := Option.bind_eq_some_iff.mp h
  obtain ⟨m', hstep, hback⟩ := run_cons_iff.mp hback
  have hseen : Seen s.threads.events m :=
    invariant_run seen_step (List.prefix_refl s.threads.events) hfront
  exact invariant_run knows_step (knows_of_poll hseen hstep) hback

end Step

/-- However much of the run an observer missed: once it has applied the events up to
some successful poll, or any later ones, it knows the address the server holds. -/
theorem currentIp_late (cfg : ServerConfig) (json : SerdeJson) (accepts : ℕ → ℕ → ℕ)
    (early late : List Action) (m s : Server)
    (hearly : run (step cfg json accepts) (start cfg) early = some m)
    (h : run (step cfg json accepts) (start cfg) (early ++ late) = some s)
    (hostname interface : Text) (stamped : List (Text × ServerEvent))
    (hstamped : m.threads.events ++ stamped.map Prod.snd = s.threads.events)
    (hpoll : ∃ ip, .poll (.ok ip) ∈ late) :
    s.lastIp.isSome ∧
      ((ServerState.new hostname interface).applyAll stamped).currentIp = s.lastIp := by
  obtain ⟨ip, hpoll⟩ := hpoll
  rw [run_append, hearly] at h
  obtain ⟨seen, hseen, hsome, hfold⟩ := knows_of_run h hpoll
  have hsame : stamped.map Prod.snd = seen := List.append_cancel_left (hstamped.trans hseen)
  rw [currentIp_applyAll, hsame]
  exact ⟨hsome, hfold⟩

/-- The address is found before the observer opens. -/
def beforeOpening : List Action :=
  [.poll (.ok ⟨10, 0, 0, 1⟩), .lock, .unlock, .lock, .unlock, .heartbeatSent]

/-- A failed poll, the same address again, a client that comes and goes. -/
def afterOpening : List Action :=
  [.poll (.error "denied".toList), .lock, .unlock, .heartbeatSent,
    .poll (.ok ⟨10, 0, 0, 1⟩), .accept (.push ⟨⟨10, 0, 0, 7⟩, 4000⟩), .lock, .visit,
    .accept .announce, .unlock, .heartbeatSent, .poll (.error "denied".toList)]

theorem afterOpening_knows : ∃ m s,
    run (step nas MessageText.compactJson fun _ _ => 0) (start nas) beforeOpening = some m ∧
      run (step nas MessageText.compactJson fun _ _ => 0) (start nas)
        (beforeOpening ++ afterOpening) = some s ∧
      ((ServerState.new [] []).applyAll ((s.threads.events.drop m.threads.events.length).map
        fun ev => ([], ev))).currentIp = s.lastIp := by
  have hrun : ∃ m, run (step nas MessageText.compactJson fun _ _ => 0) (start nas)
      beforeOpening = some m ∧
        ∃ s, run (step nas MessageText.compactJson fun _ _ => 0) (start nas)
          (beforeOpening ++ afterOpening) = some s ∧
            m.threads.events ++ s.threads.events.drop m.threads.events.length =
              s.threads.events := by decide +kernel
  obtain ⟨m, hm, s, hs, hevents⟩ := hrun
  refine ⟨m, s, hm, hs, ?_⟩
  have hstamped : m.threads.events ++ ((s.threads.events.drop m.threads.events.length).map
      fun ev => (([] : Text), ev)).map Prod.snd = s.threads.events := by
    simpa [Function.comp_def] using hevents
  exact (currentIp_late nas MessageText.compactJson (fun _ _ => 0) beforeOpening afterOpening
    m s hm hs [] [] _ hstamped ⟨⟨10, 0, 0, 1⟩, by simp [afterOpening]⟩).2

end DnslessHomelab.LateObserver
