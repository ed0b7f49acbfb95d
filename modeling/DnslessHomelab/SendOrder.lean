import DnslessHomelab.ServerProcess

/-!
# What the browsers get, whatever the threads do

The two sinks may see the events of the two threads in different orders. The events of
one thread they see in the same order, none lost and none twice, whatever the
interleaving. A browser has received everything that was handed over since it opened.
-/
namespace DnslessHomelab.SendOrder
open Protocol Runs EventSinks ServerProcess
open ServerLoop (ServerConfig nas)

inductive Half where
  | channel | browsers
  deriving DecidableEq, Repr

/-- The half of a send that a step completes, with the thread and its event. -/
def halves (p : Process) (a : ServerProcess.Action) (p' : Process) :
    List (Half × Thread × ServerEvent) :=
  match a with
  | .loop a => (emitted p.server p'.server).toList.map fun ev => (.channel, threadOf a, ev)
  | .unlockBrowsers =>
      match p.browsers with
      | .held t ev _ _ => [(.browsers, t, ev)]
      | .free _ => []
  | .lockBrowsers _ | .sendBrowser _ | .browserOpens => []

/-- The events that went into one of the sinks, with their threads. -/
def into (half : Half) (journal : List (Half × Thread × ServerEvent)) :
    List (Thread × ServerEvent) :=
  journal.filterMap fun e => if e.1 = half then some e.2 else none

/-- The events of one thread. -/
def ofThread (t : Thread) (sent : List (Thread × ServerEvent)) : List ServerEvent :=
  sent.filterMap fun e => if e.1 = t then some e.2 else none

theorem into_append (half : Half) (js ks : List (Half × Thread × ServerEvent)) :
    into half (js ++ ks) = into half js ++ into half ks :=
  List.filterMap_append ..

theorem ofThread_append (t : Thread) (es fs : List (Thread × ServerEvent)) :
    ofThread t (es ++ fs) = ofThread t es ++ ofThread t fs :=
  List.filterMap_append ..

/-- What a thread has put into the channel and not yet handed to the browsers. -/
def sending (inFlight : InFlight) (t : Thread) : Option ServerEvent :=
  (finish inFlight t).map Prod.fst

section Sending
variable {inFlight inFlight' : InFlight} {t : Thread} {ev : ServerEvent}

theorem sending_begin (h : begin inFlight t ev = some inFlight') (u : Thread) :
    (sending inFlight' u).toList =
      (sending inFlight u).toList ++ ofThread u [(t, ev)] := by
  cases inFlight with
  | none =>
      cases h
      cases t <;> cases u <;> rfl
  | one t' ev' =>
      dsimp only [begin] at h
      split_ifs at h with hne
      cases h
      cases t <;> cases t' <;> cases u <;> first | rfl | exact absurd rfl hne
  | two => cases h

theorem sending_finish {r : InFlight} (h : finish inFlight t = some (ev, r)) (u : Thread) :
    (sending inFlight u).toList = ofThread u [(t, ev)] ++ (sending r u).toList := by
  cases inFlight with
  | none => cases h
  | one t' ev' =>
      dsimp only [finish] at h
      split_ifs at h with heq
      cases h
      cases heq
      cases t <;> cases u <;> rfl
  | two t' ev' ev'' =>
      dsimp only [finish] at h
      split_ifs at h with heq
      · cases h
        cases heq
        cases t <;> cases u <;> rfl
      · cases h
        cases t <;> cases t' <;> cases u <;> first | rfl | exact absurd rfl heq

end Sending

/-- The browser has received a last stretch of what was handed over: all of it, when it
was there from the start. -/
def Got (opened : ℕ) (given : List ServerEvent) (ws : WebSocket) : Prop :=
  ws.received <:+ given ∧ (ws.id < opened → ws.received = given)

theorem Got.received {opened : ℕ} {given : List ServerEvent} {ws : WebSocket}
    (h : Got opened given ws) (ev : ServerEvent) :
    Got opened (given ++ [ev]) (ServerProcess.received ws ev) := by
  obtain ⟨⟨before, hbefore⟩, hall⟩ := h
  constructor
  · refine ⟨before, ?_⟩
    rw [← hbefore, List.append_assoc]
    rfl
  · exact fun hid => congrArg (· ++ [ev]) (hall hid)

/-- While a thread is sending to the browsers, its event has reached those that it has kept
and not yet the rest. -/
def Served (opened : ℕ) (given : List ServerEvent) : BrowserList → Prop
  | .free browsers => ∀ ws ∈ browsers, Got opened given ws
  | .held _ ev kept rest => (∀ ws ∈ rest, Got opened given ws) ∧
      ∀ ws ∈ kept, Got opened (given ++ [ev]) ws

/-- Everything handed over, from the listener's own event on. -/
def handedOver (cfg : ServerConfig) (journal : List (Half × Thread × ServerEvent)) :
    List ServerEvent :=
  (ServerLoop.start cfg).threads.events ++ (into .browsers journal).map Prod.snd

structure Ordered (cfg : ServerConfig) (opened : ℕ) (p : Process)
    (journal : List (Half × Thread × ServerEvent)) : Prop where
  channel : p.server.threads.events =
    (ServerLoop.start cfg).threads.events ++ (into .channel journal).map Prod.snd
  threads : ∀ t, ofThread t (into .channel journal) =
    ofThread t (into .browsers journal) ++ (sending p.inFlight t).toList
  holder : ∀ t ev kept rest, p.browsers = .held t ev kept rest → sending p.inFlight t = some ev
  later : opened ≤ p.nextBrowser
  served : Served opened (handedOver cfg journal) p.browsers

theorem ordered_start (cfg : ServerConfig) (opened : ℕ) :
    Ordered cfg opened (start cfg opened) [] := by
  constructor
  · rfl
  · exact fun t => rfl
  · rintro _ _ _ _ ⟨⟩
  · exact Nat.le_refl _
  · intro ws hws
    obtain ⟨id, -, rfl⟩ := List.mem_map.mp hws
    exact ⟨List.suffix_refl _, fun _ => rfl⟩

section Step
variable {cfg : ServerConfig} {json : SerdeJson} {events : ServerEvent → Except Text Text}
variable {accepts : ℕ → ℕ → ℕ} {opened : ℕ}

theorem ordered_step (hevents : ∀ ev, ∃ text, events ev = .ok text) (p : Process)
    (a : ServerProcess.Action) (p' : Process) (journal : List (Half × Thread × ServerEvent))
    (h : Ordered cfg opened p journal)
    (hstep : ServerProcess.step cfg json events accepts p a = some p') :
    Ordered cfg opened p' (journal ++ halves p a p') := by
  cases effect_of_step hevents hstep with
  | quiet a server hidle hserver hevent =>
      have hsame := events_emitted hserver
      rw [hevent, Option.toList_none, List.append_nil] at hsame
      have hnone : halves p (.loop a) { p with server } = [] := by simp [halves, hevent]
      rw [hnone, List.append_nil]
      exact ⟨hsame.trans h.channel, h.threads, h.holder, h.later, h.served⟩
  | emits a server ev inFlight hidle hserver hevent hbegin =>
      have hmore := events_emitted hserver
      have hone : halves p (.loop a) { p with server, inFlight } =
          [(.channel, threadOf a, ev)] := by simp [halves, hevent]
      rw [hevent, Option.toList_some] at hmore
      rw [hone]
      refine ⟨?_, ?_, ?_, h.later, ?_⟩
      · rw [hmore, h.channel, into_append, List.map_append, List.append_assoc]
        rfl
      · intro t
        have hchannel : into .channel [(Half.channel, threadOf a, ev)] = [(threadOf a, ev)] := rfl
        have hbrowsers : into .browsers [(Half.channel, threadOf a, ev)] = [] := rfl
        rw [into_append, into_append, hchannel, hbrowsers, List.append_nil, ofThread_append,
          h.threads, sending_begin hbegin, List.append_assoc]
      · intro t ev' kept rest hheld
        have hsending := h.holder t ev' kept rest hheld
        have hother : threadOf a ≠ t := by
          rintro rfl
          rw [sending, hidle] at hsending
          cases hsending
        have hnone : ofThread t [(threadOf a, ev)] = [] := by simp [ofThread, hother]
        have hsame := sending_begin hbegin t
        rw [hnone, List.append_nil, hsending] at hsame
        exact Option.toList_eq_singleton_iff.mp hsame
      · rw [handedOver, into_append, show into .browsers [(Half.channel, threadOf a, ev)] = [] from
          rfl, List.append_nil]
        exact h.served
  | locks t r browsers hfinish hfree =>
      rw [halves, List.append_nil]
      refine ⟨h.channel, h.threads, ?_, h.later, ?_⟩
      · rintro _ _ _ _ ⟨⟩
        rw [sending, hfinish]
        rfl
      · have hserved := h.served
        rw [hfree] at hserved
        exact ⟨hserved, by simp⟩
  | sends sent t ev kept rest ws hheld =>
      rw [halves, List.append_nil]
      have hserved := h.served
      rw [hheld] at hserved
      refine ⟨h.channel, h.threads, ?_, h.later, ?_, ?_⟩
      · rintro _ _ _ _ ⟨⟩
        exact h.holder t ev kept _ hheld
      · exact fun ws' hws' => hserved.1 ws' (List.mem_cons_of_mem _ hws')
      · intro ws' hws'
        cases sent with
        | false => exact hserved.2 ws' hws'
        | true =>
            cases List.mem_append.mp hws' with
            | inl hws' => exact hserved.2 ws' hws'
            | inr hws' =>
                rw [List.mem_singleton.mp hws']
                exact (hserved.1 ws (List.mem_cons_self ..)).received ev
  | unlocks t ev kept r hheld hfinish =>
      have hserved := h.served
      rw [hheld] at hserved
      have hholder := h.holder t ev kept [] hheld
      rw [sending, hfinish, Option.map_some, Option.some.injEq] at hholder
      have hsent : finish p.inFlight t = some (ev, r.2) := by rw [hfinish, ← hholder]
      have hone : halves p .unlockBrowsers { p with browsers := .free kept, inFlight := r.2 } =
          [(.browsers, t, ev)] := by simp only [halves, hheld]
      have hchannel : into .channel [(Half.browsers, t, ev)] = [] := rfl
      have hbrowsers : into .browsers [(Half.browsers, t, ev)] = [(t, ev)] := rfl
      rw [hone]
      refine ⟨?_, ?_, ?_, h.later, ?_⟩
      · rw [into_append, hchannel, List.append_nil]
        exact h.channel
      · intro u
        rw [into_append, into_append, hchannel, hbrowsers, List.append_nil, ofThread_append,
          h.threads, sending_finish hsent, List.append_assoc]
      · rintro _ _ _ _ ⟨⟩
      · intro ws hws
        rw [handedOver, into_append, hbrowsers, List.map_append, ← List.append_assoc]
        exact hserved.2 ws hws
  | opens browsers hfree =>
      rw [halves, List.append_nil]
      have hserved := h.served
      rw [hfree] at hserved
      refine ⟨h.channel, h.threads, ?_, Nat.le_succ_of_le h.later, ?_⟩
      · rintro _ _ _ _ ⟨⟩
      · intro ws hws
        cases List.mem_append.mp hws with
        | inl hws => exact hserved ws hws
        | inr hws =>
            rw [List.mem_singleton.mp hws]
            exact ⟨List.nil_suffix .., fun hid => absurd hid (Nat.not_lt.mpr h.later)⟩

end Step

/-- A list of tagged events is its two threads' events in some order. -/
theorem perm_threads (es : List (Thread × ServerEvent)) :
    es.Perm ((ofThread .main es).map (Prod.mk .main) ++
      (ofThread .accept es).map (Prod.mk .accept)) := by
  induction es with
  | nil => exact List.Perm.refl _
  | cons e es ih =>
      obtain ⟨t, ev⟩ := e
      cases t with
      | main => exact ih.cons (.main, ev)
      | accept => exact (ih.cons (.accept, ev)).trans List.perm_middle.symm

theorem perm_of_threads {es fs : List (Thread × ServerEvent)}
    (h : ∀ t, ofThread t es = ofThread t fs) : es.Perm fs := by
  have hes := perm_threads es
  rw [h .main, h .accept] at hes
  exact hes.trans (perm_threads fs).symm

/-- In every state of every run: the browsers have been handed each thread's events as
the channel has them, in order and each once, but for the one event that the thread is
sending. Every connected browser has received a last stretch of what was handed over, and
one that was there from the start has it all; while a thread is sending to the browsers,
those it has sent to have its event on top. With nothing in flight a browser that was
there from the start has the events of the channel up to their order. -/
theorem threads_in_order (cfg : ServerConfig) (json : SerdeJson)
    (events : ServerEvent → Except Text Text) (hevents : ∀ ev, ∃ text, events ev = .ok text)
    (accepts : ℕ → ℕ → ℕ) (opened : ℕ) (actions : List ServerProcess.Action) (p : Process)
    (h : run (ServerProcess.step cfg json events accepts) (start cfg opened) actions = some p)
    (journal : List (Half × Thread × ServerEvent))
    (hjournal : journal =
      observe (ServerProcess.step cfg json events accepts) halves (start cfg opened) actions) :
    p.server.threads.events =
        (ServerLoop.start cfg).threads.events ++ (into .channel journal).map Prod.snd ∧
      (∀ t, ofThread t (into .channel journal) =
        ofThread t (into .browsers journal) ++ (sending p.inFlight t).toList) ∧
      Served opened (handedOver cfg journal) p.browsers ∧
      (p.inFlight = .none → ∀ ws ∈ p.browsers.listed, ws.id < opened →
        ws.received.Perm p.server.threads.events) := by
  have hordered : Ordered cfg opened p journal := by
    rw [hjournal]
    exact invariant_observe (b := []) (ordered_step hevents) (ordered_start cfg opened) h
  refine ⟨hordered.channel, hordered.threads, hordered.served, ?_⟩
  intro hquiet ws hws hid
  have hall : ws.received = handedOver cfg journal := by
    have hserved := hordered.served
    cases hbrowsers : p.browsers with
    | free browsers =>
        rw [hbrowsers] at hserved hws
        exact (hserved ws hws).2 hid
    | held t ev kept rest =>
        -- the holder's send would be in flight
        have hholder := hordered.holder t ev kept rest hbrowsers
        rw [hquiet] at hholder
        cases hholder
  have hthreads : ∀ t,
      ofThread t (into .browsers journal) = ofThread t (into .channel journal) := by
    intro t
    rw [hordered.threads, hquiet]
    exact (List.append_nil _).symm
  rw [hall, hordered.channel]
  exact ((perm_of_threads hthreads).map Prod.snd).append_left _

/-- The accept thread's event is overtaken by one of the main thread; a second browser
opens in between. -/
def overtakenByMain : List ServerProcess.Action :=
  [.loop (.accept (.push ConnectedClients.laptop)), .loop (.accept .announce),
    .loop (.poll (.ok ⟨10, 0, 0, 1⟩)), .lockBrowsers .main, .sendBrowser true, .unlockBrowsers,
    .browserOpens, .lockBrowsers .accept, .sendBrowser true, .sendBrowser true, .unlockBrowsers]

theorem overtakenByMain_in_order : ∃ p ws,
    run (ServerProcess.step nas MessageText.compactJson compactEvents fun _ _ => 0) (start nas 1)
        overtakenByMain = some p ∧
      ws ∈ p.browsers.listed ∧ ws.received ≠ p.server.threads.events ∧
      ws.received.Perm p.server.threads.events := by
  have hrun : ∃ p, run (ServerProcess.step nas MessageText.compactJson compactEvents fun _ _ => 0)
      (start nas 1) overtakenByMain = some p ∧ p.inFlight = .none ∧
        ∃ ws ∈ p.browsers.listed, ws.id < 1 ∧ ws.received ≠ p.server.threads.events := by
    decide +kernel
  obtain ⟨p, hp, hquiet, ws, hws, hid, hne⟩ := hrun
  obtain ⟨-, -, -, hbrowsers⟩ := threads_in_order nas MessageText.compactJson compactEvents
    (fun ev => ⟨printEvent ev, rfl⟩) (fun _ _ => 0) 1 overtakenByMain p hp _ rfl
  exact ⟨p, ws, hp, hws, hne, hbrowsers hquiet ws hws hid⟩

end DnslessHomelab.SendOrder
