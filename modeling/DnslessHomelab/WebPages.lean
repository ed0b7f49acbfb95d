import DnslessHomelab.EventText
import DnslessHomelab.LateObserver
import DnslessHomelab.Mailbox
import DnslessHomelab.SendOrder

/-!
# The web pages behind the browsers

Beside the server process, the texts on their way to each browser, and the page in it, which
folds every text it can read into a panel of its own. A page follows a stretch of what was
handed over; and once nothing is on its way, an address it shows is the server's.
-/
namespace DnslessHomelab.WebPages
open Protocol Runs PanelState Mailbox EventSinks SendOrder
open ServerLoop (ServerConfig nas)
open ServerProcess (Process BrowserList effect_of_step emitted threadOf)
open ServerState (ipAfter)

/-- For every browser, by its number: what was sent to it and not handled yet, and its page. -/
structure Site where
  process : Process
  inbox : ℕ → List Text
  pages : ℕ → ServerState

inductive Action where
  | server (a : ServerProcess.Action)
  | onMessage (id : ℕ) (now : Text)

/-- A text that cannot be read is only warned about. -/
def onMessage (read : Text → Except Text ServerEvent) (state : ServerState) (now text : Text) :
    ServerState :=
  match read text with
  | .ok ev => state.applyServerEvent now ev
  | .error _ => state

/-- The browser a step sends to, and the event. -/
def sentTo (p : Process) : ServerProcess.Action → Option (ℕ × ServerEvent)
  | .sendBrowser true =>
      match p.browsers with
      | .held _ ev _ (ws :: _) => some (ws.id, ev)
      | .held _ _ _ [] | .free _ => none
  | .sendBrowser false | .loop _ | .lockBrowsers _ | .unlockBrowsers | .browserOpens => none

section Site
variable (cfg : ServerConfig) (json : SerdeJson) (events : ServerEvent → Except Text Text)
variable (read : Text → Except Text ServerEvent) (accepts : ℕ → ℕ → ℕ)

def texts (evs : List ServerEvent) : List Text := evs.filterMap fun ev => (events ev).toOption

def start (opened : ℕ) : Site where
  process := ServerProcess.start cfg opened
  inbox id := if id < opened then texts events (ServerLoop.start cfg).threads.events else []
  pages _ := .new [] []

def step (site : Site) : Action → Option Site
  | .server a =>
      (ServerProcess.step cfg json events accepts site.process a).map fun process =>
        match sentTo site.process a with
        | none => { site with process }
        | some (id, ev) =>
            { site with
              process
              inbox := Function.update site.inbox id (site.inbox id ++ texts events [ev]) }
  | .onMessage id now =>
      match site.inbox id with
      | [] => none
      | text :: rest => some { site with
          inbox := Function.update site.inbox id rest
          pages := Function.update site.pages id (onMessage read (site.pages id) now text) }

def siteHalves (site : Site) (a : Action) (site' : Site) : List (Half × Thread × ServerEvent) :=
  match a with
  | .server a => halves site.process a site'.process
  | .onMessage .. => []

/-- The page has folded the events it got, but for those on their way. -/
def PageOf (site : Site) (id : ℕ) (got : List ServerEvent) : Prop :=
  ∃ pending, site.inbox id = texts events pending ∧
    Delivers ServerState.applyServerEvent (.new [] []) got pending (site.pages id)

end Site

/-- What was handed over, with the event that is being sent. -/
def soFar (cfg : ServerConfig) (p : Process) (journal : List (Half × Thread × ServerEvent)) :
    List ServerEvent :=
  handedOver cfg journal ++
    match p.browsers with
    | .held _ ev _ _ => [ev]
    | .free _ => []

/-- What a connected browser has received is what its page got. -/
structure Followed (cfg : ServerConfig) (events : ServerEvent → Except Text Text) (site : Site)
    (journal : List (Half × Thread × ServerEvent)) (id : ℕ) (got : List ServerEvent) : Prop where
  page : PageOf events site id got
  stretch : got <:+: soFar cfg site.process journal
  received : ∀ ws ∈ site.process.browsers.listed, ws.id = id → ws.received = got
  unopened : site.process.nextBrowser ≤ id → got = []

structure Follows (cfg : ServerConfig) (events : ServerEvent → Except Text Text) (opened : ℕ)
    (site : Site) (journal : List (Half × Thread × ServerEvent)) : Prop where
  ordered : Ordered cfg opened site.process journal
  address : site.process.server.threads.events.foldl ipAfter none = site.process.server.lastIp
  accept : ∀ e ∈ into .channel journal, e.1 = .accept → ∀ known, ipAfter known e.2 = known
  distinct : (site.process.browsers.listed.map WebSocket.id).Nodup
  opened : ∀ ws ∈ site.process.browsers.listed, ws.id < site.process.nextBrowser
  pages : ∀ id, ∃ got, Followed cfg events site journal id got

section Address

/-- Events replace what was known or leave it. -/
theorem foldl_ipAfter (events : List ServerEvent) (known : Option Text) :
    events.foldl ipAfter known = (events.foldl ipAfter none).or known := by
  induction events using List.reverseRecOn with
  | nil => rfl
  | append_singleton events ev ih =>
      rw [List.foldl_append, List.foldl_append, ih]
      cases ev <;> rfl

/-- An address told by a last stretch is the one that the whole tells. -/
theorem foldl_ipAfter_of_suffix {got events : List ServerEvent} (h : got <:+ events)
    (hknown : (got.foldl ipAfter none).isSome) :
    got.foldl ipAfter none = events.foldl ipAfter none := by
  obtain ⟨front, rfl⟩ := h
  rw [List.foldl_append, foldl_ipAfter got (front.foldl ipAfter none), Option.or_of_isSome hknown]

/-- The accept thread's events tell no address. -/
theorem foldl_ipAfter_ofThread {es : List (Thread × ServerEvent)}
    (h : ∀ e ∈ es, e.1 = .accept → ∀ known, ipAfter known e.2 = known) (known : Option Text) :
    (es.map Prod.snd).foldl ipAfter known = (ofThread .main es).foldl ipAfter known := by
  induction es generalizing known with
  | nil => rfl
  | cons e es ih =>
      obtain ⟨t, ev⟩ := e
      have hrest := ih fun e he => h e (List.mem_cons_of_mem _ he)
      cases t with
      | main => exact hrest (ipAfter known ev)
      | accept =>
          have hkeeps := h (.accept, ev) (List.mem_cons_self ..) rfl known
          rw [List.map_cons, List.foldl_cons, hkeeps]
          exact hrest known

theorem mem_ofThread {t : Thread} {ev : ServerEvent} {es : List (Thread × ServerEvent)} :
    ev ∈ ofThread t es ↔ (t, ev) ∈ es := by
  simp [ofThread, List.mem_filterMap]

end Address

section Steps
variable {cfg : ServerConfig} {json : SerdeJson} {events : ServerEvent → Except Text Text}
variable {read : Text → Except Text ServerEvent} {accepts : ℕ → ℕ → ℕ} {opened : ℕ}
variable {site : Site} {journal journal' : List (Half × Thread × ServerEvent)} {p' : Process}

theorem texts_cons {ev : ServerEvent} {text : Text} (h : events ev = .ok text)
    (evs : List ServerEvent) : texts events (ev :: evs) = text :: texts events evs := by
  simp [texts, h, Except.toOption]

theorem texts_append (es fs : List ServerEvent) :
    texts events (es ++ fs) = texts events es ++ texts events fs := List.filterMap_append ..

theorem follows_start : Follows cfg events opened (start cfg events opened) [] := by
  constructor
  · exact ordered_start cfg opened
  · rfl
  · rintro _ ⟨⟩
  · simpa [start, ServerProcess.start, BrowserList.listed, Function.comp_def] using List.nodup_range
  · intro ws hws
    obtain ⟨id, hid, rfl⟩ := List.mem_map.mp hws
    exact List.mem_range.mp hid
  · intro id
    refine ⟨if id < opened then (ServerLoop.start cfg).threads.events else [], ⟨?_, ?_, ?_, ?_⟩⟩
    · refine ⟨_, ?_, delivers_start ..⟩
      dsimp only [start]
      split_ifs
      · rfl
      · rfl
    · split_ifs
      · exact ⟨[], [], by simp [soFar, handedOver, into, start, ServerProcess.start]⟩
      · exact List.nil_infix
    · intro ws hws hid
      obtain ⟨n, hn, rfl⟩ := List.mem_map.mp hws
      subst hid
      rw [if_pos (List.mem_range.mp hn)]
    · intro hid
      exact if_neg (Nat.not_lt.mpr hid)

/-- An event of the accept thread is about a client or a failed accept. -/
theorem accept_keeps {s s' : ServerLoop.Server} {b : Broadcast.Action} {ev : ServerEvent}
    (h : ServerLoop.step cfg json accepts s (.accept b) = some s')
    (hev : emitted s s' = some ev) (known : Option Text) : ipAfter known ev = known := by
  obtain ⟨new, hnew, htells⟩ := LateObserver.tells_of_step h
  have hone := ServerProcess.events_emitted h
  rw [hnew, hev, Option.toList_some] at hone
  cases htells with
  | address ip ha => cases ha
  | nothing _ _ hkeeps =>
      rw [List.append_cancel_left hone] at hkeeps
      exact hkeeps known

/-- A step that sends nothing to a page. -/
theorem Follows.move (h : Follows cfg events opened site journal)
    (hordered : Ordered cfg opened p' journal')
    (haddress : p'.server.threads.events.foldl ipAfter none = p'.server.lastIp)
    (haccept : ∀ e ∈ into .channel journal', e.1 = .accept → ∀ known, ipAfter known e.2 = known)
    (hlisted : p'.browsers.listed.Sublist site.process.browsers.listed)
    (hnext : p'.nextBrowser = site.process.nextBrowser)
    (hmore : soFar cfg site.process journal <+: soFar cfg p' journal') :
    Follows cfg events opened { site with process := p' } journal' := by
  refine ⟨hordered, haddress, haccept, h.distinct.sublist (hlisted.map _), ?_, ?_⟩
  · intro ws hws
    exact hnext ▸ h.opened ws (hlisted.subset hws)
  · intro id
    obtain ⟨got, hgot⟩ := h.pages id
    refine ⟨got, hgot.page, hgot.stretch.trans hmore.isInfix, ?_, ?_⟩
    · exact fun ws hws => hgot.received ws (hlisted.subset hws)
    · exact fun hid => hgot.unopened (hnext ▸ hid)

/-- One browser more is sent to: its page gets the event. -/
theorem Follows.send (h : Follows cfg events opened site journal) {t : Thread} {ev : ServerEvent}
    {kept rest : List WebSocket} {ws : WebSocket}
    (hheld : site.process.browsers = .held t ev kept (ws :: rest))
    (hordered : Ordered cfg opened
      { site.process with browsers := .held t ev (kept ++ [ServerProcess.received ws ev]) rest }
      journal) :
    Follows cfg events opened
      { site with
        process := { site.process with
          browsers := .held t ev (kept ++ [ServerProcess.received ws ev]) rest }
        inbox := Function.update site.inbox ws.id (site.inbox ws.id ++ texts events [ev]) }
      journal := by
  have hdistinct := h.distinct
  have hopened := h.opened
  rw [hheld] at hdistinct hopened
  have hids :
      (BrowserList.held t ev (kept ++ [ServerProcess.received ws ev]) rest).listed.map
        WebSocket.id = (BrowserList.held t ev kept (ws :: rest)).listed.map WebSocket.id := by
    simp [BrowserList.listed, ServerProcess.received]
  refine ⟨hordered, h.address, h.accept, hids ▸ hdistinct, ?_, ?_⟩
  · intro ws' hws'
    have hmem := List.mem_map_of_mem (f := WebSocket.id) hws'
    rw [hids] at hmem
    obtain ⟨old, hold, hid⟩ := List.mem_map.mp hmem
    exact hid ▸ hopened old hold
  intro id
  obtain ⟨got, hgot⟩ := h.pages id
  have hsame : soFar cfg { site.process with
      browsers := .held t ev (kept ++ [ServerProcess.received ws ev]) rest } journal =
        soFar cfg site.process journal := by
    simp only [soFar, hheld]
  by_cases hid : id = ws.id
  · subst hid
    have hgot' : ws.received = got := by
      apply hgot.received ws _ rfl
      rw [hheld]
      exact List.mem_append_right _ (List.mem_cons_self ..)
    refine ⟨got ++ [ev], ?_, ?_, ?_, ?_⟩
    · obtain ⟨pending, hinbox, hdelivers⟩ := hgot.page
      refine ⟨pending ++ [ev], ?_, hdelivers.send [ev]⟩
      dsimp only
      rw [Function.update_self, hinbox, texts_append]
    · have hserved := hordered.served.2 (ServerProcess.received ws ev)
        (List.mem_append_right _ (List.mem_singleton_self _))
      rw [hsame, soFar, hheld, ← hgot']
      exact hserved.1.isInfix
    · intro ws' hws' hid
      rw [← hgot']
      -- the numbers are distinct, so it is the browser just sent to
      have hnodup := hdistinct
      rw [← hids] at hnodup
      have hnew : ServerProcess.received ws ev ∈
          (BrowserList.held t ev (kept ++ [ServerProcess.received ws ev]) rest).listed := by
        simp [BrowserList.listed]
      rw [List.inj_on_of_nodup_map hnodup hws' hnew hid]
      rfl
    · intro hunopened
      have hlt := hopened ws (List.mem_append_right _ (List.mem_cons_self ..))
      exact absurd hlt (Nat.not_lt.mpr hunopened)
  · refine ⟨got, ?_, hsame ▸ hgot.stretch, ?_, hgot.unopened⟩
    · obtain ⟨pending, hinbox, hdelivers⟩ := hgot.page
      refine ⟨pending, ?_, hdelivers⟩
      dsimp only
      rw [Function.update_of_ne hid, hinbox]
    · intro ws' hws' hid'
      apply hgot.received ws' _ hid'
      rw [hheld]
      simp only [BrowserList.listed, List.append_assoc, List.mem_append, List.mem_cons,
        List.not_mem_nil, or_false] at hws' ⊢
      rcases hws' with hkept | rfl | hrest
      · exact .inl hkept
      · exact absurd hid'.symm hid
      · exact .inr (.inr hrest)

/-- A browser opens with an empty page. -/
theorem Follows.opens (h : Follows cfg events opened site journal) {browsers : List WebSocket}
    (hfree : site.process.browsers = .free browsers)
    (hordered : Ordered cfg opened
      { site.process with
        browsers := .free (browsers ++ [⟨site.process.nextBrowser, []⟩])
        nextBrowser := site.process.nextBrowser + 1 } journal) :
    Follows cfg events opened
      { site with
        process := { site.process with
          browsers := .free (browsers ++ [⟨site.process.nextBrowser, []⟩])
          nextBrowser := site.process.nextBrowser + 1 } } journal := by
  have hdistinct := h.distinct
  have hopened := h.opened
  rw [hfree] at hdistinct hopened
  refine ⟨hordered, h.address, h.accept, ?_, ?_, ?_⟩
  · simp only [BrowserList.listed, List.map_append, List.map_singleton]
    apply hdistinct.append (List.nodup_singleton _)
    rw [List.disjoint_singleton]
    intro hmem
    obtain ⟨ws, hws, hid⟩ := List.mem_map.mp hmem
    exact absurd (hopened ws hws) (by omega)
  · intro ws hws
    rcases List.mem_append.mp hws with hws | hws
    · exact Nat.lt_succ_of_lt (hopened ws hws)
    · rw [List.mem_singleton.mp hws]
      exact Nat.lt_succ_self _
  · intro id
    obtain ⟨got, hgot⟩ := h.pages id
    refine ⟨got, hgot.page, ?_, ?_, ?_⟩
    · have hstretch := hgot.stretch
      rw [soFar, hfree] at hstretch
      exact hstretch
    · intro ws hws hid
      rcases List.mem_append.mp hws with hws | hws
      · apply hgot.received ws _ hid
        rw [hfree]
        exact hws
      · rw [List.mem_singleton.mp hws] at hid ⊢
        exact (hgot.unopened (Nat.le_of_eq hid)).symm
    · exact fun hid => hgot.unopened (Nat.le_of_succ_le hid)

/-- A page handles the oldest text on its way to it. -/
theorem Follows.handle (hserde : ∀ ev, ∃ text, events ev = .ok text ∧ read text = .ok ev)
    (h : Follows cfg events opened site journal) {id : ℕ} {text : Text} {rest : List Text}
    (hinbox : site.inbox id = text :: rest) (now : Text) :
    Follows cfg events opened
      { site with
        inbox := Function.update site.inbox id rest
        pages := Function.update site.pages id (onMessage read (site.pages id) now text) }
      journal := by
  refine ⟨h.ordered, h.address, h.accept, h.distinct, h.opened, ?_⟩
  intro id'
  obtain ⟨got, hgot⟩ := h.pages id'
  refine ⟨got, ?_, hgot.stretch, hgot.received, hgot.unopened⟩
  obtain ⟨pending, hpending, hdelivers⟩ := hgot.page
  by_cases hid : id' = id
  · subst hid
    rw [hinbox] at hpending
    cases pending with
    | nil => cases hpending
    | cons ev pending =>
        obtain ⟨text', htext, hread⟩ := hserde ev
        rw [texts_cons htext, List.cons.injEq] at hpending
        obtain ⟨rfl, rfl⟩ := hpending
        refine ⟨pending, Function.update_self .., ?_⟩
        dsimp only
        rw [Function.update_self, onMessage, hread]
        exact hdelivers.receive now
  · refine ⟨pending, ?_, ?_⟩
    · dsimp only
      rw [Function.update_of_ne hid, hpending]
    · dsimp only
      rw [Function.update_of_ne hid]
      exact hdelivers

theorem follows_step (hserde : ∀ ev, ∃ text, events ev = .ok text ∧ read text = .ok ev)
    (site : Site) (a : Action) (site' : Site) (journal : List (Half × Thread × ServerEvent))
    (h : Follows cfg events opened site journal)
    (hstep : step cfg json events read accepts site a = some site') :
    Follows cfg events opened site' (journal ++ siteHalves site a site') := by
  have hevents : ∀ ev, ∃ text, events ev = .ok text := by
    intro ev
    obtain ⟨text, htext, -⟩ := hserde ev
    exact ⟨text, htext⟩
  cases a with
  | onMessage id now =>
      dsimp only [step] at hstep
      split at hstep
      · cases hstep
      · rename_i text rest hinbox
        cases hstep
        rw [siteHalves, List.append_nil]
        exact h.handle hserde hinbox now
  | server a =>
      obtain ⟨p', hp', rfl⟩ := Option.map_eq_some_iff.mp hstep
      have hordered := ordered_step hevents _ _ _ _ h.ordered hp'
      cases effect_of_step hevents hp' with
      | quiet a server hidle hserver hevent =>
          have hnone : halves site.process (.loop a) { site.process with server } = [] := by
            simp [halves, hevent]
          simp only [siteHalves, sentTo, hnone, List.append_nil] at hordered ⊢
          exact h.move hordered (LateObserver.address_step h.address hserver).2 h.accept
            (List.Sublist.refl _) rfl (List.prefix_refl _)
      | emits a server ev inFlight hidle hserver hevent hbegin =>
          have hone : halves site.process (.loop a) { site.process with server, inFlight } =
              [(.channel, threadOf a, ev)] := by simp [halves, hevent]
          simp only [siteHalves, sentTo, hone] at hordered ⊢
          refine h.move hordered (LateObserver.address_step h.address hserver).2 ?_
            (List.Sublist.refl _) rfl ?_
          · intro e he haccept known
            rw [into_append] at he
            rcases List.mem_append.mp he with he | he
            · exact h.accept e he haccept known
            · cases List.mem_singleton.mp he
              cases a with
              | accept b => exact accept_keeps hserver hevent known
              | poll | lock | visit | unlock | heartbeatSent => cases haccept
          · have hbrowsers : into .browsers [(Half.channel, threadOf a, ev)] = [] := rfl
            rw [soFar, soFar, handedOver, handedOver, into_append, hbrowsers, List.append_nil]
      | locks t r browsers hfinish hfree =>
          simp only [siteHalves, halves, sentTo, List.append_nil] at hordered ⊢
          refine h.move hordered h.address h.accept ?_ rfl ?_
          · rw [hfree]
            exact List.Sublist.refl _
          · rw [soFar, hfree, List.append_nil]
            exact List.prefix_append ..
      | sends sent t ev kept rest ws hheld =>
          cases sent with
          | true =>
              simp only [siteHalves, halves, sentTo, hheld, List.append_nil] at hordered ⊢
              exact h.send hheld hordered
          | false =>
              simp only [siteHalves, halves, sentTo, List.append_nil] at hordered ⊢
              refine h.move hordered h.address h.accept ?_ rfl ?_
              · rw [hheld]
                exact (List.sublist_cons_self ws rest).append_left kept
              · rw [soFar, soFar, hheld]
      | unlocks t ev kept r hheld hfinish =>
          have hone : halves site.process .unlockBrowsers
              { site.process with browsers := .free kept, inFlight := r.2 } =
                [(.browsers, t, ev)] := by simp only [halves, hheld]
          simp only [siteHalves, sentTo, hone] at hordered ⊢
          refine h.move hordered h.address ?_ ?_ rfl ?_
          · intro e he
            rw [into_append] at he
            exact h.accept e (by simpa [into] using he)
          · rw [hheld, BrowserList.listed, BrowserList.listed, List.append_nil]
          · rw [soFar, soFar, hheld, handedOver, handedOver, into_append, List.map_append,
              ← List.append_assoc]
            exact List.prefix_append ..
      | opens browsers hfree =>
          simp only [siteHalves, halves, sentTo, List.append_nil] at hordered ⊢
          exact h.opens hfree hordered

/-- With the main thread not sending, what was handed over tells the server's address. -/
theorem Follows.handed_address (h : Follows cfg events opened site journal)
    (hidle : sending site.process.inFlight .main = none) :
    (handedOver cfg journal).foldl ipAfter none = site.process.server.lastIp := by
  have hthreads : ∀ t, ofThread t (into .channel journal) =
      ofThread t (into .browsers journal) ++ (sending site.process.inFlight t).toList :=
    h.ordered.threads
  have hmain := hthreads .main
  rw [hidle, Option.toList_none, List.append_nil] at hmain
  have haccept : ∀ e ∈ into .browsers journal, e.1 = .accept →
      ∀ known, ipAfter known e.2 = known := by
    rintro ⟨t, ev⟩ he rfl
    refine h.accept (.accept, ev) ?_ rfl
    rw [← mem_ofThread, hthreads .accept]
    exact List.mem_append_left _ (mem_ofThread.mpr he)
  rw [← h.address, h.ordered.channel, handedOver, List.foldl_append, List.foldl_append,
    foldl_ipAfter_ofThread haccept, foldl_ipAfter_ofThread h.accept, hmain]

/-- A thread that is sending to the browsers then is the accept thread, whose event tells no
address. -/
theorem Follows.holder_keeps (h : Follows cfg events opened site journal)
    (hidle : sending site.process.inFlight .main = none) {t : Thread} {ev : ServerEvent}
    {kept rest : List WebSocket} (hheld : site.process.browsers = .held t ev kept rest)
    (known : Option Text) : ipAfter known ev = known := by
  have hholder : sending site.process.inFlight t = some ev :=
    h.ordered.holder t ev kept rest hheld
  cases t with
  | main =>
      rw [hidle] at hholder
      cases hholder
  | accept =>
      refine h.accept (.accept, ev) ?_ rfl known
      rw [← mem_ofThread, h.ordered.threads, hholder]
      exact List.mem_append_right _ (List.mem_singleton_self ev)

theorem Follows.listed_address (h : Follows cfg events opened site journal)
    (hidle : sending site.process.inFlight .main = none) {ws : WebSocket}
    (hws : ws ∈ site.process.browsers.listed) (hknown : (ws.received.foldl ipAfter none).isSome) :
    ws.received.foldl ipAfter none = site.process.server.lastIp := by
  have hserved := h.ordered.served
  have hhanded := h.handed_address hidle
  cases hbrowsers : site.process.browsers with
  | free browsers =>
      rw [hbrowsers] at hws hserved
      rw [foldl_ipAfter_of_suffix (hserved ws hws).1 hknown, hhanded]
  | held t ev kept rest =>
      rw [hbrowsers] at hws hserved
      cases List.mem_append.mp hws with
      | inl hkept =>
          rw [foldl_ipAfter_of_suffix (hserved.2 ws hkept).1 hknown, List.foldl_append, hhanded]
          exact h.holder_keeps hidle hbrowsers _
      | inr hrest => rw [foldl_ipAfter_of_suffix (hserved.1 ws hrest).1 hknown, hhanded]

end Steps

/-- A browser opens after the first address was told, a client comes, the address changes,
and the page handles what it is sent. -/
def opensLate : List Action :=
  [.server (.loop (.poll (.ok ⟨10, 0, 0, 1⟩))), .server (.lockBrowsers .main),
    .server .unlockBrowsers, .server .browserOpens,
    .server (.loop (.accept (.push ConnectedClients.laptop))),
    .server (.loop (.accept .announce)), .server (.lockBrowsers .accept),
    .server (.sendBrowser true), .server .unlockBrowsers, .onMessage 0 [],
    .server (.loop .lock), .server (.loop .visit), .server (.loop .unlock), .server (.loop .lock),
    .server (.loop .visit), .server (.loop .unlock), .server (.loop .heartbeatSent),
    .server (.lockBrowsers .main), .server (.sendBrowser true), .server .unlockBrowsers,
    .onMessage 0 [], .server (.loop (.poll (.ok ⟨10, 0, 0, 2⟩))), .server (.lockBrowsers .main),
    .server (.sendBrowser true), .server .unlockBrowsers, .onMessage 0 []]

end DnslessHomelab.WebPages
