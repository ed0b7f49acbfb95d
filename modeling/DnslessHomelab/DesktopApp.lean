import DnslessHomelab.ClientPanel

/-!
# The desktop app and its tray menu

The frames of the desktop app: each drains the pending client and menu events, turns the
newest menu action into commands for the window, and hides to the tray when closing is
requested. A close issued for Quit is such a request in the next frame.
-/
namespace DnslessHomelab.DesktopApp
open Protocol ClientPanel

/-! ## Tray -/

def menuShow : Text := "show".toList
def menuHide : Text := "hide".toList
def menuQuit : Text := "quit".toList

inductive MenuAction where
  | showWindow | hideWindow | quit
  deriving DecidableEq, Repr

/-- The action of a menu item, by its id. -/
def menuAction? (id : Text) : Option MenuAction :=
  if id = menuShow then some .showWindow
  else if id = menuHide then some .hideWindow
  else if id = menuQuit then some .quit
  else none

/-- The flag is set for every Quit, and read nowhere. -/
structure Tray where
  quitFlag : Bool
  deriving DecidableEq, Repr

/-- The loop over the pending events, with the newest action so far. -/
def Tray.drain (tray : Tray) (last : Option MenuAction) : List Text → Tray × Option MenuAction
  | [] => (tray, last)
  | id :: pending =>
      let action := menuAction? id
      let tray := if action = some .quit then ⟨true⟩ else tray
      tray.drain (if action.isSome then action else last) pending

def Tray.drainMenuEvents (tray : Tray) (pending : List Text) : Tray × Option MenuAction :=
  tray.drain none pending

/-! ## App -/

inductive ViewportCommand where
  | visible (shown : Bool)
  | focus | close | cancelClose
  deriving DecidableEq, Repr

structure App where
  tray : Tray
  clientState : ClientState

def App.new (clientState : ClientState) : App := ⟨⟨false⟩, clientState⟩

/-- What is pending when a frame is drawn: menu events by their ids, client events with
the times at which they are applied, and the request of the user to close the window. -/
structure Frame where
  menu : List Text
  client : List (Text × ClientEvent)
  windowClose : Bool

def drainClient (clientState : ClientState) (pending : List (Text × ClientEvent)) :
    ClientState × Bool :=
  (clientState.applyAll pending, !pending.isEmpty)

def handleMenu : Option MenuAction → List ViewportCommand
  | some .showWindow => [.visible true, .focus]
  | some .hideWindow => [.visible false]
  | some .quit => [.close]
  | none => []

def update (app : App) (frame : Frame) (closeRequested : Bool) : App × List ViewportCommand :=
  let clientState := (drainClient app.clientState frame.client).1
  let (tray, action) := app.tray.drainMenuEvents frame.menu
  -- closing the window hides to the tray
  let hide := if closeRequested then [.cancelClose, .visible false] else []
  (⟨tray, clientState⟩, handleMenu action ++ hide)

/-! ## Windows -/

/-- The window library: whether closing is requested in a frame, given the request of the
user, and what it keeps of a frame and the commands issued in it. -/
structure Eframe (σ : Type*) where
  start : σ
  closeRequested : σ → Bool → Bool
  next : σ → Bool → List ViewportCommand → σ

/-- Nothing but the user requests closing. -/
def Eframe.Quiet {σ : Type*} (eframe : Eframe σ) (window : σ) : Prop :=
  eframe.closeRequested window false = false

/-- A close is requested in the next frame, and a cancelled request is gone. -/
structure Eframe.Documented {σ : Type*} (eframe : Eframe σ) : Prop where
  fresh : eframe.Quiet eframe.start
  user : ∀ window, eframe.closeRequested window true = true
  close : ∀ window user commands, .close ∈ commands → .cancelClose ∉ commands →
    ∀ again, eframe.closeRequested (eframe.next window user commands) again = true
  cancel : ∀ window user commands, .close ∉ commands →
    (eframe.closeRequested window user = true → .cancelClose ∈ commands) →
    eframe.Quiet (eframe.next window user commands)

/-- The commands issued frame by frame. -/
def issued {σ : Type*} (eframe : Eframe σ) (app : App) (window : σ) :
    List Frame → List (Frame × List ViewportCommand)
  | [] => []
  | frame :: frames =>
      let (app, commands) := update app frame (eframe.closeRequested window frame.windowClose)
      (frame, commands) ::
        issued eframe app (eframe.next window frame.windowClose commands) frames

/-- A frame with a Quit among its menu events issues a close, and neither it nor a later
frame cancels one. -/
structure QuitQuits (frames : List (Frame × List ViewportCommand)) : Prop where
  closes : ∀ f ∈ frames, menuQuit ∈ f.1.menu → .close ∈ f.2 ∧ .cancelClose ∉ f.2
  stays : frames.Pairwise fun f g => menuQuit ∈ f.1.menu → .cancelClose ∉ g.2

/-- No Show and no Hide stands behind the last Quit. -/
def QuitsLast (menu : List Text) : Prop :=
  ∃ front back, menu = front ++ menuQuit :: back ∧ menuShow ∉ back ∧ menuHide ∉ back

/-- A Quit is among the events of the last frame only, where it comes last and the user does
not close the window. -/
structure QuitInLastFrame (frames : List Frame) : Prop where
  unfollowed : frames.Pairwise fun f _ => menuQuit ∉ f.menu
  quits : ∀ f ∈ frames, menuQuit ∈ f.menu → QuitsLast f.menu ∧ f.windowClose = false

section Menu
variable {tray : Tray} {last : Option MenuAction} {menu : List Text}

theorem menuAction?_eq_none {id : Text} :
    menuAction? id = none ↔ id ≠ menuShow ∧ id ≠ menuHide ∧ id ≠ menuQuit := by
  unfold menuAction?
  split_ifs with hshow hhide hquit
  · simp [hshow]
  · simp [hhide]
  · simp [hquit]
  · simp [hshow, hhide, hquit]

theorem menuAction?_eq_quit {id : Text} : menuAction? id = some .quit ↔ id = menuQuit := by
  unfold menuAction?
  split_ifs with hshow hhide hquit
  · simp [hshow, menuShow, menuQuit]
  · simp [hhide, menuHide, menuQuit]
  · simp [hquit]
  · simp [hquit]

/-- The newest action is the one drained. -/
theorem drain_snd : (tray.drain last menu).2 = (menu.filterMap menuAction?).getLast?.or last := by
  induction menu generalizing tray last with
  | nil => rfl
  | cons id menu ih =>
      dsimp only [Tray.drain]
      rw [ih]
      cases h : menuAction? id with
      | none => simp [h]
      | some action =>
          rw [List.filterMap_cons_some h, List.getLast?_cons]
          cases (menu.filterMap menuAction?).getLast? <;> rfl

theorem getLast?_filterMap_menuAction? :
    (menu.filterMap menuAction?).getLast? = some .quit ↔ QuitsLast menu := by
  constructor
  · intro h
    obtain ⟨actions, hactions⟩ := List.getLast?_eq_some_iff.mp h
    obtain ⟨front, rest, hmenu, -, hrest⟩ := List.filterMap_eq_append_iff.mp hactions
    obtain ⟨skipped, id, back, hsplit, -, hid, hback⟩ := List.filterMap_eq_cons_iff.mp hrest
    have hunknown : ∀ id ∈ back, id ≠ menuShow ∧ id ≠ menuHide := by
      intro id hmem
      have hnone := List.filterMap_eq_nil_iff.mp hback id hmem
      obtain ⟨hshow, hhide, -⟩ := menuAction?_eq_none.mp hnone
      exact ⟨hshow, hhide⟩
    refine ⟨front ++ skipped, back, ?_, ?_, ?_⟩
    · rw [hmenu, hsplit, menuAction?_eq_quit.mp hid, List.append_assoc]
    · exact fun hmem => (hunknown _ hmem).1 rfl
    · exact fun hmem => (hunknown _ hmem).2 rfl
  · rintro ⟨front, back, rfl, hshow, hhide⟩
    have hquit : ∀ action ∈ back.filterMap menuAction?, action = .quit := by
      intro action haction
      obtain ⟨id, hmem, hid⟩ := List.mem_filterMap.mp haction
      have hknown : menuAction? id ≠ none := by simp [hid]
      rw [Ne, menuAction?_eq_none] at hknown
      have heq : id = menuQuit := by
        by_contra hne
        exact hknown ⟨fun h => hshow (h ▸ hmem), fun h => hhide (h ▸ hmem), hne⟩
      rw [menuAction?_eq_quit.mpr heq] at hid
      exact (Option.some.inj hid).symm
    rw [List.filterMap_append, List.filterMap_cons_some (menuAction?_eq_quit.mpr rfl),
      List.getLast?_append, List.getLast?_cons]
    cases h : (back.filterMap menuAction?).getLast? with
    | none => rfl
    | some action =>
        rw [hquit action (List.mem_of_getLast? h)]
        rfl

theorem QuitsLast.mem (h : QuitsLast menu) : menuQuit ∈ menu := by
  obtain ⟨front, back, rfl, -, -⟩ := h
  exact List.mem_append_right _ (List.mem_cons_self ..)

end Menu

section Frames
variable {app : App} {f : Frame} {requested : Bool}

/-- A close is issued for a Quit that comes last, and for nothing else. -/
theorem close_mem_update : .close ∈ (update app f requested).2 ↔ QuitsLast f.menu := by
  have hhide :
      .close ∉ if requested then [ViewportCommand.cancelClose, .visible false] else [] := by
    cases requested <;> simp
  have hmenu : ∀ action, .close ∈ handleMenu action ↔ action = some .quit := by
    rintro (_ | _ | _ | _) <;> simp [handleMenu]
  dsimp only [update, Tray.drainMenuEvents]
  rw [List.mem_append, or_iff_left hhide, hmenu, drain_snd, Option.or_none,
    getLast?_filterMap_menuAction?]

/-- Every requested close is cancelled, whatever requested it. -/
theorem cancelClose_mem_update :
    .cancelClose ∈ (update app f requested).2 ↔ requested = true := by
  have hmenu : ∀ action, .cancelClose ∉ handleMenu action := by
    rintro (_ | _ | _ | _) <;> simp [handleMenu]
  dsimp only [update]
  rw [List.mem_append, or_iff_right (hmenu _)]
  cases requested <;> simp

end Frames

theorem quitQuits_nil : QuitQuits [] := ⟨List.forall_mem_nil _, .nil⟩

theorem quitInLastFrame_nil : QuitInLastFrame [] := ⟨.nil, List.forall_mem_nil _⟩

theorem quitQuits_cons {f : Frame × List ViewportCommand}
    {frames : List (Frame × List ViewportCommand)} :
    QuitQuits (f :: frames) ↔
      (menuQuit ∈ f.1.menu →
        .close ∈ f.2 ∧ .cancelClose ∉ f.2 ∧ ∀ g ∈ frames, .cancelClose ∉ g.2) ∧
        QuitQuits frames := by
  constructor
  · rintro ⟨hcloses, hstays⟩
    rw [List.forall_mem_cons] at hcloses
    rw [List.pairwise_cons] at hstays
    refine ⟨?_, hcloses.2, hstays.2⟩
    intro hquit
    obtain ⟨hclose, hcancel⟩ := hcloses.1 hquit
    exact ⟨hclose, hcancel, fun g hg => hstays.1 g hg hquit⟩
  · rintro ⟨hfirst, hcloses, hstays⟩
    constructor
    · rw [List.forall_mem_cons]
      exact ⟨fun hquit => ⟨(hfirst hquit).1, (hfirst hquit).2.1⟩, hcloses⟩
    · rw [List.pairwise_cons]
      exact ⟨fun g hg hquit => (hfirst hquit).2.2 g hg, hstays⟩

theorem quitInLastFrame_cons {f : Frame} {frames : List Frame} :
    QuitInLastFrame (f :: frames) ↔
      (menuQuit ∈ f.menu → frames = [] ∧ QuitsLast f.menu ∧ f.windowClose = false) ∧
        QuitInLastFrame frames := by
  constructor
  · rintro ⟨hunfollowed, hquits⟩
    rw [List.pairwise_cons] at hunfollowed
    rw [List.forall_mem_cons] at hquits
    refine ⟨?_, hunfollowed.2, hquits.2⟩
    intro hquit
    refine ⟨?_, hquits.1 hquit⟩
    apply List.eq_nil_iff_forall_not_mem.mpr
    exact fun g hg => hunfollowed.1 g hg hquit
  · rintro ⟨hfirst, hunfollowed, hquits⟩
    constructor
    · rw [List.pairwise_cons]
      refine ⟨?_, hunfollowed⟩
      intro g hg hquit
      rw [(hfirst hquit).1] at hg
      cases hg
    · rw [List.forall_mem_cons]
      exact ⟨fun hquit => (hfirst hquit).2, hquits⟩

section Runs
variable {σ : Type*} {eframe : Eframe σ} {window : σ}

theorem issued_cons (app : App) (f : Frame) (frames : List Frame) :
    issued eframe app window (f :: frames) =
      let result := update app f (eframe.closeRequested window f.windowClose)
      (f, result.2) ::
        issued eframe result.1 (eframe.next window f.windowClose result.2) frames := rfl

theorem Eframe.Documented.closeRequested_iff (heframe : eframe.Documented)
    (hquiet : eframe.Quiet window) (user : Bool) :
    eframe.closeRequested window user = true ↔ user = true := by
  cases user with
  | false => simp [show eframe.closeRequested window false = false from hquiet]
  | true => simp [heframe.user]

/-- Without a Quit the app requests nothing, and cancels what the user requests. -/
theorem Eframe.Documented.quiet_next (heframe : eframe.Documented) {app : App} {f : Frame}
    (hquit : menuQuit ∉ f.menu) :
    eframe.Quiet (eframe.next window f.windowClose
      (update app f (eframe.closeRequested window f.windowClose)).2) := by
  apply heframe.cancel
  · exact fun hclose => hquit (close_mem_update.mp hclose).mem
  · exact cancelClose_mem_update.mpr

/-- After a Quit the next frame takes the app's own close for the user's, and cancels it. -/
theorem Eframe.Documented.cancels_quit (heframe : eframe.Documented) {user : Bool}
    {commands : List ViewportCommand} (hclose : .close ∈ commands)
    (hcancel : .cancelClose ∉ commands) (app : App) (g : Frame) :
    .cancelClose ∈ (update app g
      (eframe.closeRequested (eframe.next window user commands) g.windowClose)).2 := by
  rw [cancelClose_mem_update]
  exact heframe.close window user commands hclose hcancel g.windowClose

theorem quitQuits_issued_iff (heframe : eframe.Documented) (hquiet : eframe.Quiet window)
    (app : App) (frames : List Frame) :
    QuitQuits (issued eframe app window frames) ↔ QuitInLastFrame frames := by
  induction frames generalizing app window with
  | nil => exact iff_of_true quitQuits_nil quitInLastFrame_nil
  | cons f frames ih =>
      rw [issued_cons, quitQuits_cons, quitInLastFrame_cons]
      dsimp only
      by_cases hquit : menuQuit ∈ f.menu
      · rw [close_mem_update, cancelClose_mem_update, heframe.closeRequested_iff hquiet,
          Bool.not_eq_true]
        cases frames with
        | nil => simp [issued, quitQuits_nil, quitInLastFrame_nil]
        | cons g frames =>
            constructor
            · rintro ⟨hfirst, -⟩
              obtain ⟨hlast, hwindow, hlater⟩ := hfirst hquit
              exfalso
              apply hlater _ (List.mem_cons_self ..)
              apply heframe.cancels_quit
              · exact close_mem_update.mpr hlast
              · rw [cancelClose_mem_update, heframe.closeRequested_iff hquiet, hwindow]
                exact Bool.false_ne_true
            · rintro ⟨hfirst, -⟩
              cases (hfirst hquit).1
      · rw [ih (heframe.quiet_next hquit)]
        exact and_congr_left' (iff_of_true (absurd · hquit) (absurd · hquit))

end Runs

/-- Quit quits in exactly the runs in which no frame follows it, no Show and no Hide stands
behind it, and the user does not close the window in the same frame. -/
theorem quitQuits_iff {σ : Type*} (eframe : Eframe σ) (heframe : eframe.Documented)
    (clientState : ClientState) (frames : List Frame) :
    QuitQuits (issued eframe (App.new clientState) eframe.start frames) ↔
      QuitInLastFrame frames :=
  quitQuits_issued_iff heframe heframe.fresh _ frames

/-- A window that remembers whether a close was issued in the last frame. -/
def oneWindow : Eframe Bool where
  start := false
  closeRequested pending user := pending || user
  next _ _ commands := commands.contains .close

theorem oneWindow_documented : oneWindow.Documented where
  fresh := rfl
  user pending := Bool.or_true pending
  close := by
    intro _ _ commands hclose _ again
    simp [oneWindow, hclose]
  cancel := by
    intro _ _ commands hclose _
    simp [Eframe.Quiet, oneWindow, hclose]

def fresh : ClientState := ClientState.new "server.home:5353".toList "/etc/hosts".toList

/-- The user closes the window, shows it again and quits. -/
def quitAtTheEnd : List Frame := [⟨[], [], true⟩, ⟨[menuShow, menuQuit], [], false⟩]

theorem quitAtTheEnd_quits :
    QuitQuits (issued oneWindow (App.new fresh) oneWindow.start quitAtTheEnd) := by
  apply (quitQuits_iff oneWindow oneWindow_documented fresh quitAtTheEnd).mpr
  constructor
  · simp [quitAtTheEnd]
  · refine List.forall_mem_cons.mpr ⟨?_, List.forall_mem_singleton.mpr ?_⟩
    · simp
    · exact fun _ => ⟨⟨[menuShow], [], rfl, List.not_mem_nil, List.not_mem_nil⟩, rfl⟩

/-- The frame after a Quit cancels its close, and a Show behind a Quit replaces it. -/
theorem quit_does_not_quit :
    oneWindow.Documented ∧
      ¬ QuitQuits (issued oneWindow (App.new fresh) oneWindow.start
          [⟨[menuQuit], [], false⟩, ⟨[], [], false⟩]) ∧
      ¬ QuitQuits (issued oneWindow (App.new fresh) oneWindow.start
          [⟨[menuQuit, menuShow], [], false⟩]) := by
  refine ⟨oneWindow_documented, ?_, ?_⟩
  · intro h
    have hcancel : .cancelClose ∉ [ViewportCommand.cancelClose, .visible false] :=
      List.pairwise_pair.mp h.stays (by decide)
    exact hcancel (List.mem_cons_self ..)
  · intro h
    have hclose : .close ∈ [ViewportCommand.visible true, .focus] :=
      (h.closes _ (List.mem_cons_self ..) (by decide)).1
    simp at hclose

end DnslessHomelab.DesktopApp
