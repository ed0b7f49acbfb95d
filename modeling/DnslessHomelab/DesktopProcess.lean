import DnslessHomelab.ClientLoop
import DnslessHomelab.DesktopApp
import DnslessHomelab.Mailbox

/-!
# The desktop process

The client's thread, the tray and the window library beside the frames of the desktop app,
with both drains taken one receive at a time while the client and the user go on. Every run
is a run of whole frames as in `DesktopApp`, each with the batches its two drains took.
-/
namespace DnslessHomelab.DesktopProcess
open Protocol Runs PanelState ClientPanel Mailbox DesktopApp
open ClientLoop (Client)
open ClientStream (ClientConfig)

/-- Where a frame stands; the window's request of the user is known when it begins. -/
inductive Drawing where
  | waiting
  | drainingClient (windowClose : Bool)
  | drainingMenu (windowClose : Bool) (last : Option MenuAction)

structure Process (σ τ : Type*) where
  client : Client σ
  clientRx : List ClientEvent
  menuRx : List Text
  app : App
  window : τ
  drawing : Drawing

inductive Action where
  | client (a : ClientLoop.Action)
  | pick (id : Text)
  | update (windowClose : Bool)
  | receiveClient (now : Text)
  | receiveMenu

section Process
variable {σ τ : Type*} (cfg : ClientConfig) (hostsFile : Text) (json : SerdeJson)
variable (update : σ → Text → Text → σ × Except Text Unit) (eframe : Eframe τ)

def newApp : App := App.new (.new cfg.serverAddr hostsFile)

def start (hosts : σ) : Process σ τ where
  client := ClientLoop.start cfg hosts
  clientRx := (ClientLoop.start cfg hosts).events
  menuRx := []
  app := newApp cfg hostsFile
  window := eframe.start
  drawing := .waiting

/-- The commands at the end of a frame, and whether closing was requested in it. -/
def finish (window : τ) (windowClose : Bool) (last : Option MenuAction) :
    Bool × List ViewportCommand :=
  let requested := eframe.closeRequested window windowClose
  (requested, handleMenu last ++ if requested then [.cancelClose, .visible false] else [])

def step (p : Process σ τ) : Action → Option (Process σ τ)
  | .client a =>
      (ClientLoop.step cfg json update p.client a).map fun client =>
        { p with
          client
          clientRx := p.clientRx ++ appended p.client.events client.events }
  | .pick id => some { p with menuRx := p.menuRx ++ [id] }
  | .update windowClose =>
      match p.drawing with
      | .waiting => some { p with drawing := .drainingClient windowClose }
      | .drainingClient _ | .drainingMenu .. => none
  | .receiveClient now =>
      match p.drawing, p.clientRx with
      | .drainingClient _, ev :: clientRx =>
          some { p with
            clientRx
            app := ⟨p.app.tray, p.app.clientState.applyClientEvent now ev⟩ }
      | .drainingClient windowClose, [] => some { p with drawing := .drainingMenu windowClose none }
      | .waiting, _ | .drainingMenu .., _ => none
  | .receiveMenu =>
      match p.drawing, p.menuRx with
      | .drainingMenu windowClose last, id :: menuRx =>
          let r := p.app.tray.drain last [id]
          some { p with
            menuRx
            app := ⟨r.1, p.app.clientState⟩
            drawing := .drainingMenu windowClose r.2 }
      | .drainingMenu windowClose last, [] =>
          some { p with
            window := eframe.next p.window windowClose (finish eframe p.window windowClose last).2
            drawing := .waiting }
      | .waiting, _ | .drainingClient _, _ => none

/-- What is seen from outside: a menu item picked, and a frame with its request for closing
and its commands. -/
inductive Seen where
  | picked (id : Text)
  | drew (requested : Bool) (commands : List ViewportCommand)
  deriving DecidableEq

def seen (p : Process σ τ) (a : Action) (_ : Process σ τ) : List Seen :=
  match a with
  | .pick id => [.picked id]
  | .receiveMenu =>
      match p.drawing, p.menuRx with
      | .drainingMenu windowClose last, [] =>
          let r := finish eframe p.window windowClose last
          [.drew r.1 r.2]
      | .drainingMenu .., _ :: _ | .waiting, _ | .drainingClient _, _ => []
  | .client _ | .update _ | .receiveClient _ => []

end Process

def picked? : Seen → Option Text
  | .picked id => some id
  | .drew .. => none

def drew? : Seen → Option (List ViewportCommand)
  | .picked _ => none
  | .drew _ commands => some commands

/-- The app and the window after whole frames. -/
def reached {τ : Type*} (eframe : Eframe τ) (app : App) (window : τ) : List Frame → App × τ
  | [] => (app, window)
  | f :: frames =>
      let r := DesktopApp.update app f (eframe.closeRequested window f.windowClose)
      reached eframe r.1 (eframe.next window f.windowClose r.2) frames

section Frames
variable {τ : Type*} {eframe : Eframe τ} {window : τ} {app : App} {f : Frame} {frames : List Frame}

theorem reached_concat : reached eframe app window (frames ++ [f]) =
    let m := reached eframe app window frames
    let r := DesktopApp.update m.1 f (eframe.closeRequested m.2 f.windowClose)
    (r.1, eframe.next m.2 f.windowClose r.2) := by
  induction frames generalizing app window with
  | nil => rfl
  | cons g frames ih =>
      rw [List.cons_append, reached, ih]
      rfl

theorem issued_concat : issued eframe app window (frames ++ [f]) =
    let m := reached eframe app window frames
    issued eframe app window frames ++
      [(f, (DesktopApp.update m.1 f (eframe.closeRequested m.2 f.windowClose)).2)] := by
  induction frames generalizing app window with
  | nil => rfl
  | cons g frames ih =>
      rw [List.cons_append, issued_cons, issued_cons]
      dsimp only
      rw [ih]
      rfl

end Frames

theorem drain_append (tray : Tray) (last : Option MenuAction) (menu menu' : List Text) :
    tray.drain last (menu ++ menu') =
      let r := tray.drain last menu
      r.1.drain r.2 menu' := by
  induction menu generalizing tray last with
  | nil => rfl
  | cons id menu ih =>
      rw [List.cons_append, Tray.drain, ih]
      rfl

/-- The frames so far, and what the drains of the frame going on have taken. -/
structure Batches where
  frames : List Frame
  client : List (Text × ClientEvent)
  menu : List Text

/-- The app and where the frame stands, from the batches taken so far. -/
def Underway (app : App) (b : Batches) (current : App) : Drawing → Prop
  | .waiting => current = app ∧ b.client = [] ∧ b.menu = []
  | .drainingClient _ => current = ⟨app.tray, app.clientState.applyAll b.client⟩ ∧ b.menu = []
  | .drainingMenu _ last =>
      current.clientState = app.clientState.applyAll b.client ∧
        app.tray.drain none b.menu = (current.tray, last)

section Refinement
variable {σ τ : Type*} (cfg : ClientConfig) (hostsFile : Text) (eframe : Eframe τ)

structure Refines (p : Process σ τ) (past : List Seen) (b : Batches) : Prop where
  commands : past.filterMap drew? =
    (issued eframe (newApp cfg hostsFile) eframe.start b.frames).map Prod.snd
  window : p.window = (reached eframe (newApp cfg hostsFile) eframe.start b.frames).2
  underway : Underway (reached eframe (newApp cfg hostsFile) eframe.start b.frames).1 b
    p.app p.drawing
  client : (b.frames.flatMap Frame.client ++ b.client).map Prod.snd ++ p.clientRx = p.client.events
  menu : b.frames.flatMap Frame.menu ++ b.menu ++ p.menuRx = past.filterMap picked?

end Refinement

section Steps
variable {σ τ : Type*} {cfg : ClientConfig} {hostsFile : Text} {json : SerdeJson}
variable {update : σ → Text → Text → σ × Except Text Unit} {eframe : Eframe τ}
variable {p p' : Process σ τ} {past : List Seen}

theorem refines_start (hosts : σ) :
    Refines cfg hostsFile eframe (start cfg hostsFile eframe hosts) [] ⟨[], [], []⟩ := by
  constructor
  · rfl
  · rfl
  · exact ⟨rfl, rfl, rfl⟩
  · rfl
  · rfl

theorem events_grow {c c' : Client σ} {a : ClientLoop.Action}
    (h : ClientLoop.step cfg json update c a = some c') : c.events <+: c'.events := by
  obtain ⟨new, hevents, -⟩ := ClientLoop.tells_of_step h
  exact ⟨new, hevents.symm⟩

/-- The end of a frame, with the batches its drains have taken. -/
theorem Refines.finish {b : Batches} (h : Refines cfg hostsFile eframe p past b)
    {windowClose : Bool} {last : Option MenuAction}
    (hdrawing : p.drawing = .drainingMenu windowClose last) :
    let r := finish eframe p.window windowClose last
    Refines cfg hostsFile eframe
      { p with window := eframe.next p.window windowClose r.2, drawing := .waiting }
      (past ++ [.drew r.1 r.2]) ⟨b.frames ++ [⟨b.menu, b.client, windowClose⟩], [], []⟩ := by
  have hunderway := h.underway
  rw [hdrawing] at hunderway
  obtain ⟨hclientState, htray⟩ := hunderway
  have happ : DesktopApp.update (reached eframe (newApp cfg hostsFile) eframe.start b.frames).1
      ⟨b.menu, b.client, windowClose⟩
      (eframe.closeRequested (reached eframe (newApp cfg hostsFile) eframe.start b.frames).2
        windowClose) = (p.app, (DesktopProcess.finish eframe p.window windowClose last).2) := by
    rw [← h.window]
    dsimp only [DesktopApp.update, drainClient, Tray.drainMenuEvents]
    rw [htray, ← hclientState]
    rfl
  constructor
  · rw [List.filterMap_append, h.commands, issued_concat, List.map_append]
    dsimp only
    rw [happ]
    rfl
  · rw [reached_concat]
    dsimp only
    rw [happ, ← h.window]
  · rw [reached_concat]
    dsimp only
    rw [happ]
    exact ⟨rfl, rfl, rfl⟩
  · rw [← h.client]
    simp
  · rw [List.filterMap_append, ← h.menu]
    simp [picked?]

theorem refines_step (p : Process σ τ) (a : Action) (p' : Process σ τ) (past : List Seen)
    (h : ∃ b, Refines cfg hostsFile eframe p past b)
    (hstep : step cfg json update eframe p a = some p') :
    ∃ b, Refines cfg hostsFile eframe p' (past ++ seen eframe p a p') b := by
  obtain ⟨b, h⟩ := h
  have hunderway := h.underway
  cases a with
  | client a =>
      obtain ⟨c, hc, rfl⟩ := Option.map_eq_some_iff.mp hstep
      rw [seen, List.append_nil]
      refine ⟨b, h.commands, h.window, h.underway, ?_, h.menu⟩
      dsimp only
      rw [← List.append_assoc, h.client, append_appended (events_grow hc)]
  | pick id =>
      cases hstep
      refine ⟨b, ?_, h.window, h.underway, h.client, ?_⟩
      · rw [List.filterMap_append, h.commands]
        exact List.append_nil _
      · rw [List.filterMap_append, ← h.menu, ← List.append_assoc]
        rfl
  | update windowClose =>
      dsimp only [step] at hstep
      split at hstep
      · rename_i hdrawing
        cases hstep
        rw [hdrawing] at hunderway
        obtain ⟨happ, hclient, hmenu⟩ := hunderway
        rw [seen, List.append_nil]
        refine ⟨b, h.commands, h.window, ⟨?_, hmenu⟩, h.client, h.menu⟩
        dsimp only
        rw [hclient, happ]
        rfl
      · cases hstep
      · cases hstep
  | receiveClient now =>
      rw [seen, List.append_nil]
      dsimp only [step] at hstep
      split at hstep
      · rename_i windowClose ev clientRx hdrawing hpending
        cases hstep
        rw [hdrawing] at hunderway
        obtain ⟨happ, hmenu⟩ := hunderway
        refine ⟨⟨b.frames, b.client ++ [(now, ev)], b.menu⟩, h.commands, h.window, ?_, ?_, h.menu⟩
        · rw [hdrawing]
          refine ⟨?_, hmenu⟩
          rw [ClientState.applyAll_concat, happ]
        · rw [← h.client, hpending]
          simp
      · rename_i windowClose hdrawing hempty
        cases hstep
        rw [hdrawing] at hunderway
        obtain ⟨happ, hmenu⟩ := hunderway
        refine ⟨b, h.commands, h.window, ⟨?_, ?_⟩, h.client, h.menu⟩
        · exact congrArg App.clientState happ
        · rw [hmenu, happ]
          rfl
      · cases hstep
      · cases hstep
  | receiveMenu =>
      dsimp only [step] at hstep
      split at hstep
      · rename_i windowClose last id menuRx hdrawing hpending
        cases hstep
        rw [hdrawing] at hunderway
        obtain ⟨hclientState, htray⟩ := hunderway
        simp only [seen, hdrawing, hpending, List.append_nil]
        refine ⟨⟨b.frames, b.client, b.menu ++ [id]⟩, h.commands, h.window, ⟨hclientState, ?_⟩,
          h.client, ?_⟩
        · rw [drain_append, htray]
        · rw [← h.menu, hpending]
          simp
      · rename_i windowClose last hdrawing hempty
        cases hstep
        have hseen : ∀ p', seen eframe p .receiveMenu p' =
            let r := finish eframe p.window windowClose last
            [.drew r.1 r.2] := by
          intro p'
          simp only [seen, hdrawing, hempty]
        rw [hseen]
        exact ⟨_, h.finish hdrawing⟩
      · cases hstep
      · cases hstep

/-- Whatever requests closing, the frame cancels it. -/
def Cancelled (past : List Seen) : Prop :=
  ∀ requested commands, .drew requested commands ∈ past →
    (requested = true ↔ .cancelClose ∈ commands)

theorem cancelled_step (p : Process σ τ) (a : Action) (p' : Process σ τ) (past : List Seen)
    (h : Cancelled past) (_ : step cfg json update eframe p a = some p') :
    Cancelled (past ++ seen eframe p a p') := by
  intro requested commands hmem
  cases List.mem_append.mp hmem with
  | inl hpast => exact h requested commands hpast
  | inr hnew =>
      unfold seen at hnew
      split at hnew
      · simp at hnew
      · split at hnew
        · rename_i windowClose last _ _
          obtain ⟨rfl, rfl⟩ := Seen.drew.inj (List.mem_singleton.mp hnew)
          have hmenu : .cancelClose ∉ handleMenu last := by
            rcases last with _ | _ | _ | _ <;> simp [handleMenu]
          dsimp only [DesktopProcess.finish]
          rw [List.mem_append, or_iff_right hmenu]
          cases eframe.closeRequested p.window windowClose <;> simp
        all_goals cases hnew
      all_goals cases hnew

end Steps

/-- Every run of the process issues the commands of whole frames. The batches of the frames
are, in order and with nothing lost or doubled, what the client has sent and the user has
picked, but for what is pending. So Quit quits only where whole frames let it; and
closing is never requested without being cancelled, so the window is never closed. -/
theorem process_refines_frames {σ τ : Type*} (cfg : ClientConfig) (hostsFile : Text)
    (json : SerdeJson) (update : σ → Text → Text → σ × Except Text Unit) (eframe : Eframe τ)
    (heframe : eframe.Documented) (hosts : σ) (actions : List Action) (p : Process σ τ)
    (h : run (step cfg json update eframe) (start cfg hostsFile eframe hosts) actions = some p) :
    let past := observe (step cfg json update eframe) (seen eframe)
      (start cfg hostsFile eframe hosts) actions
    ∃ b, Refines cfg hostsFile eframe p past b ∧
      (QuitQuits (issued eframe (newApp cfg hostsFile) eframe.start b.frames) ↔
        QuitInLastFrame b.frames) ∧ Cancelled past := by
  have hstart : ∃ b, Refines cfg hostsFile eframe (start cfg hostsFile eframe hosts) [] b :=
    ⟨_, refines_start hosts⟩
  obtain ⟨b, hrefines⟩ := invariant_observe (b := []) refines_step hstart h
  refine ⟨b, hrefines, quitQuits_issued_iff heframe heframe.fresh _ _, ?_⟩
  apply invariant_observe (b := []) cancelled_step _ h
  rintro _ _ ⟨⟩

/-- Show and Quit are picked around the moment the client's channel is found empty; the
next frame takes nothing. -/
def quitWhileDraining : List Action :=
  [.client .connected, .pick menuShow, .update false, .receiveClient [], .client (.line (.error .io)),
    .receiveClient [], .receiveClient [], .receiveClient [], .receiveClient [], .receiveMenu,
    .pick menuQuit, .receiveMenu, .receiveMenu, .update false, .receiveClient [], .receiveMenu]

/-- The frame issues the close, the next one cancels it. -/
theorem quitWhileDraining_cancelled : ∃ p, ∃ b : Batches,
    run (step ClientLoop.nasClient MessageText.compactJson ClientLoop.deniedSometimes oneWindow)
        (start ClientLoop.nasClient [] oneWindow 0) quitWhileDraining = some p ∧
      p.clientRx = [] ∧ p.menuRx = [] ∧
      b.frames.flatMap Frame.menu ++ b.menu = [menuShow, menuQuit] ∧
      (issued oneWindow (newApp ClientLoop.nasClient []) oneWindow.start b.frames).map Prod.snd =
        [[.close], [.cancelClose, .visible false]] := by
  have hrun : ∃ p,
      run (step ClientLoop.nasClient MessageText.compactJson ClientLoop.deniedSometimes oneWindow)
        (start ClientLoop.nasClient [] oneWindow 0) quitWhileDraining = some p ∧
      p.clientRx = [] ∧ p.menuRx = [] := by decide +kernel
  obtain ⟨p, hp, hclient, hmenu⟩ := hrun
  obtain ⟨b, hrefines, -, -⟩ := process_refines_frames ClientLoop.nasClient []
    MessageText.compactJson ClientLoop.deniedSometimes oneWindow oneWindow_documented 0
    quitWhileDraining p hp
  refine ⟨p, b, hp, hclient, hmenu, ?_, ?_⟩
  · have hpicked := hrefines.menu
    rw [hmenu, List.append_nil] at hpicked
    rw [hpicked]
    decide +kernel
  · rw [← hrefines.commands]
    decide +kernel

end DnslessHomelab.DesktopProcess
