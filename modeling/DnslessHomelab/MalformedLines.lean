import DnslessHomelab.ClientStream
import DnslessHomelab.MessageText

/-!
# What the lines of one connection do

Every newline-terminated line should have an effect of its own: the one of its
message, or one parse error; what stands behind the last newline is no such line and
should give one parse error. A line that is not UTF-8 never reaches the parser. The
iterator reports it on the channel of read errors, which the loop takes for the end of
the connection, so the later lines of that connection are lost. And the iterator hands
out an unterminated last line like any other, unless a read error comes in its place.
-/
namespace DnslessHomelab.MalformedLines
open Protocol LineText ClientStream
open Utf8 (newline)

section Effect
variable {σ : Type*} (json : SerdeJson) (update : σ → Text → Text → σ × Except Text Unit)

/-- The message a line is the JSON text of; a carriage return before the newline
belongs to the line end. -/
def message (line : Bytes) : Option Message :=
  (Utf8.decode line).bind fun text => (json.fromStr (chompCr text)).toOption

/-- What one terminated line should do. -/
inductive LineEffect (line : Bytes) (s : σ) : σ → List ClientEvent → Prop
  | updated (u : IpUpdate) (h : message json line = some (.ipUpdate u))
      (hupdate : (update s u.hostname u.ip).2 = .ok ()) :
      LineEffect line s (update s u.hostname u.ip).1
        [.ipUpdateReceived u.hostname u.ip, .hostsFileUpdated u.hostname u.ip]
  | updateFailed (u : IpUpdate) (e : Text) (h : message json line = some (.ipUpdate u))
      (hupdate : (update s u.hostname u.ip).2 = .error e) :
      LineEffect line s (update s u.hostname u.ip).1
        [.ipUpdateReceived u.hostname u.ip, .hostsFileError u.hostname u.ip e]
  | heartbeat (h : message json line = some .heartbeat) :
      LineEffect line s s [.heartbeatReceived]
  | other (raw error : Text) (h : message json line = none) :
      LineEffect line s s [.parseError raw error]

/-- The lines in order, each once. -/
inductive LinesEffect : List Bytes → σ → σ → List ClientEvent → Prop
  | nil (s : σ) : LinesEffect [] s s []
  | cons {line : Bytes} {lines : List Bytes} {s t u : σ} {es fs : List ClientEvent} :
      LineEffect json update line s t es → LinesEffect lines t u fs →
      LinesEffect (line :: lines) s u (es ++ fs)

/-- What the octets behind the last newline should do, if there are any. -/
inductive RestEffect : Bytes → List ClientEvent → Prop
  | none : RestEffect [] []
  | some {rest : Bytes} (raw error : Text) (h : rest ≠ []) :
      RestEffect rest [.parseError raw error]

/-- What the end of the connection tells by itself. -/
def ended (serverAddr : Text) : ReadEnd → List ClientEvent
  | .endOfStream => []
  | .readError => [.connectionLost serverAddr]

/-- The lines have their effects, and nothing else happens. -/
def LinesTakeEffect (serverAddr : Text) (s : σ) (bytes : Bytes) (fin : ReadEnd) : Prop :=
  ∃ t events last, LinesEffect json update (cut newline bytes).1 s t events ∧
    RestEffect (cut newline bytes).2 last ∧
    handleStream json update serverAddr s (readLines bytes fin) =
      (t, events ++ (last ++ ended serverAddr fin))

/-- The octets behind the last newline are a text that is no message, at the end of the
stream. -/
def NoMessage (rest : Bytes) (fin : ReadEnd) : Prop :=
  fin = .endOfStream ∧ ∃ text error, Utf8.decode rest = some text ∧
    json.fromStr text = .error error

theorem message_eq_of_ok {line : Bytes} {raw : Text} (h : terminatedLine line = .ok raw) :
    message json line = (json.fromStr raw).toOption := by
  unfold terminatedLine decodeLine at h
  unfold message
  cases hd : Utf8.decode line with
  | none => simp [hd, Except.map] at h
  | some text =>
      simp only [hd, Except.map, Except.ok.injEq] at h
      simp [h]

theorem message_eq_none {line : Bytes} {e : ReadError} (h : terminatedLine line = .error e) :
    message json line = none := by
  unfold terminatedLine decodeLine at h
  unfold message
  cases hd : Utf8.decode line with
  | none => rfl
  | some text => simp [hd, Except.map] at h

/-- A line that reaches the parser has its effect. -/
theorem lineEffect_handleLine {line : Bytes} {raw : Text} (h : terminatedLine line = .ok raw)
    (s : σ) : LineEffect json update line s (handleLine json update s raw).1
      (handleLine json update s raw).2 := by
  have hmessage := message_eq_of_ok json h
  unfold handleLine
  cases hraw : json.fromStr raw with
  | error e =>
      rw [hraw] at hmessage
      exact .other raw e hmessage
  | ok msg =>
      rw [hraw] at hmessage
      cases msg with
      | heartbeat => exact .heartbeat hmessage
      | ipUpdate u =>
          simp only [handleMessage]
          cases hr : (update s u.hostname u.ip).2 with
          | error e => exact .updateFailed u e hmessage hr
          | ok _ => exact .updated u hmessage hr

variable {json update}

/-- State and number of events of a line's effect are determined. -/
theorem LineEffect.unique {line : Bytes} {raw : Text} (h : terminatedLine line = .ok raw)
    {s t : σ} {es : List ClientEvent} (hline : LineEffect json update line s t es) :
    t = (handleLine json update s raw).1 ∧
      es.length = (handleLine json update s raw).2.length := by
  have hcode := lineEffect_handleLine json update h s
  generalize handleLine json update s raw = r at hcode
  obtain ⟨t', es'⟩ := r
  cases hline <;> cases hcode <;> simp_all

variable (json update) in
/-- Lines that are UTF-8 have their effects, and no others. -/
theorem linesEffect_of_valid {lines : List Bytes} (h : ∀ l ∈ lines, (Utf8.decode l).isSome)
    (s : σ) : ∃ raws : List Text, lines.map terminatedLine = raws.map .ok ∧
      LinesEffect json update lines s (handleLines json update s raws).1
        (handleLines json update s raws).2 ∧
      ∀ t es, LinesEffect json update lines s t es →
        t = (handleLines json update s raws).1 ∧
          es.length = (handleLines json update s raws).2.length := by
  induction lines generalizing s with
  | nil =>
      refine ⟨[], rfl, .nil s, ?_⟩
      intro t es hes
      cases hes
      exact ⟨rfl, rfl⟩
  | cons line lines ih =>
      obtain ⟨raw, hraw⟩ := terminatedLine_eq_ok_iff.mpr (h line (List.mem_cons_self ..))
      obtain ⟨raws, hraws, heffect, hunique⟩ := ih (fun l hl => h l (List.mem_cons_of_mem _ hl))
        (handleLine json update s raw).1
      refine ⟨raw :: raws, by simp [hraw, hraws], ?_, ?_⟩
      · exact .cons (lineEffect_handleLine json update hraw s) heffect
      · intro t es hes
        cases hes with
        | cons hline hlines =>
            obtain ⟨rfl, hfirst⟩ := hline.unique hraw
            obtain ⟨rfl, hlater⟩ := hunique _ _ hlines
            exact ⟨rfl, by simp [handleLines, hfirst, hlater]⟩

/-- The first line that is not UTF-8 takes the events of all later ones with it. -/
theorem valid_of_linesEffect {lines : List Bytes} {items : List Item} {addr : Text}
    {s t : σ} {events rest : List ClientEvent} (h : LinesEffect json update lines s t events)
    (hstream : (handleStream json update addr s (lines.map terminatedLine ++ items)).2 =
      events ++ rest) : ∀ l ∈ lines, (Utf8.decode l).isSome := by
  induction h with
  | nil => simp
  | @cons line lines s t u es fs hline _ ih =>
      cases hitem : terminatedLine line with
      | error e =>
          have hnone := message_eq_none json hitem
          rw [List.map_cons, hitem] at hstream
          cases hline with
          | other raw error _ => simp [handleStream] at hstream
          | updated u h _ => simp [hnone] at h
          | updateFailed u e h _ => simp [hnone] at h
          | heartbeat h => simp [hnone] at h
      | ok raw =>
          obtain ⟨rfl, hlength⟩ := hline.unique hitem
          rw [List.map_cons, hitem, List.cons_append, List.append_assoc] at hstream
          have htail := (List.append_inj hstream hlength.symm).2
          intro l hl
          cases List.mem_cons.mp hl with
          | inl h => exact h ▸ terminatedLine_eq_ok_iff.mp ⟨raw, hitem⟩
          | inr h => exact ih htail l h

theorem valid_of_linesTakeEffect {addr : Text} {s : σ} {bytes : Bytes} {fin : ReadEnd}
    (h : LinesTakeEffect json update addr s bytes fin) :
    ∀ l ∈ (cut newline bytes).1, (Utf8.decode l).isSome := by
  obtain ⟨t, events, last, heffect, -, hstream⟩ := h
  exact valid_of_linesEffect heffect (congrArg Prod.snd hstream)

variable (json update) in
/-- The last piece gives one parse error or nothing, apart from the end of the connection,
exactly when it is empty or a text that is no message. -/
theorem restEffect_iff (addr : Text) (s : σ) {rest : Bytes} {fin : ReadEnd} :
    (∃ last, RestEffect rest last ∧ handleStream json update addr s (lastItem rest fin) =
      (s, last ++ ended addr fin)) ↔ rest = [] ∨ NoMessage json rest fin := by
  cases fin with
  | readError =>
      have hstream : handleStream json update addr s (lastItem rest .readError) =
          (s, [.connectionLost addr]) := rfl
      rw [hstream]
      constructor
      · intro h
        obtain ⟨last, hlast, h⟩ := h
        cases hlast with
        | none => exact .inl rfl
        | some raw error _ => simp [ended] at h
      · intro h
        cases h with
        | inl hnil => exact ⟨[], hnil ▸ .none, rfl⟩
        | inr h => cases h.1
  | endOfStream =>
      by_cases hnil : rest = []
      · subst hnil
        exact ⟨fun _ => .inl rfl, fun _ => ⟨[], .none, rfl⟩⟩
      · have hitem : lastItem rest .endOfStream = [decodeLine rest] := if_neg hnil
        rw [hitem, decodeLine]
        simp only [hnil, false_or, NoMessage, true_and, ended, List.append_nil]
        cases hdecode : Utf8.decode rest with
        | none =>
            simp only [handleStream]
            constructor
            · intro h
              obtain ⟨last, hlast, h⟩ := h
              cases hlast with
              | none => exact absurd rfl hnil
              | some raw error _ => simp at h
            · rintro ⟨text, error, htext, -⟩
              cases htext
        | some text =>
            simp only [handleStream, List.append_nil]
            cases hread : json.fromStr text with
            | error e =>
                simp only [handleLine, hread]
                exact ⟨fun _ => ⟨text, e, rfl, hread⟩, fun _ => ⟨_, .some text e hnil, rfl⟩⟩
            | ok msg =>
                constructor
                · intro h
                  obtain ⟨last, hlast, h⟩ := h
                  cases hlast with
                  | none => exact absurd rfl hnil
                  | some raw error _ =>
                      cases msg <;> simp [handleLine, hread, handleMessage] at h
                · rintro ⟨text', error, htext, herror⟩
                  cases htext
                  rw [hread] at herror
                  cases herror

/-- The lines of a connection take effect exactly when each of them is UTF-8 and behind the
last newline there is nothing, or a text that is no message and then the end of the stream. -/
theorem linesTakeEffect_iff (json : SerdeJson)
    (update : σ → Text → Text → σ × Except Text Unit) (serverAddr : Text) (s : σ)
    (bytes : Bytes) (fin : ReadEnd) :
    LinesTakeEffect json update serverAddr s bytes fin ↔
      (∀ l ∈ (cut newline bytes).1, (Utf8.decode l).isSome) ∧
        ((cut newline bytes).2 = [] ∨ NoMessage json (cut newline bytes).2 fin) := by
  have hvalid : (∀ l ∈ (cut newline bytes).1, (Utf8.decode l).isSome) →
      (LinesTakeEffect json update serverAddr s bytes fin ↔
        (cut newline bytes).2 = [] ∨ NoMessage json (cut newline bytes).2 fin) := by
    intro hlines
    obtain ⟨raws, hraws, heffect, hunique⟩ := linesEffect_of_valid json update hlines s
    have hstream : handleStream json update serverAddr s (readLines bytes fin) =
        let front := handleLines json update s raws
        let back := handleStream json update serverAddr front.1 (lastItem (cut newline bytes).2 fin)
        (back.1, front.2 ++ back.2) := by
      rw [readLines, hraws, handleStream_append]
    rw [← restEffect_iff json update serverAddr (handleLines json update s raws).1]
    unfold LinesTakeEffect
    rw [hstream]
    constructor
    · intro h
      obtain ⟨t, events, last, hes, hlast, h⟩ := h
      obtain ⟨rfl, hlength⟩ := hunique t events hes
      obtain ⟨hstate, hevents⟩ := Prod.mk.inj h
      obtain ⟨-, hback⟩ := List.append_inj hevents hlength.symm
      exact ⟨last, hlast, Prod.ext hstate hback⟩
    · intro h
      obtain ⟨last, hlast, h⟩ := h
      refine ⟨_, _, last, heffect, hlast, ?_⟩
      dsimp only
      rw [h]
  constructor
  · intro h
    have hlines := valid_of_linesTakeEffect h
    exact ⟨hlines, (hvalid hlines).mp h⟩
  · intro h
    exact (hvalid h.1).mpr h.2

end Effect

/-- An octet that is not UTF-8 on a line of its own, before a heartbeat. -/
def badThenHeartbeat : Bytes :=
  [255, newline] ++ Utf8.encode (MessageText.printMessage .heartbeat) ++ [newline]

theorem badThenHeartbeat_loses_line :
    ¬ LinesTakeEffect MessageText.compactJson (fun (s : Unit) _ _ => (s, .ok ()))
      "127.0.0.1:5353".toList () badThenHeartbeat .endOfStream := by
  intro h
  have hvalid := valid_of_linesTakeEffect h [255] (by decide +kernel)
  exact absurd hvalid (by decide)

end DnslessHomelab.MalformedLines
