import DnslessHomelab.Broadcast
import DnslessHomelab.ClientStream
import DnslessHomelab.MessageText

/-!
# Framing on the wire

The server writes each message as one printed line. Reading any prefix of that
stream up to its end gives back the messages whose text the prefix contains, and
at most one more item for the line that was torn: a printed object has no control
character that could end the line early, a cut through it is not UTF-8 or not a
JSON text, and a whole text decodes to its message.
-/
namespace DnslessHomelab.WireFraming
open Protocol LineText ClientStream MessageText JsonText
open Broadcast (broadcastLine)
open Utf8 (newline)

section Stream
variable (json : SerdeJson)

/-- Everything written for a list of broadcasts. -/
def broadcastBytes (msgs : List Message) : Bytes :=
  msgs.flatMap fun msg => (broadcastLine json msg).getD []

/-- The octets of a message's JSON text. -/
def jsonBytes (msg : Message) : Bytes :=
  match json.toString msg with
  | .error _ => []
  | .ok text => Utf8.encode text

/-- The messages whose JSON text lies in the first `size` octets of the stream. -/
def whollyIn : List Message → ℕ → List Message
  | [], _ => []
  | msg :: msgs, size =>
      if (jsonBytes json msg).length ≤ size then
        msg :: whollyIn msgs (size - ((jsonBytes json msg).length + 1))
      else []

end Stream

/-- What the loop makes of an item. -/
inductive Yield where
  | message (msg : Message)
  | parseError
  | readError
  deriving DecidableEq, Repr

def yield? : ClientEvent → Option Yield
  | .ipUpdateReceived hostname ip => some (.message (.ipUpdate ⟨hostname, ip⟩))
  | .heartbeatReceived => some (.message .heartbeat)
  | .parseError .. => some .parseError
  | .connectionLost _ => some .readError
  | .connecting _ | .connected _ | .connectionFailed .. | .hostsFileUpdated ..
  | .hostsFileError .. => none

def yields (events : List ClientEvent) : List Yield := events.filterMap yield?

@[simp] theorem yields_append (es fs : List ClientEvent) :
    yields (es ++ fs) = yields es ++ yields fs :=
  List.filterMap_append ..

section Message
variable {json : SerdeJson} (hjson : Documented json) (msg : Message)
include hjson

/-- A message's line: printed text without control characters, then a newline. -/
theorem broadcastLine_eq : ∃ text, json.toString msg = .ok text ∧
    broadcastLine json msg = some (Utf8.encode text ++ [newline]) ∧
    jsonBytes json msg = Utf8.encode text ∧ '\n' ∉ text ∧ chompCr text = text ∧
    IsObject text := by
  obtain ⟨text, htext, hobject, hprintable⟩ := hjson.printed msg
  have hline : broadcastLine json msg = some (Utf8.encode text ++ [newline]) := by
    unfold broadcastLine
    rw [htext, ← encode_newline, ← Utf8.encode_append]
  refine ⟨text, htext, hline, ?_, ?_, ?_, hobject⟩
  · simp [jsonBytes, htext]
  · exact fun h => absurd (hprintable _ h) (by decide)
  · unfold chompCr
    rw [if_neg]
    exact fun h => absurd (hprintable _ (List.mem_of_getLast? h)) (by decide)

theorem jsonBytes_ne_nil : jsonBytes json msg ≠ [] := by
  obtain ⟨text, -, -, hbytes, -, -, s, -, rfl⟩ := broadcastLine_eq hjson msg
  rw [hbytes, Ne, Utf8.encode_eq_nil]
  exact List.cons_ne_nil _ _

theorem newline_not_mem_jsonBytes : newline ∉ jsonBytes json msg := by
  obtain ⟨text, -, -, hbytes, hnewline, -⟩ := broadcastLine_eq hjson msg
  rw [hbytes]
  exact newline_not_mem_encode hnewline

theorem broadcastLine_eq_jsonBytes :
    broadcastLine json msg = some (jsonBytes json msg ++ [newline]) := by
  obtain ⟨text, -, hline, hbytes, -⟩ := broadcastLine_eq hjson msg
  rw [hline, hbytes]

/-- The line iterator gives the printed text back. -/
theorem terminatedLine_jsonBytes : ∃ text, json.toString msg = .ok text ∧
    terminatedLine (jsonBytes json msg) = .ok text := by
  obtain ⟨text, htext, -, hbytes, -, hchomp, -⟩ := broadcastLine_eq hjson msg
  refine ⟨text, htext, ?_⟩
  rw [hbytes]
  simp [terminatedLine, decodeLine, Except.map, hchomp]

/-- A message's line comes first and leaves the rest as it is. -/
theorem readLines_line (rest : Bytes) (fin : ReadEnd) : ∃ text, json.toString msg = .ok text ∧
    readLines (jsonBytes json msg ++ newline :: rest) fin = .ok text :: readLines rest fin := by
  obtain ⟨text, htext, hline⟩ := terminatedLine_jsonBytes hjson msg
  refine ⟨text, htext, ?_⟩
  unfold readLines
  rw [cut_line (newline_not_mem_jsonBytes hjson msg)]
  simp [hline]

/-- Octets of one message's text, unterminated. -/
theorem readLines_torn {q : Bytes} (hq : q <+: jsonBytes json msg) (fin : ReadEnd) :
    readLines q fin = lastItem q fin := by
  have hmem : newline ∉ q := fun h => newline_not_mem_jsonBytes hjson msg (hq.subset h)
  simp [readLines, cut_remainder hmem]

theorem broadcastBytes_cons (msgs : List Message) :
    broadcastBytes json (msg :: msgs) =
      jsonBytes json msg ++ newline :: broadcastBytes json msgs := by
  simp [broadcastBytes, broadcastLine_eq_jsonBytes hjson msg]

omit msg in
theorem whollyIn_zero (msgs : List Message) : whollyIn json msgs 0 = [] := by
  cases msgs with
  | nil => rfl
  | cons msg msgs =>
      have hpos := List.length_pos_iff.mpr (jsonBytes_ne_nil hjson msg)
      rw [whollyIn, if_neg (by omega)]

end Message

section Loop
variable {σ : Type*} {json : SerdeJson} (hjson : Documented json)
variable (update : σ → Text → Text → σ × Except Text Unit) (addr : Text)

theorem yields_handleMessage (s : σ) (msg : Message) :
    yields (handleMessage update s msg).2 = [.message msg] := by
  cases msg with
  | heartbeat => rfl
  | ipUpdate u =>
      unfold handleMessage
      cases hr : (update s u.hostname u.ip).2 <;> simp [hr, yields, yield?]

include hjson

theorem yields_handleStream_message {msg : Message} {text : Text}
    (h : json.toString msg = .ok text) (s : σ) (items : List Item) :
    yields (handleStream json update addr s (.ok text :: items)).2 =
      .message msg ::
        yields (handleStream json update addr (handleMessage update s msg).1 items).2 := by
  simp [handleStream, handleLine, hjson.readsBack msg text h, yields_handleMessage]

/-- A cut through a message's text gives no message. -/
theorem yields_torn {msg : Message} {q : Bytes} (hq : q <+: jsonBytes json msg)
    (hne : q ≠ jsonBytes json msg) (s : σ) :
    let torn := yields (handleStream json update addr s (readLines q .endOfStream)).2
    torn.length ≤ 1 ∧ ∀ y ∈ torn, y = .parseError ∨ y = .readError := by
  obtain ⟨text, -, -, hbytes, -, -, hobject⟩ := broadcastLine_eq hjson msg
  rw [readLines_torn hjson msg hq]
  simp only [lastItem]
  split_ifs with hnil
  · simp [handleStream, yields]
  · unfold decodeLine
    cases hdecode : Utf8.decode q with
    | none => simp [handleStream, yields, yield?]
    | some u =>
        rw [Utf8.decode_eq_some_iff] at hdecode
        rw [hdecode, hbytes] at hq hne
        have hprefix := Utf8.prefix_of_encode_prefix hq
        have hu : u ≠ text := fun h => hne (congrArg _ h)
        have herror : ∃ e, json.fromStr u = .error e := by
          cases hread : json.fromStr u with
          | error e => exact ⟨e, rfl⟩
          | ok m =>
              exact absurd (hjson.oneValue u m hread) (not_isText_of_cut hobject hprefix hu)
        obtain ⟨e, he⟩ := herror
        simp [handleStream, handleLine, he, yields, yield?]

/-- A message's text that lost only its newline is a whole message. -/
theorem yields_unterminated (msg : Message) (s : σ) :
    yields (handleStream json update addr s (readLines (jsonBytes json msg) .endOfStream)).2 =
      [.message msg] := by
  obtain ⟨text, htext, -, hbytes, -⟩ := broadcastLine_eq hjson msg
  rw [readLines_torn hjson msg (List.prefix_refl _)]
  simp only [lastItem, if_neg (jsonBytes_ne_nil hjson msg)]
  rw [hbytes, decodeLine, Utf8.decode_encode, yields_handleStream_message hjson update addr htext]
  rfl

end Loop

section Prefix
variable {σ : Type*} {json : SerdeJson} (hjson : Documented json)
variable (update : σ → Text → Text → σ × Except Text Unit) (addr : Text)
include hjson

theorem yields_of_prefix (s : σ) (msgs : List Message) (p : Bytes)
    (hp : p <+: broadcastBytes json msgs) :
    ∃ torn, yields (handleStream json update addr s (readLines p .endOfStream)).2 =
        (whollyIn json msgs p.length).map .message ++ torn ∧
      torn.length ≤ 1 ∧ ∀ y ∈ torn, y = .parseError ∨ y = .readError := by
  induction msgs generalizing p s with
  | nil =>
      rw [List.prefix_nil.mp hp]
      exact ⟨[], rfl, by simp⟩
  | cons msg msgs ih =>
      rw [broadcastBytes_cons hjson msg] at hp
      cases List.prefix_or_prefix_of_prefix hp (List.prefix_append _ _) with
      | inl h =>
          by_cases heq : p = jsonBytes json msg
          · refine ⟨[], ?_, by simp⟩
            rw [heq, yields_unterminated hjson, whollyIn, if_pos (Nat.le_refl _),
              Nat.sub_eq_zero_of_le (Nat.le_succ _), whollyIn_zero hjson]
            rfl
          · have hlt : p.length < (jsonBytes json msg).length := by
              apply Nat.lt_of_le_of_ne h.length_le
              exact fun hl => heq (h.eq_of_length hl)
            refine ⟨_, ?_, yields_torn hjson update addr h heq s⟩
            rw [whollyIn, if_neg (Nat.not_le.mpr hlt)]
            rfl
      | inr h =>
          obtain ⟨r, rfl⟩ := h
          rw [List.prefix_append_right_inj] at hp
          cases r with
          | nil =>
              refine ⟨[], ?_, by simp⟩
              rw [List.append_nil, yields_unterminated hjson, whollyIn, if_pos (Nat.le_refl _),
                Nat.sub_eq_zero_of_le (Nat.le_succ _), whollyIn_zero hjson]
              rfl
          | cons b r =>
              obtain ⟨rfl, hr⟩ := List.cons_prefix_cons.mp hp
              obtain ⟨text, htext, hitems⟩ := readLines_line hjson msg r .endOfStream
              obtain ⟨torn, hyields, htorn⟩ := ih (handleMessage update s msg).1 r hr
              refine ⟨torn, ?_, htorn⟩
              have hsize : (jsonBytes json msg ++ newline :: r).length -
                  ((jsonBytes json msg).length + 1) = r.length := by
                simp only [List.length_append, List.length_cons]
                omega
              rw [hitems, yields_handleStream_message hjson update addr htext, hyields, whollyIn,
                if_pos (by simp), hsize]
              rfl

/-- The whole stream decodes to the whole list. -/
theorem yields_broadcastBytes (s : σ) (msgs : List Message) :
    yields (handleStream json update addr s
      (readLines (broadcastBytes json msgs) .endOfStream)).2 = msgs.map .message := by
  induction msgs generalizing s with
  | nil => rfl
  | cons msg msgs ih =>
      obtain ⟨text, htext, hitems⟩ :=
        readLines_line hjson msg (broadcastBytes json msgs) .endOfStream
      rw [broadcastBytes_cons hjson msg, hitems,
        yields_handleStream_message hjson update addr htext, ih]
      rfl

end Prefix

/-- The loop decodes exactly the messages that lie wholly in what was read, then at
most one failure; all that was written decodes to all that was sent. -/
theorem decoded_of_cut {σ : Type*} (json : SerdeJson) (hjson : Documented json)
    (update : σ → Text → Text → σ × Except Text Unit) (addr : Text) (s : σ)
    (msgs : List Message) (p : Bytes) (hp : p <+: broadcastBytes json msgs) :
    (∃ torn, yields (handleStream json update addr s (readLines p .endOfStream)).2 =
        (whollyIn json msgs p.length).map .message ++ torn ∧
      torn.length ≤ 1 ∧ ∀ y ∈ torn, y = .parseError ∨ y = .readError) ∧
    (p = broadcastBytes json msgs →
      yields (handleStream json update addr s (readLines p .endOfStream)).2 =
        msgs.map .message) := by
  constructor
  · exact yields_of_prefix hjson update addr s msgs p hp
  · intro heq
    subst heq
    exact yields_broadcastBytes hjson update addr s msgs

/-- A hostname with a quote, a newline and a character of two octets. -/
def oddName : IpUpdate := ⟨"n\"\né".toList, "10.0.0.1".toList⟩

/-- The stream of three messages, cut inside that character of the second one. -/
def tornStream : Bytes :=
  (broadcastBytes compactJson [.heartbeat, .ipUpdate oddName, .heartbeat]).take 59

theorem tornStream_decoded :
    ∃ torn, yields (handleStream compactJson (fun (s : Unit) _ _ => (s, .ok ())) [] ()
        (readLines tornStream .endOfStream)).2 = [.message .heartbeat] ++ torn ∧
      torn.length ≤ 1 ∧ ∀ y ∈ torn, y = .parseError ∨ y = .readError := by
  have hwholly : whollyIn compactJson [.heartbeat, .ipUpdate oddName, .heartbeat]
      tornStream.length = [.heartbeat] := by decide +kernel
  have h := (decoded_of_cut compactJson documented_compactJson
    (fun (s : Unit) _ _ => (s, .ok ())) [] () [.heartbeat, .ipUpdate oddName, .heartbeat]
    tornStream (List.take_prefix _ _)).1
  rw [hwholly] at h
  exact h

end DnslessHomelab.WireFraming
