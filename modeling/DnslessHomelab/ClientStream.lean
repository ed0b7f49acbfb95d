import DnslessHomelab.LineText
import DnslessHomelab.Protocol
import DnslessHomelab.Utf8

/-!
# The client's connection loop

One connection delivers octets and then ends, at end of stream or with a read
error. The line iterator splits them at newlines, drops a carriage return before
a newline, and reports a line that is not UTF-8 as an error of its own; the last
line may be unterminated. `handleStream` consumes its items one by one.

The hosts-file update is a parameter acting on a state, so that the loop can be
read with any outcome of it. Log lines are left out.
-/
namespace DnslessHomelab.ClientStream
open Protocol LineText
open Utf8 (newline)

inductive ReadError where
  | invalidUtf8
  | io
  deriving DecidableEq, Repr

/-- How a connection's octets come to an end. -/
inductive ReadEnd where
  | endOfStream
  | readError
  deriving DecidableEq, Repr

abbrev Item := Except ReadError Text

/-- The octet of a newline. -/
def chompCr (text : Text) : Text :=
  if text.getLast? = some '\r' then text.dropLast else text

def decodeLine (bytes : Bytes) : Item :=
  match Utf8.decode bytes with
  | none => .error .invalidUtf8
  | some text => .ok text

def terminatedLine (bytes : Bytes) : Item := (decodeLine bytes).map chompCr

/-- What the iterator makes of the octets after the last newline. -/
def lastItem (rest : Bytes) : ReadEnd → List Item
  | .readError => [.error .io]
  | .endOfStream => if rest = [] then [] else [decodeLine rest]

/-- All items of the line iterator. -/
def readLines (bytes : Bytes) (fin : ReadEnd) : List Item :=
  (cut newline bytes).1.map terminatedLine ++ lastItem (cut newline bytes).2 fin

structure ClientConfig where
  serverHost : Text
  serverPort : UInt16

def ClientConfig.serverAddr (cfg : ClientConfig) : Text :=
  cfg.serverHost ++ ':' :: decimal cfg.serverPort.toNat

section Loop
variable {σ : Type*} (json : SerdeJson) (update : σ → Text → Text → σ × Except Text Unit)

/-- A decoded message and its effect. -/
def handleMessage (s : σ) : Message → σ × List ClientEvent
  | .ipUpdate u =>
      let r := update s u.hostname u.ip
      (r.1, [.ipUpdateReceived u.hostname u.ip,
        match r.2 with
        | .error e => .hostsFileError u.hostname u.ip e
        | .ok _ => .hostsFileUpdated u.hostname u.ip])
  | .heartbeat => (s, [.heartbeatReceived])

def handleLine (s : σ) (raw : Text) : σ × List ClientEvent :=
  match json.fromStr raw with
  | .error e => (s, [.parseError raw e])
  | .ok msg => handleMessage update s msg

/-- The body of the connection: a read error ends it, a parse error does not. -/
def handleStream (serverAddr : Text) (s : σ) : List Item → σ × List ClientEvent
  | [] => (s, [])
  | .error _ :: _ => (s, [.connectionLost serverAddr])
  | .ok raw :: items =>
      let line := handleLine json update s raw
      let rest := handleStream serverAddr line.1 items
      (rest.1, line.2 ++ rest.2)

/-- Lines that all arrive intact. -/
def handleLines (s : σ) : List Text → σ × List ClientEvent
  | [] => (s, [])
  | raw :: raws =>
      let line := handleLine json update s raw
      let rest := handleLines line.1 raws
      (rest.1, line.2 ++ rest.2)

theorem handleStream_append (serverAddr : Text) (s : σ) (raws : List Text) (items : List Item) :
    handleStream json update serverAddr s (raws.map .ok ++ items) =
      let front := handleLines json update s raws
      let back := handleStream json update serverAddr front.1 items
      (back.1, front.2 ++ back.2) := by
  induction raws generalizing s with
  | nil => rfl
  | cons raw raws ih =>
      simp only [List.map_cons, List.cons_append, handleStream, handleLines, ih,
        List.append_assoc]

/-- One round of the reconnect loop. -/
inductive Attempt where
  | refused (error : Text)
  | established (bytes : Bytes) (fin : ReadEnd)

def runAttempt (cfg : ClientConfig) (s : σ) : Attempt → σ × List ClientEvent
  | .refused e => (s, [.connecting cfg.serverAddr, .connectionFailed cfg.serverAddr e])
  | .established bytes fin =>
      let r := handleStream json update cfg.serverAddr s (readLines bytes fin)
      (r.1, .connecting cfg.serverAddr :: .connected cfg.serverAddr ::
        (r.2 ++ [.connectionLost cfg.serverAddr]))

def runWithEvents (cfg : ClientConfig) (s : σ) : List Attempt → σ × List ClientEvent
  | [] => (s, [])
  | attempt :: attempts =>
      let r := runAttempt json update cfg s attempt
      let rest := runWithEvents cfg r.1 attempts
      (rest.1, r.2 ++ rest.2)

end Loop

/-! ### Splitting octets and splitting text -/

theorem encode_newline : Utf8.encode ['\n'] = [newline] := by decide

theorem encode_unlines (ts : List Text) :
    Utf8.encode (unlines '\n' ts) = unlines newline (ts.map Utf8.encode) := by
  induction ts with
  | nil => rfl
  | cons t ts ih =>
      rw [unlines_cons, ← List.singleton_append, Utf8.encode_append, Utf8.encode_append,
        encode_newline, ih]
      simp

theorem newline_not_mem_encode {t : Text} (h : '\n' ∉ t) : newline ∉ Utf8.encode t :=
  fun hm => h (Utf8.newline_mem_encode.mp hm)

/-- Newline octets are newline characters, so that both splits agree. -/
theorem cut_encode (t : Text) :
    cut newline (Utf8.encode t) =
      ((cut '\n' t).1.map Utf8.encode, Utf8.encode (cut '\n' t).2) := by
  obtain ⟨ht, hlines, hrest⟩ := cut_spec '\n' t
  have hbytes : ∀ l ∈ (cut '\n' t).1.map Utf8.encode, newline ∉ l := by
    intro l hl
    obtain ⟨k, hk, rfl⟩ := List.mem_map.mp hl
    exact newline_not_mem_encode (hlines k hk)
  conv_lhs => rw [← ht, Utf8.encode_append, encode_unlines, cut_unlines hbytes,
    cut_remainder (newline_not_mem_encode hrest)]
  simp

theorem decode_isSome_iff {bytes : Bytes} :
    (Utf8.decode bytes).isSome ↔ ∃ text, bytes = Utf8.encode text := by
  rw [Option.isSome_iff_exists]
  exact exists_congr fun text => Utf8.decode_eq_some_iff

/-- Octets are valid UTF-8 when each of their lines is. -/
theorem decode_isSome_iff_cut {bytes : Bytes} :
    (Utf8.decode bytes).isSome ↔ (∀ l ∈ (cut newline bytes).1, (Utf8.decode l).isSome) ∧
      (Utf8.decode (cut newline bytes).2).isSome := by
  simp only [decode_isSome_iff]
  constructor
  · intro h
    obtain ⟨text, rfl⟩ := h
    rw [cut_encode]
    refine ⟨fun l hl => ?_, _, rfl⟩
    obtain ⟨k, -, rfl⟩ := List.mem_map.mp hl
    exact ⟨k, rfl⟩
  · intro h
    obtain ⟨hlines, rest, hrest⟩ := h
    have htexts : ∃ ts : List Text, (cut newline bytes).1 = ts.map Utf8.encode := by
      generalize (cut newline bytes).1 = ls at hlines
      induction ls with
      | nil => exact ⟨[], rfl⟩
      | cons l ls ih =>
          obtain ⟨t, rfl⟩ := hlines l (List.mem_cons_self ..)
          obtain ⟨ts, rfl⟩ := ih fun k hk => hlines k (List.mem_cons_of_mem _ hk)
          exact ⟨t :: ts, rfl⟩
    obtain ⟨ts, hts⟩ := htexts
    refine ⟨unlines '\n' ts ++ rest, ?_⟩
    rw [← (cut_spec newline bytes).1, hts, hrest, Utf8.encode_append, encode_unlines]

theorem decodeLine_eq_ok_iff {bytes : Bytes} :
    (∃ raw, decodeLine bytes = .ok raw) ↔ (Utf8.decode bytes).isSome := by
  unfold decodeLine
  cases Utf8.decode bytes <;> simp

theorem terminatedLine_eq_ok_iff {bytes : Bytes} :
    (∃ raw, terminatedLine bytes = .ok raw) ↔ (Utf8.decode bytes).isSome := by
  unfold terminatedLine decodeLine
  cases Utf8.decode bytes <;> simp [Except.map]

theorem lastItem_ok_iff {rest : Bytes} {fin : ReadEnd} :
    (∀ item ∈ lastItem rest fin, ∃ raw, item = .ok raw) ↔
      fin = .endOfStream ∧ (Utf8.decode rest).isSome := by
  cases fin with
  | readError => simp [lastItem]
  | endOfStream =>
      unfold lastItem
      split_ifs with h
      · simp [h, Utf8.decode, Utf8.decodeWithin]
      · simp [decodeLine_eq_ok_iff]

/-- A connection reports no read error exactly when it ends at end of stream and
all it delivered is UTF-8. -/
theorem readLines_ok_iff {bytes : Bytes} {fin : ReadEnd} :
    (∀ item ∈ readLines bytes fin, ∃ raw, item = .ok raw) ↔
      fin = .endOfStream ∧ (Utf8.decode bytes).isSome := by
  rw [decode_isSome_iff_cut, and_left_comm, ← lastItem_ok_iff]
  simp only [readLines, List.mem_append, or_imp, forall_and, List.forall_mem_map,
    terminatedLine_eq_ok_iff]

end DnslessHomelab.ClientStream
