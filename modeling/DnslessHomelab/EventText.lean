import DnslessHomelab.EventSinks

/-!
# Server events as JSON texts

A reader for the texts that `printEvent` writes: the kind first, then its members, with
socket addresses read back from their display. It accepts exactly the printed form.
-/
namespace DnslessHomelab.EventText
open Protocol MessageText EventSinks

/-- The number up to the separator, and what follows it. -/
def readNumber (sep : Char) (text : Text) : ℕ × Text :=
  let digits := text.takeWhile (· ≠ sep)
  (Nat.ofDigitChars 10 digits 0, text.drop (digits.length + 1))

def readSocketAddr (text : Text) : SocketAddr :=
  let a := readNumber '.' text
  let b := readNumber '.' a.2
  let c := readNumber '.' b.2
  let d := readNumber ':' c.2
  ⟨⟨.ofNat a.1, .ofNat b.1, .ofNat c.1, .ofNat d.1⟩, .ofNat (Nat.ofDigitChars 10 d.2 0)⟩

theorem readNumber_decimal {sep : Char} (hsep : sep.isDigit = false) (n : ℕ) (rest : Text) :
    readNumber sep (decimal n ++ sep :: rest) = (n, rest) := by
  have hnot : sep ∉ decimal n := fun hmem => by simp [isDigit_of_mem_decimal hmem] at hsep
  have hdigits : (decimal n ++ sep :: rest).takeWhile (· ≠ sep) = decimal n :=
    LineText.takeWhile_line hnot rest
  unfold readNumber
  dsimp only
  rw [hdigits]
  have hn : Nat.ofDigitChars 10 (decimal n) 0 = n := Nat.ofDigitChars_ten_toDigits
  rw [hn, Prod.mk.injEq]
  refine ⟨rfl, ?_⟩
  rw [← List.drop_drop, List.drop_left]
  rfl

theorem readSocketAddr_toString (addr : SocketAddr) : readSocketAddr addr.toString = addr := by
  obtain ⟨⟨a, b, c, d⟩, port⟩ := addr
  have hport : Nat.ofDigitChars 10 (decimal port.toNat) 0 = port.toNat :=
    Nat.ofDigitChars_ten_toDigits
  simp only [readSocketAddr, SocketAddr.toString, Ipv4Addr.toString, List.append_assoc,
    List.cons_append, readNumber_decimal (show ('.' : Char).isDigit = false by decide),
    readNumber_decimal (show (':' : Char).isDigit = false by decide), hport,
    UInt8.ofNat_toNat, UInt16.ofNat_toNat]

/-- The members after the kind. -/
def readMembers (kind rest : Text) : Option ServerEvent :=
  let text? (key : String) := (readField key.toList (rest.drop 1)).map Prod.fst
  if kind = "listening".toList then
    (text? "bind_addr").map fun addr => .listening (readSocketAddr addr)
  else if kind = "client_connected".toList then
    (text? "peer").map fun peer => .clientConnected (readSocketAddr peer)
  else if kind = "client_disconnected".toList then
    (text? "peer").map fun peer => .clientDisconnected (readSocketAddr peer)
  else if kind = "ip_changed".toList then
    (readField "hostname".toList (rest.drop 1)).bind fun (hostname, rest) =>
      (readField "ip".toList (rest.drop 1)).map fun (ip, rest) =>
        .ipChanged hostname ip (rest = ",\"is_initial\":true\x7d".toList)
  else if kind = "heartbeat_sent".toList then some .heartbeatSent
  else if kind = "poll_unchanged".toList then (text? "ip").map .pollUnchanged
  else if kind = "error".toList then (text? "message").map .error
  else none

def readEvent (text : Text) : Option ServerEvent :=
  (readField "type".toList (text.drop 1)).bind fun (kind, rest) => readMembers kind rest

theorem readEvent_object (kind : Text) (members : Text) :
    readEvent ('{' :: (field "type".toList kind ++ members ++ ['}'])) =
      readMembers kind (members ++ ['}']) := by
  rw [readEvent, List.drop_succ_cons, List.drop_zero, List.append_assoc, readField_field,
    Option.bind_some]

theorem readEvent_printEvent (ev : ServerEvent) : readEvent (printEvent ev) = some ev := by
  cases ev with
  | listening bindAddr =>
      rw [printEvent, readEvent_object]
      simp [readMembers, readField_field, readSocketAddr_toString]
  | clientConnected peer =>
      rw [printEvent, readEvent_object]
      simp [readMembers, readField_field, readSocketAddr_toString]
  | clientDisconnected peer =>
      rw [printEvent, readEvent_object]
      simp [readMembers, readField_field, readSocketAddr_toString]
  | ipChanged hostname ip isInitial =>
      let flag := (if isInitial then "true" else "false").toList
      have hmembers : ',' :: field "hostname".toList hostname ++ ',' :: field "ip".toList ip ++
          ",\"is_initial\":".toList ++ flag ++ ['}'] =
            ',' :: (field "hostname".toList hostname ++ ',' :: (field "ip".toList ip ++
              (",\"is_initial\":".toList ++ flag ++ ['}']))) := by
        simp only [List.cons_append, List.append_assoc]
      rw [printEvent, readEvent_object, hmembers, readMembers, if_neg (by decide),
        if_neg (by decide), if_neg (by decide), if_pos rfl, List.drop_succ_cons, List.drop_zero,
        readField_field, Option.bind_some]
      dsimp only
      rw [List.drop_succ_cons, List.drop_zero, readField_field, Option.map_some]
      cases isInitial with
      | true => rfl
      | false => rfl
  | heartbeatSent =>
      rw [printEvent, readEvent_object]
      simp [readMembers]
  | pollUnchanged ip =>
      rw [printEvent, readEvent_object]
      simp [readMembers, readField_field]
  | error message =>
      rw [printEvent, readEvent_object]
      simp [readMembers, readField_field]

/-- The reader of the page; anything but the printed form is refused. -/
def fromStr (text : Text) : Except Text ServerEvent :=
  match readEvent text with
  | none => .error "not an event".toList
  | some ev => if printEvent ev = text then .ok ev else .error "not an event".toList

theorem fromStr_printEvent (ev : ServerEvent) : fromStr (printEvent ev) = .ok ev := by
  simp only [fromStr, readEvent_printEvent, if_true]

end DnslessHomelab.EventText
