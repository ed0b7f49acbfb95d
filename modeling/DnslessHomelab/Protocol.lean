import DnslessHomelab.LineText

/-!
# Protocol and observability types

Text is a list of Unicode scalar values, bytes are octets. The wire carries
`Message` values, one JSON text a line; server and client events are local
observations and never cross that wire. The listener binds `0.0.0.0`, so every
socket address of the server is an IPv4 one.

`serde_json` is not part of the repository. It enters as the two functions the
code calls, and each result names the documented behaviour it relies on.
-/
namespace DnslessHomelab.Protocol

abbrev Text := List Char
abbrev Bytes := List UInt8

/-- Shortest decimal form, as the display of an unsigned integer. -/
def decimal (n : ℕ) : Text := Nat.toDigits 10 n

theorem isDigit_of_mem_decimal {n : ℕ} {c : Char} (h : c ∈ decimal n) : c.isDigit = true :=
  Nat.isDigit_of_mem_toDigits (by omega) (by omega) h

theorem decimal_injective : Function.Injective decimal := by
  intro m n h
  rw [← Nat.ofDigitChars_ten_toDigits (n := m), ← Nat.ofDigitChars_ten_toDigits (n := n)]
  exact congrArg (Nat.ofDigitChars 10 · 0) h

theorem decimal_append_inj {m n : ℕ} {c : Char} (hc : c.isDigit = false) {s t : Text}
    (h : decimal m ++ c :: s = decimal n ++ c :: t) : m = n ∧ s = t := by
  have hnot : ∀ k, c ∉ decimal k := fun k hk => by
    simp [isDigit_of_mem_decimal hk] at hc
  obtain ⟨hd, hst⟩ := LineText.append_sep_inj (hnot m) (hnot n) h
  exact ⟨decimal_injective hd, hst⟩

structure Ipv4Addr where
  a : UInt8
  b : UInt8
  c : UInt8
  d : UInt8
  deriving DecidableEq, Repr

namespace Ipv4Addr

/-- Dotted-quad display. -/
def toString (ip : Ipv4Addr) : Text :=
  decimal ip.a.toNat ++ '.' :: decimal ip.b.toNat ++ '.' :: decimal ip.c.toNat ++
    '.' :: decimal ip.d.toNat

theorem toString_injective : Function.Injective toString := by
  intro x y h
  simp only [toString, List.append_assoc, List.cons_append] at h
  obtain ⟨ha, h⟩ := decimal_append_inj (by decide) h
  obtain ⟨hb, h⟩ := decimal_append_inj (by decide) h
  obtain ⟨hc, h⟩ := decimal_append_inj (by decide) h
  have hd := decimal_injective h
  rw [UInt8.toNat_inj] at ha hb hc hd
  cases x
  cases y
  simp_all

theorem of_mem_toString {ip : Ipv4Addr} {c : Char} (h : c ∈ ip.toString) :
    c.isDigit = true ∨ c = '.' := by
  simp only [toString, List.mem_append, List.mem_cons] at h
  rcases h with ((h | h | h) | h | h) | h | h
  · exact .inl (isDigit_of_mem_decimal h)
  · exact .inr h
  · exact .inl (isDigit_of_mem_decimal h)
  · exact .inr h
  · exact .inl (isDigit_of_mem_decimal h)
  · exact .inr h
  · exact .inl (isDigit_of_mem_decimal h)

theorem decimal_octet_length (o : UInt8) : (decimal o.toNat).length ≤ 3 := by
  have ho := o.toNat_lt
  exact (Nat.length_toDigits_le_iff (by omega) (by omega)).mpr (by omega)

theorem toString_length (ip : Ipv4Addr) : ip.toString.length ≤ 15 := by
  have ha := decimal_octet_length ip.a
  have hb := decimal_octet_length ip.b
  have hc := decimal_octet_length ip.c
  have hd := decimal_octet_length ip.d
  simp only [toString, List.length_append, List.length_cons]
  omega

end Ipv4Addr

/-- Peer and bind addresses. -/
structure SocketAddr where
  ip : Ipv4Addr
  port : UInt16
  deriving DecidableEq, Repr

namespace SocketAddr

def toString (s : SocketAddr) : Text := s.ip.toString ++ ':' :: decimal s.port.toNat

theorem toString_injective : Function.Injective toString := by
  intro x y h
  have hcolon : ∀ ip : Ipv4Addr, ':' ∉ ip.toString := by
    intro ip hm
    rcases Ipv4Addr.of_mem_toString hm with h | h <;> simp at h
  obtain ⟨hip, hport⟩ := LineText.append_sep_inj (hcolon x.ip) (hcolon y.ip) h
  have hp := UInt16.toNat_inj.mp (decimal_injective hport)
  have ha := Ipv4Addr.toString_injective hip
  cases x
  cases y
  simp_all

end SocketAddr

structure IpUpdate where
  hostname : Text
  ip : Text
  deriving DecidableEq, Repr

/-- A protocol message from the server to its clients. -/
inductive Message where
  | ipUpdate (update : IpUpdate)
  | heartbeat
  deriving DecidableEq, Repr

inductive ServerEvent where
  | listening (bindAddr : SocketAddr)
  | clientConnected (peer : SocketAddr)
  | clientDisconnected (peer : SocketAddr)
  | ipChanged (hostname ip : Text) (isInitial : Bool)
  | heartbeatSent
  | pollUnchanged (ip : Text)
  | error (message : Text)
  deriving DecidableEq, Repr

inductive ClientEvent where
  | connecting (serverAddr : Text)
  | connected (serverAddr : Text)
  | connectionLost (serverAddr : Text)
  | connectionFailed (serverAddr error : Text)
  | ipUpdateReceived (hostname ip : Text)
  | hostsFileUpdated (hostname ip : Text)
  | hostsFileError (hostname ip error : Text)
  | heartbeatReceived
  | parseError (raw error : Text)
  deriving DecidableEq, Repr

/-- The two entry points of the JSON library, with their error texts. -/
structure SerdeJson where
  toString : Message → Except Text Text
  fromStr : Text → Except Text Message

end DnslessHomelab.Protocol
