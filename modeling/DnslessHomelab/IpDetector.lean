import DnslessHomelab.Protocol

/-!
# Detecting the server's address

The interfaces of the machine are enumerated by a library, with an address and a
loopback flag each. The first address that is IPv4, not loopback and of the
configured interface is taken; the empty name stands for every interface. Of an IPv6
address nothing is read.
-/
namespace DnslessHomelab.IpDetector
open Protocol

inductive IpAddr where
  | v4 (ip : Ipv4Addr)
  | v6 (bits : BitVec 128)
  deriving DecidableEq

structure Interface where
  name : Text
  ip : IpAddr
  isLoopback : Bool
  deriving DecidableEq

/-- The loop over the enumerated interfaces. -/
def search (interface : Text) : List Interface → Option Ipv4Addr
  | [] => none
  | iface :: ifaces =>
      if iface.isLoopback then search interface ifaces
      else
        match iface.ip with
        | .v6 _ => search interface ifaces
        | .v4 ip =>
            if interface = [] ∨ iface.name = interface then some ip
            else search interface ifaces

def detectIp (interface : Text) (ifaces : Except Text (List Interface)) :
    Except Text Ipv4Addr :=
  match ifaces with
  | .error e => .error ("Cannot enumerate network interfaces: ".toList ++ e)
  | .ok ifaces =>
      match search interface ifaces with
      | some ip => .ok ip
      | none => .error ("No suitable IP address found".toList ++
          if interface = [] then [] else " for interface '".toList ++ interface ++ "'".toList)

def Interface.v4? (iface : Interface) : Option Ipv4Addr :=
  match iface.ip with
  | .v4 ip => some ip
  | .v6 _ => none

/-- A configured name matches its own interface, the empty name every one. -/
def Interface.Matches (iface : Interface) (interface : Text) : Prop :=
  interface = [] ∨ iface.name = interface

instance (iface : Interface) (interface : Text) : Decidable (iface.Matches interface) :=
  inferInstanceAs (Decidable (_ ∨ _))

/-- The first IPv4 address of a matching interface that is not loopback. -/
def firstAddress (interface : Text) (ifaces : List Interface) : Option Ipv4Addr :=
  ((ifaces.filter fun iface => !iface.isLoopback && decide (iface.Matches interface)).filterMap
    Interface.v4?).head?

theorem search_eq_firstAddress (interface : Text) (ifaces : List Interface) :
    search interface ifaces = firstAddress interface ifaces := by
  induction ifaces with
  | nil => rfl
  | cons iface ifaces ih =>
      by_cases hloop : iface.isLoopback = true
      · rw [search, if_pos hloop, ih]
        simp [firstAddress, hloop]
      · rw [search, if_neg hloop]
        by_cases hname : iface.Matches interface
        · cases hip : iface.ip with
          | v6 bits =>
              simp only [ih]
              simp [firstAddress, hloop, hname, Interface.v4?, hip]
          | v4 ip =>
              simp only [if_pos (show interface = [] ∨ iface.name = interface from hname)]
              simp [firstAddress, hloop, hname, Interface.v4?, hip]
        · have hskip : firstAddress interface (iface :: ifaces) =
              firstAddress interface ifaces := by
            simp [firstAddress, hloop, hname]
          rw [hskip, ← ih]
          cases hip : iface.ip with
          | v6 bits => rfl
          | v4 ip => exact if_neg hname

/-- What a poll detects, failures left out. -/
def detected (interface : Text) (ifaces : Except Text (List Interface)) : Option Ipv4Addr :=
  ifaces.toOption.bind (firstAddress interface)

theorem toOption_detectIp (interface : Text) (ifaces : Except Text (List Interface)) :
    (detectIp interface ifaces).toOption = detected interface ifaces := by
  cases ifaces with
  | error e => rfl
  | ok ifaces =>
      unfold detectIp detected
      simp only [Except.toOption, Option.bind_some, search_eq_firstAddress]
      cases firstAddress interface ifaces with
      | none => rfl
      | some ip => rfl

end DnslessHomelab.IpDetector
