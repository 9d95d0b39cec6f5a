import PeerChat.Net.Numbers
import PeerChat.Session.Error

/-!
# Endpoints by name

The endpoint of the rendezvous server is given as a host and a port. A host is an address, in
brackets or not if it holds colons, or the name of this machine; no other name is known.
-/

namespace PeerChat

/-- The texts before and after the last colon. -/
def cutLastColon? (cs : List Char) : Option (List Char × List Char) :=
  match cs.reverse.span (· ≠ ':') with
  | (_, []) => none
  | (port, _ :: host) => some (host.reverse, port.reverse)

/-- What stands between the brackets of a host, if it has them. -/
def unbracket? (host : List Char) : Option (List Char) :=
  match host with
  | '[' :: rest => if rest.getLast? = some ']' then some rest.dropLast else none
  | _ => none

/-- An address in brackets may have the number of its zone behind a percent sign. -/
def bracketedAddress? (inner : List Char) : Option IpAddress :=
  match inner.span (· ≠ '%') with
  | (address, []) => IpAddress.readV6? address
  | (address, _ :: zone) => do
    let _ ← Decimal.readDigits? UInt32.size zone
    IpAddress.readV6? address

/-- The address that a host is; brackets are for a host whose port has no sign. -/
def hostAddress? (signed : Bool) (host : List Char) : Option IpAddress :=
  match unbracket? host with
  | some inner => if signed then none else bracketedAddress? inner
  | none => (IpAddress.readNumbers? host).or (IpAddress.readV6? host)

def resolveHost (signed : Bool) (host : List Char) : Except TransportError IpAddress :=
  if (String.ofList host).toLower = "localhost" then .ok .loopback
  else match hostAddress? signed host with
    | some address => .ok address
    | none => .error .unknownHost

def Endpoint.resolve (s : String) : Except TransportError Endpoint :=
  match cutLastColon? s.toList with
  | none => .error .notAnEndpoint
  | some (host, port) =>
    match Decimal.read? 65536 (String.ofList port) with
    | none => .error .notAPort
    | some number => do
      return ⟨← resolveHost (port.head? == some '+') host, UInt16.ofNat number⟩

end PeerChat
