import PeerChat.Net.Address
import PeerChat.Wire.Error

/-!
# Peers

A peer is a name and the endpoint on which it can be called, written as three words on a line.
-/

namespace PeerChat

def maxNameSize : Nat := 49

/-- Names are one word of a limited number of bytes without control characters. -/
def isName (s : String) : Bool :=
  s ≠ "" && s.utf8ByteSize ≤ maxNameSize &&
    !s.toList.any fun c => Text.isBlank c || Text.isControl c

def readName (s : String) : Except WireError String :=
  if isName s then .ok s else .error (.invalidName s)

def readPort (s : String) : Except WireError UInt16 :=
  match Decimal.read? 65536 s with
  | some (n + 1) => .ok (UInt16.ofNat (n + 1))
  | _ => .error (.invalidPort s)

def readAddress (s : String) : Except WireError IpAddress :=
  match IpAddress.read? s with
  | some address => .ok address
  | none => .error (.invalidAddress s)

structure Peer where
  name : String
  address : IpAddress
  port : UInt16
  deriving DecidableEq, Repr

namespace Peer

def endpoint (p : Peer) : Endpoint := ⟨p.address, p.port⟩

def line (p : Peer) : String := p.name ++ " " ++ p.address.text ++ " " ++ toString p.port.toNat

def parse (line : String) : Except WireError Peer :=
  match Text.words line with
  | [name, address, port] => do
    return ⟨← readName name, ← readAddress address, ← readPort port⟩
  | _ => .error (.malformed "peer line")

/-- The fields by name, as shown in an unexpected reply. -/
def details (p : Peer) : String :=
  "PeerRecord \x7b username: " ++ Text.quoted p.name ++ ", address: " ++ p.address.text ++
    ", listen_port: " ++ toString p.port.toNat ++ " \x7d"

end Peer

/-- An endpoint typed as an address and a port. -/
def Endpoint.parse (input : String) : Except WireError Endpoint :=
  match Text.words input with
  | [address, port] => do return ⟨← readAddress address, ← readPort port⟩
  | _ => .error (.malformed "direct target")

end PeerChat
