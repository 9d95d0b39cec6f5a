import PeerChat.Wire.Peer

/-!
# Commands

What a client asks of the rendezvous server, one command on a line.
-/

namespace PeerChat

inductive Command where
  | register (name : String) (port : UInt16)
  | listPeers
  | remove (name : String)
  /-- A peer could not be reached. -/
  | reportGone (name : String)
  deriving DecidableEq, Repr

namespace Command

def text : Command → String
  | register name port => "REGISTER " ++ name ++ " " ++ toString port.toNat
  | listPeers => "GET_PEER_LIST"
  | remove name => "REMOVE " ++ name
  | reportGone name => "PEER_DISCONNECTED " ++ name

def line (c : Command) : String := c.text ++ "\n"

def parse (line : String) : Except WireError Command :=
  match Text.words line with
  | [] => .error .empty
  | "REGISTER" :: args =>
    match args with
    | [name, port] => do return .register (← readName name) (← readPort port)
    | _ => .error (.malformed "REGISTER")
  | "GET_PEER_LIST" :: args =>
    match args with
    | [] => .ok .listPeers
    | _ => .error (.malformed "GET_PEER_LIST")
  | "REMOVE" :: args =>
    match args with
    | [name] => do return .remove (← readName name)
    | _ => .error (.malformed "REMOVE")
  | "PEER_DISCONNECTED" :: args =>
    match args with
    | [name] => do return .reportGone (← readName name)
    | _ => .error (.malformed "PEER_DISCONNECTED")
  | word :: _ => .error (.unknownCommand word)

end Command

end PeerChat
