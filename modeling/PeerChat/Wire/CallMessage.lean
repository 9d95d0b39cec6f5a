import PeerChat.Wire.Peer

/-!
# Call messages

What two peers say on a direct connection before their session: a request, and an answer to it.
-/

namespace PeerChat

inductive CallMessage where
  | request (name : String)
  | accept
  | deny
  deriving DecidableEq, Repr

namespace CallMessage

def text : CallMessage → String
  | request name => "CONNECT_REQUEST " ++ name
  | accept => "ACCEPT"
  | deny => "DENY"

def line (m : CallMessage) : String := m.text ++ "\n"

def parse (line : String) : Except WireError CallMessage :=
  match Text.words line with
  | [] => .error .empty
  | "CONNECT_REQUEST" :: args =>
    match args with
    | [name] => do return .request (← readName name)
    | _ => .error (.malformed "CONNECT_REQUEST")
  | ["ACCEPT"] => .ok .accept
  | ["DENY"] => .ok .deny
  | word :: _ => .error (.unknownCommand word)

end CallMessage

end PeerChat
