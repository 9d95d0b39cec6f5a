import PeerChat.Wire.ServerMessage

/-!
# Announcements

One line from the rendezvous server as a client reads it. A line that is nothing else is kept as
it is.
-/

namespace PeerChat

inductive Announcement where
  | listHeader
  | peer (p : Peer)
  | nameTaken
  | invalidCommand
  | serverFull
  | newcomer (name : String)
  | other (text : String)
  deriving DecidableEq, Repr

namespace Announcement

def parse (line : String) : Announcement :=
  match Text.trimLineEnd line with
  | "PEER_LIST" => .listHeader
  | "USERNAME_TAKEN" => .nameTaken
  | "INVALID_COMMAND" => .invalidCommand
  | "SERVER_FULL" => .serverFull
  | line =>
    match Text.after? ServerMessage.newcomerStart line with
    | some name => .newcomer (Text.trim name)
    | none =>
      match Peer.parse line with
      | .ok p => .peer p
      | .error _ => .other line

/-- The kind and its data, as shown in an unexpected reply. -/
def details : Announcement → String
  | listHeader => "PeerListHeader"
  | peer p => "Peer(" ++ p.details ++ ")"
  | nameTaken => "UsernameTaken"
  | invalidCommand => "InvalidCommand"
  | serverFull => "ServerFull"
  | newcomer name => "NewPeer(" ++ Text.quoted name ++ ")"
  | other text => "Other(" ++ Text.quoted text ++ ")"

end Announcement

end PeerChat
