import PeerChat.Wire.Peer

/-!
# Server messages

What the rendezvous server sends to its clients: a list of peers takes a header and one line for
each peer, everything else is one line.
-/

namespace PeerChat

inductive ServerMessage where
  | peerList (peers : List Peer)
  | nameTaken
  | invalidCommand
  | serverFull
  | newcomer (name : String)
  /-- A text sent as it is. -/
  | remark (text : String)
  deriving DecidableEq, Repr

namespace ServerMessage

def listHeader : String := "PEER_LIST"

def newcomerStart : String := "New peer connected: "

def peerLines : List Peer → String
  | [] => ""
  | p :: later => p.line ++ "\n" ++ peerLines later

def text : ServerMessage → String
  | peerList peers => listHeader ++ "\n" ++ peerLines peers
  | nameTaken => "USERNAME_TAKEN\n"
  | invalidCommand => "INVALID_COMMAND\n"
  | serverFull => "SERVER_FULL\n"
  | newcomer name => newcomerStart ++ name ++ "\n"
  | remark text => text

end ServerMessage

end PeerChat
