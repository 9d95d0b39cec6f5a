import PeerChat.Wire.Announcement

/-!
# Updates from the server

Announcements put together: a header opens a list, and each peer that follows without anything
between extends it. Every list is told again with each peer that it gains.
-/

namespace PeerChat

inductive Update where
  /-- The whole list, in place of the one known so far. -/
  | peerList (peers : List Peer)
  | newcomer (name : String)
  | nameTaken
  | invalidCommand
  | serverFull
  | remark (text : String)
  deriving DecidableEq, Repr

def Update.text : Update → String
  | peerList peers => "peer list of " ++ toString peers.length ++ " entries"
  | newcomer name => "new peer " ++ name
  | nameTaken => "username taken"
  | invalidCommand => "invalid command"
  | serverFull => "server full"
  | remark text => text

/-- The list that is open, if one is. -/
structure Listing where
  current : Option (List Peer)
  deriving DecidableEq, Repr

namespace Listing

def closed : Listing := ⟨none⟩

def opened : Listing := ⟨some []⟩

def push (l : Listing) (a : Announcement) : Listing × Option Update :=
  match a with
  | .listHeader => (opened, some (.peerList []))
  | .peer p =>
    match l.current with
    | some peers => (⟨some (peers ++ [p])⟩, some (.peerList (peers ++ [p])))
    | none => (l, some (.remark p.line))
  | .newcomer name => (closed, some (.newcomer name))
  | .nameTaken => (closed, some .nameTaken)
  | .invalidCommand => (closed, some .invalidCommand)
  | .serverFull => (closed, some .serverFull)
  | .other text => (closed, if Text.trim text = "" then none else some (.remark text))

end Listing

end PeerChat
