import PeerChat.Client.Update
import PeerChat.Stream.Line

/-!
# Listening to the server

A registered client reads what the server says as it arrives. Lists that arrive in one read are
told once, as the last of them: a list is held back only while another line of the same read is to
come, and is told before anything else.
-/

namespace PeerChat

structure Listener where
  /-- What has arrived of a line whose end is still to come. -/
  unread : Bytes
  listing : Listing
  /-- The list held back. -/
  pending : Option (List Peer)
  finished : Bool
  deriving DecidableEq, Repr

namespace Listener

/-- A read takes at most so many bytes. -/
def readSize : Nat := 8192

/-- A listener whose list header has just been read. -/
def start : Listener := ⟨[], .opened, some [], false⟩

def flush (l : Listener) : Listener × List Update :=
  match l.pending with
  | some peers => ({ l with pending := none }, [.peerList peers])
  | none => (l, [])

def takeUpdate (l : Listener) (update : Option Update) : Listener × List Update :=
  match update with
  | none => (l, [])
  | some (.peerList peers) => ({ l with pending := some peers }, [])
  | some other =>
    let (l, held) := l.flush
    (l, held ++ [other])

def takeItem (l : Listener) (item : Line.Item) : Listener × List Update :=
  if l.finished then (l, [])
  else
    match item with
    | .text line =>
      let (listing, update) := l.listing.push (.parse line)
      takeUpdate { l with listing } update
    | .tooLong | .ended => ({ l with finished := true }, [])

def takeItems (l : Listener) : List Line.Item → Listener × List Update
  | [] => l.flush
  | item :: later =>
    let (l, updates) := l.takeItem item
    let (l, rest) := takeItems l later
    (l, updates ++ rest)

/-- One read; `ended` tells whether it found the end of the stream. -/
def read (l : Listener) (ended : Bool) (bytes : Bytes) : Listener × List Update :=
  if l.finished then (l, [])
  else
    let (items, unread) := Line.items Line.maxSize ended (l.unread ++ bytes)
    takeItems { l with unread } items

def reads (l : Listener) : List Bytes → Listener × List Update
  | [] => (l, [])
  | bytes :: later =>
    let (l, updates) := l.read false bytes
    let (l, rest) := reads l later
    (l, updates ++ rest)

/-- Bytes that arrive together, in as many reads as they take. -/
def receive (l : Listener) (bytes : Bytes) : Listener × List Update :=
  l.reads (Bytes.inBlocks readSize bytes)

end Listener

end PeerChat
