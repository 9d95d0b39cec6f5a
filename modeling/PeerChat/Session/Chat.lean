import PeerChat.Session.Sealed
import PeerChat.Stream.Frame
import PeerChat.Text.Blank
import PeerChat.Text.Utf8

/-!
# A chat

One end of an established session. A typed line is sealed and sent in a frame; a frame from the
peer is opened and shown. The chat ends when the user quits, when the peer closes, or at the first
frame that does not open.
-/

namespace PeerChat

inductive ChatEvent where
  | message (sender text : String)
  | closed (peer : String)
  | decryptionFailed (peer : String)
  | messageTooLong (size : Nat)
  deriving DecidableEq, Repr

inductive ChatEnd where
  /-- The user typed the quit word or closed the input. -/
  | localQuit
  | peerClosed
  | decryptionFailed
  | encryptionFailed
  | transportFailed
  deriving DecidableEq, Repr

structure Chat where
  remote : String
  keys : SessionKeys
  outbound : Nonces
  inbound : Nonces
  /-- What has arrived of a frame that is not complete. -/
  unread : Bytes
  result : Option ChatEnd
  deriving DecidableEq

namespace Chat

/-- Messages are limited to so many bytes. -/
def maxMessage : Nat := 1024

def quitWord : String := "/quit"

/-- A chat before its first message; `rest` is what the key exchange left unread. -/
def start (remote : String) (role : Role) (mode : NonceMode) (keys : SessionKeys) (rest : Bytes) :
    Chat :=
  ⟨remote, keys, .outbound keys role mode, .inbound keys role mode, rest, none⟩

def finish (c : Chat) (result : ChatEnd) : Chat := { c with result := some result }

/-- What a step of a chat brings about: what is shown, and what is sent. -/
structure Effects where
  events : List ChatEvent := []
  sent : Bytes := []

/-- A line typed by the user; `writable` tells whether the peer still takes what is sent. -/
def typeLine (c : Chat) (writable : Bool) (line : String) : Chat × Effects :=
  if c.result.isSome then (c, {})
  else
    let text := Text.trimLineEnd line
    if text = quitWord then (c.finish .localQuit, {})
    else if text = "" then (c, {})
    else if maxMessage < text.utf8ByteSize then
      (c, { events := [.messageTooLong text.utf8ByteSize] })
    else
      match c.keys.encrypt c.outbound (Utf8.encode text) with
      | (.error _, _) => (c.finish .encryptionFailed, {})
      | (.ok sealed, outbound) =>
        if writable then ({ c with outbound }, { sent := Frame.write sealed })
        else (c.finish .transportFailed, {})

/-- The user's input has ended. -/
def endInput (c : Chat) : Chat := if c.result.isSome then c else c.finish .localQuit

/-- One read from the peer. -/
def takeItem (c : Chat) (item : Frame.Item) : Chat × List ChatEvent :=
  if c.result.isSome then (c, [])
  else
    match item with
    | .payload sealed =>
      match c.keys.decrypt c.inbound sealed with
      | (.ok message, inbound) => ({ c with inbound }, [.message c.remote (Utf8.decode message)])
      | (.error _, _) => (c.finish .decryptionFailed, [.decryptionFailed c.remote])
    | .ended => (c.finish .peerClosed, [.closed c.remote])
    | .tooLarge _ | .cutLength | .cutPayload => (c.finish .transportFailed, [.closed c.remote])

def takeItems (c : Chat) : List Frame.Item → Chat × List ChatEvent
  | [] => (c, [])
  | item :: later =>
    let (c, events) := c.takeItem item
    let (c, rest) := takeItems c later
    (c, events ++ rest)

/-- Bytes from the peer; `ended` tells whether they are the last. -/
def receive (c : Chat) (ended : Bool) (bytes : Bytes) : Chat × List ChatEvent :=
  if c.result.isSome then (c, [])
  else
    let (items, unread) := Frame.items Frame.maxPayload ended (c.unread ++ bytes)
    takeItems { c with unread } items

/-- A stream arrives piece by piece, and ends. -/
def hear (c : Chat) : List Bytes → Chat × List ChatEvent
  | [] => c.receive true []
  | piece :: later =>
    let (c, events) := c.receive false piece
    let (c, rest) := hear c later
    (c, events ++ rest)

end Chat

end PeerChat
