import PeerChat.Client.Link
import PeerChat.Client.Reception
import PeerChat.Client.Target
import PeerChat.Kem.MlKem512
import PeerChat.Session.Chat

/-!
# The client

A client's state, and the moves it is made of. What the client waits for is its task. All that
reaches it from outside is an event, all that it brings about is an effect; between two events it
moves on its own as long as it finds something to do.
-/

namespace PeerChat

/-- The word under which peers are called that were dialed by address. -/
def anonymousName : String := "Anonymous"

structure Settings where
  /-- The name to register first; without one the user is asked. -/
  name : Option String := none
  /-- The port on which calls are taken; without one the user is asked. -/
  port : Option UInt16 := none
  /-- Peers are dialed by address and nothing is registered. -/
  anonymous : Bool := false
  mode : NonceMode := .counter
  kem : Kem := MlKem512.kem

/-- Who is at the other end of a direct connection. -/
inductive Party where
  | dialed
  | caller (id : CallerId)
  deriving DecidableEq, Repr

inductive Effect where
  | print (text : String)
  /-- Take calls on the port. -/
  | listen (port : UInt16)
  | connectServer
  | sendServer (bytes : Bytes)
  | closeServer
  | dial (endpoint : Endpoint)
  | send (party : Party) (bytes : Bytes)
  | close (party : Party)
  deriving DecidableEq, Repr

/-- What ends a client before it is registered. -/
inductive ClientError where
  | told (text : String)
  | failed (cause : Failure)
  | cannotListen (cause : TransportError)
  deriving DecidableEq, Repr

namespace ClientError

def message : ClientError → String
  | told text => text
  | failed cause => cause.message
  | cannotListen cause => cause.message

/-- The cause as it is shown when it ends the program. -/
def details : ClientError → String
  | told text => Text.quoted text
  | failed cause => cause.details
  | cannotListen cause => cause.details

end ClientError

/-- The direct connection in use, with what has come on it and is not consumed. -/
structure Direct where
  party : Party
  incoming : Bytes
  ended : Bool
  /-- Whether the other end still takes what is sent. -/
  writable : Bool
  deriving DecidableEq, Repr

inductive Task where
  | choosingPort
  /-- Calls are about to be taken on the port. -/
  | binding
  /-- The first connection to the server is being made. -/
  | reaching
  | choosingName
  | signingUp (name : String)
  /-- Signed up, and about to enter the main loop. -/
  | registered
  | idle
  | choosingEndpoint
  | dialing (target : String)
  | asking (target : String)
  | deciding (name : String)
  /-- The key exchange, as the side that dialed. -/
  | concluding (remote : String) (key : SecretKey)
  /-- The key exchange, as the side that was called. -/
  | responding (remote : String)
  | chatting (chat : Chat)
  /-- Another connection to the server is being made after a session. -/
  | returning
  | rejoining
  | over (result : Except ClientError Unit)

structure Client where
  settings : Settings
  port : UInt16
  name : String
  status : Status
  peers : List Peer
  /-- The connection to the server that is not registered. -/
  inbox : Option Inbox
  link : Option Link
  direct : Option Direct
  reception : Reception
  /-- Lines typed and not consumed. -/
  typed : List String
  inputEnded : Bool
  /-- Whether the server takes what is sent. -/
  serverWritable : Bool
  entropy : Entropy
  task : Task

/-- A client in the middle of a move, with what the move has brought about so far. -/
structure Turn where
  client : Client
  effects : List Effect

namespace Turn

def of (c : Client) : Turn := ⟨c, []⟩

def emit (t : Turn) (e : Effect) : Turn := { t with effects := t.effects ++ [e] }

def print (t : Turn) (text : String) : Turn := t.emit (.print text)

def printLine (t : Turn) (text : String) : Turn := t.print (text ++ "\n")

def update (t : Turn) (f : Client → Client) : Turn := { t with client := f t.client }

def setStatus (t : Turn) (status : Status) : Turn := t.update fun c => { c with status }

def setTask (t : Turn) (task : Task) : Turn := t.update fun c => { c with task }

def setLink (t : Turn) (link : Option Link) : Turn := t.update fun c => { c with link }

def setInbox (t : Turn) (inbox : Option Inbox) : Turn := t.update fun c => { c with inbox }

def setDirect (t : Turn) (direct : Option Direct) : Turn := t.update fun c => { c with direct }

/-- What the reception does to callers, on their connections. -/
def receive (t : Turn) (outcome : Reception × List Reception.Effect) : Turn :=
  outcome.2.foldl
    (fun t e =>
      match e with
      | .deny id => (t.emit (.send (.caller id) (Negotiation.answer false))).emit
          (.close (.caller id))
      | .drop id => t.emit (.close (.caller id)))
    (t.update fun c => { c with reception := outcome.1 })

/-- Sends bytes on the direct connection, if its other end takes them. -/
def sendDirect (t : Turn) (bytes : Bytes) : Turn :=
  match t.client.direct with
  | some d => if d.writable then t.emit (.send d.party bytes) else t
  | none => t

/-- Ends the direct connection. -/
def closeDirect (t : Turn) : Turn :=
  match t.client.direct with
  | some d => (t.emit (.close d.party)).setDirect none
  | none => t

/-- Ends a connection to the server that has not become a link. -/
def closeInbox (t : Turn) : Turn := (t.emit .closeServer).setInbox none

end Turn

namespace Client

/-- Whether the direct connection takes what is sent. -/
def canSend (c : Client) : Bool :=
  match c.direct with
  | some d => d.writable
  | none => false

end Client

end PeerChat
