import PeerChat.Directory
import PeerChat.Stream.Line
import PeerChat.Wire.Command
import PeerChat.Wire.ServerMessage

/-!
# The rendezvous server

The server's state and the steps from which all it does is made: a change of the directory, a
message queued for one connection, a connection opened or closed. Each connection has an outbox of
limited size, until writing to it fails. A message that finds its outbox full or gone is not queued.
-/

namespace PeerChat

abbrev ConnectionId := OwnerId

inductive Phase where
  | registering
  | registered (name : String)
  | closed
  deriving DecidableEq, Repr

structure Connection where
  id : ConnectionId
  address : IpAddress
  phase : Phase
  /-- What has arrived of a line whose end is still to come. -/
  unread : Bytes
  /-- What is still to be sent, in order. -/
  outbox : List ServerMessage
  /-- Whether the outbox is there: it is gone once a write has failed. -/
  writable : Bool
  deriving DecidableEq, Repr

/-- What is to be written on one connection, and whether it ends with that. -/
structure Delivery where
  id : ConnectionId
  messages : List ServerMessage
  isLast : Bool
  deriving DecidableEq, Repr

def Delivery.text (d : Delivery) : String := d.messages.foldl (fun acc m => acc ++ m.text) ""

structure Server where
  directory : Directory
  connections : List Connection
  nextId : ConnectionId
  deriving DecidableEq, Repr

namespace Server

def outboxCapacity : Nat := 64

def defaultPort : UInt16 := 5453

def start (directory : Directory) : Server := ⟨directory, [], 1⟩

def connection? (s : Server) (id : ConnectionId) : Option Connection :=
  s.connections.find? fun c => c.id = id

def openConnections (s : Server) : List Connection :=
  s.connections.filter fun c => c.phase ≠ .closed

def update (s : Server) (id : ConnectionId) (f : Connection → Connection) : Server :=
  { s with connections := s.connections.map fun c => if c.id = id then f c else c }

/-- A new connection from the given address; its id is the server's next one. -/
def accept (s : Server) (address : IpAddress) : Server :=
  { s with
    connections := s.connections ++ [⟨s.nextId, address, .registering, [], [], true⟩]
    nextId := s.nextId + 1 }

/-- Whether the outbox of a connection takes another message. -/
def hasRoom (s : Server) (id : ConnectionId) : Bool :=
  match s.connection? id with
  | some c => c.writable && c.outbox.length < outboxCapacity
  | none => false

/-- Queues a message where there is room for it. -/
def queue (s : Server) (id : ConnectionId) (m : ServerMessage) : Server :=
  if s.hasRoom id then s.update id fun c => { c with outbox := c.outbox ++ [m] } else s

/-- Those who get a notice: every open connection but one. -/
def audience (s : Server) (except : ConnectionId) : List ConnectionId :=
  (s.openConnections.map (·.id)).filter (· ≠ except)

def notify (s : Server) (ids : List ConnectionId) (m : ServerMessage) : Server :=
  ids.foldl (fun s id => s.queue id m) s

/-- Queues a message for every open connection but one; those without room miss it. -/
def broadcast (s : Server) (m : ServerMessage) (except : ConnectionId) : Server :=
  s.notify (s.audience except) m

/-- Takes a connection's own entry, if it still has one, out of the directory. -/
def withdraw (s : Server) (c : Connection) : Server :=
  match c.phase with
  | .registered name => { s with directory := s.directory.eraseOwned name c.id }
  | _ => s

/-- Ends a connection. What is in its outbox is still sent. -/
def close (s : Server) (id : ConnectionId) : Server :=
  match s.connection? id with
  | some c => (s.withdraw c).update id fun c => { c with phase := .closed, unread := [] }
  | none => s

/-- A write to the connection has failed: what is in its outbox is lost, and the outbox is gone. -/
def abandon (s : Server) (id : ConnectionId) : Server :=
  s.update id fun c => { c with outbox := [], writable := false }

/-- Hands out what is queued for each connection; closed ones are then forgotten. -/
def flush (s : Server) : List Delivery × Server :=
  (s.connections.map fun c => ⟨c.id, c.outbox, c.phase = .closed⟩,
    { s with connections := s.openConnections.map fun c => { c with outbox := [] } })

end Server

end PeerChat
