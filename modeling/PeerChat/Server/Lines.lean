import PeerChat.Server.Basic

/-!
# What a line does

A connection first registers; then it may ask for the list, report a peer, or leave. Everything
else is answered as an invalid command. A direct reply that finds the outbox full or gone ends the
connection.
-/

namespace PeerChat.Server

/-- Queues a direct reply, or ends the connection if it does not read its replies or cannot be
written to. -/
def reply (s : Server) (id : ConnectionId) (m : ServerMessage) : Server :=
  if s.hasRoom id then s.queue id m else s.close id

/-- Enters the connection's peer, replies, and tells all others of the newcomer, whether or not
the reply could be queued. -/
def register (s : Server) (c : Connection) (name : String) (port : UInt16) : Server :=
  match s.directory.insert ⟨name, c.address, port⟩ (some c.id) with
  | .ok (directory, others) =>
    let s : Server := { s with directory }
    let s := s.update c.id fun c => { c with phase := .registered name }
    let fits := s.hasRoom c.id
    let s := (s.queue c.id (.peerList others)).broadcast (.newcomer name) c.id
    if fits then s else s.close c.id
  | .error (.nameTaken _) => s.reply c.id .nameTaken
  | .error (.full _) => s.reply c.id .serverFull

def obey (s : Server) (c : Connection) (command : Command) : Server :=
  match c.phase, command with
  | .registering, .register name port => s.register c name port
  | .registered own, .listPeers => s.reply c.id (.peerList (s.directory.peers (some own)))
  | .registered _, .remove name =>
    ({ s with directory := s.directory.erase name } : Server).close c.id
  | .registered _, .reportGone name => { s with directory := s.directory.erase name }
  | _, _ => s.reply c.id .invalidCommand

/-- One line from an open connection; blank lines are passed over. -/
def handleLine (s : Server) (id : ConnectionId) (line : String) : Server :=
  match s.connection? id with
  | none => s
  | some c =>
    if c.phase = .closed ∨ Text.trim line = "" then s
    else match Command.parse line with
      | .ok command => s.obey c command
      | .error _ => s.reply id .invalidCommand

def handle (s : Server) (id : ConnectionId) : Line.Item → Server
  | .text line => s.handleLine id line
  | .tooLong => s.close id
  | .ended => s.close id

/-- Bytes from a connection: every line that they complete is handled. -/
def receive (s : Server) (id : ConnectionId) (bytes : Bytes) : Server :=
  match s.connection? id with
  | none => s
  | some c =>
    if c.phase = .closed then s
    else
      let (items, unread) := Line.items Line.maxSize false (c.unread ++ bytes)
      items.foldl (fun s item => s.handle id item)
        (s.update id fun c => { c with unread := unread })

/-- The end of what a connection sends: a last line without its end still counts. -/
def hangUp (s : Server) (id : ConnectionId) : Server :=
  match s.connection? id with
  | none => s
  | some c =>
    if c.phase = .closed then s
    else (Line.items Line.maxSize true c.unread).1.foldl (fun s item => s.handle id item) s

end PeerChat.Server
