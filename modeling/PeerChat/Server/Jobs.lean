import PeerChat.Server.Lines

/-!
# How a line is handled

A connection's handler takes one lock at a time, so that between any two of its steps the handlers
of other connections can go on. What it does first, under the lock of the directory, leaves jobs
that follow one after the other.
-/

namespace PeerChat

/-- What the handler of a connection has still to do about what it has read. -/
inductive Job where
  | reply (m : ServerMessage)
  /-- Makes a list of all others, as they are then. -/
  | announce (m : ServerMessage)
  /-- Queues a notice for each on the list, in any order. -/
  | deliver (ids : List ConnectionId) (m : ServerMessage)
  /-- Takes the connection's own entry out of the directory. -/
  | withdraw
  /-- From then on nothing is announced to the connection. -/
  | forget
  deriving DecidableEq, Repr

namespace Server

/-- How a connection ends. -/
def closing : List Job := [.withdraw, .forget]

/-- The first step of a registration, and the jobs that are left. -/
def beginRegister (s : Server) (c : Connection) (name : String) (port : UInt16) :
    Server × List Job :=
  match s.directory.insert ⟨name, c.address, port⟩ (some c.id) with
  | .ok (directory, others) =>
    (({ s with directory } : Server).update c.id fun c => { c with phase := .registered name },
      [.reply (.peerList others), .announce (.newcomer name)])
  | .error (.nameTaken _) => (s, [.reply .nameTaken])
  | .error (.full _) => (s, [.reply .serverFull])

def beginCommand (s : Server) (c : Connection) (command : Command) : Server × List Job :=
  match c.phase, command with
  | .registering, .register name port => s.beginRegister c name port
  | .registered own, .listPeers => (s, [.reply (.peerList (s.directory.peers (some own)))])
  | .registered _, .remove name => ({ s with directory := s.directory.erase name }, closing)
  | .registered _, .reportGone name => ({ s with directory := s.directory.erase name }, [])
  | _, _ => (s, [.reply .invalidCommand])

/-- The first step that is made about what was read, and the jobs that are left. -/
def begin (s : Server) (c : Connection) : Line.Item → Server × List Job
  | .text line =>
    if Text.trim line = "" then (s, [])
    else match Command.parse line with
      | .ok command => s.beginCommand c command
      | .error _ => (s, [.reply .invalidCommand])
  | .tooLong | .ended => (s, closing)

/-- The step that takes a connection's entry out of the directory. -/
def withdrawOwn (s : Server) (id : ConnectionId) : Server :=
  match s.connection? id with
  | some c => s.withdraw c
  | none => s

def forget (s : Server) (id : ConnectionId) : Server :=
  s.update id fun c => { c with phase := .closed, unread := [] }

/-- Hands the first message of an outbox to the network. -/
def unqueue (s : Server) (id : ConnectionId) : Server :=
  s.update id fun c => { c with outbox := c.outbox.drop 1 }

end Server

end PeerChat
