import PeerChat.Network

/-!
# Clients in a crowd

Any number of clients and one rendezvous server, beside others who connect to the server and say what
they like, and with losses: a connection can fail for either side at any time, notices are dropped where
an outbox is full or gone, and a handler that cannot reply ends its connection. Besides, all goes on as
in a network that loses nothing.
-/

namespace PeerChat

/-- A read has failed: what had come of an unfinished line is lost. It is left open with which cause;
the client is told of the end. -/
def Inbox.fail (i : Inbox) : Inbox :=
  let whole := i.size - (Line.items Line.maxSize false (i.buffer ++ i.arrived)).2.length
  ⟨i.buffer.take whole, i.arrived.take (whole - i.buffer.length), true⟩

def Link.fail (l : Link) : Link := serverEnded { l with listener := { l.listener with unread := [] } }

namespace Client

/-- Whether the client has come to the end of what it can read from the server. -/
def hasEnd (c : Client) : Bool := c.inbox.any (·.ended) || c.link.any (·.listener.finished)

def onServerFailed (c : Client) : Client :=
  { c with inbox := c.inbox.map Inbox.fail, link := c.link.map Link.fail }

end Client

namespace Network

variable {ι : Type} [DecidableEq ι]

/-- A client comes to the end of a connection that the server has closed behind its last message. -/
def finish (n : Network ι) (i : ι) : Network ι :=
  match n.place i with
  | .connected id =>
    match n.server.connection? id with
    | some c =>
      if c.phase = .closed ∧ c.outbox = [] ∧ (n.channel id).down = [] then
        n.setClient i (n.client i).onServerEnded
      else n
    | none => n
  | _ => n

/-- A reply for which there is no outbox any more: its handler ends the connection, once the other jobs
are done. -/
def spurn (n : Network ι) (id : ConnectionId) : Network ι :=
  match (n.channel id).jobs with
  | .reply _ :: later => n.setJobs id (later ++ Server.closing)
  | _ => n

/-- A notice for which there is no outbox any more. -/
def miss (n : Network ι) (id target : ConnectionId) : Network ι :=
  match (n.channel id).jobs with
  | .deliver ids m :: later => n.setJobs id (.deliver (ids.erase target) m :: later)
  | _ => n

/-- Something is done to a connection that is nobody's of the clients. -/
def onStranger (n : Network ι) (id : ConnectionId) (f : Channel → Channel) : Network ι :=
  if n.holder id = none ∧ (n.server.connection? id).isSome then n.onChannel id f else n

end Network

namespace Crowd

variable {ι : Type} [DecidableEq ι]

inductive Step (ι : Type) where
  /-- Something happens to a client that does not come from the server. -/
  | event (i : ι) (e : Event)
  | move (i : ι) (source : Source)
  | connect (i : ι)
  | unreachable (i : ι) (cause : TransportError)
  | arrive (i : ι) (count : Nat)
  | finish (i : ι)
  /-- A client cannot read from its connection any more. -/
  | fail (i : ι)
  /-- A client's connection takes nothing any more. -/
  | clog (i : ι)
  | read (id : ConnectionId)
  | work (id : ConnectionId)
  | deliver (id target : ConnectionId)
  | write (id : ConnectionId)
  /-- The server cannot read from a connection any more. -/
  | drop (id : ConnectionId)
  | spurn (id : ConnectionId)
  | miss (id target : ConnectionId)
  /-- Someone else connects to the server. -/
  | enter (address : IpAddress)
  /-- Someone else says something to the server. -/
  | say (id : ConnectionId) (bytes : Bytes)
  | hangUp (id : ConnectionId)

def step (n : Network ι) : Step ι → Network ι
  | .event i e => n.step (.event i e)
  | .move i source => n.step (.move i source)
  | .connect i => n.step (.connect i)
  | .unreachable i cause => n.step (.unreachable i cause)
  | .arrive i count => if (n.client i).hasEnd then n else n.arrive i count
  | .finish i => n.finish i
  | .fail i => n.setClient i (n.client i).onServerFailed
  | .clog i => n.setClient i { n.client i with serverWritable := false }
  | .read id => n.read id
  | .work id => n.work id
  | .deliver id target => n.deliver id target
  | .write id => n.write id
  | .drop id => if (n.server.connection? id).isSome then n.step (.drop id) else n
  | .spurn id => n.spurn id
  | .miss id target => n.miss id target
  | .enter address => { n with server := n.server.accept address }
  | .say id bytes => n.onStranger id fun ch => { ch with up := ch.up ++ bytes }
  | .hangUp id => n.onStranger id fun ch => { ch with upEnded := true }

def run (n : Network ι) (steps : List (Step ι)) : Network ι := steps.foldl step n

end Crowd

end PeerChat
