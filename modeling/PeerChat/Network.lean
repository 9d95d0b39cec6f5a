import PeerChat.Client.Run
import PeerChat.Server.Jobs

/-!
# Clients and their server

Any number of clients and one rendezvous server, with all that is on its way between them. The
system makes one small step at a time: a client takes down an event or makes a move, a handler of
the server reads a line or does the next of its jobs, bytes are carried on. In which order these
come is open. A client holds one connection at a time; what it has sent on a former one is still
read by the server. A step that cannot be made changes nothing.
-/

namespace PeerChat

/-- A connection as the network has it. -/
structure Channel where
  /-- What the client has sent and the server has not read. -/
  up : Bytes := []
  /-- Whether the client has ended the connection. -/
  upEnded : Bool := false
  /-- What the server has sent and the client has not received. -/
  down : Bytes := []
  /-- What the connection's handler has still to do. -/
  jobs : List Job := []
  /-- All that was ever queued for the connection, in order. -/
  told : List ServerMessage := []
  deriving DecidableEq, Repr

/-- Where a client is with its connection to the server. -/
inductive Place where
  | none
  | reaching
  | connected (id : ConnectionId)
  deriving DecidableEq, Repr

structure Network (ι : Type) where
  /-- Where the clients' connections come from. -/
  address : ι → IpAddress
  server : Server
  channel : ConnectionId → Channel
  client : ι → Client
  place : ι → Place
  /-- Whose connection it is or was. -/
  holder : ConnectionId → Option ι
  /-- No line was dropped for a full outbox, and no connection was lost. -/
  intact : Bool

namespace Network

variable {ι : Type} [DecidableEq ι]

def onChannel (n : Network ι) (id : ConnectionId) (f : Channel → Channel) : Network ι :=
  { n with channel := fun j => if j = id then f (n.channel j) else n.channel j }

def setClient (n : Network ι) (i : ι) (c : Client) : Network ι :=
  { n with client := fun j => if j = i then c else n.client j }

def setPlace (n : Network ι) (i : ι) (place : Place) : Network ι :=
  { n with place := fun j => if j = i then place else n.place j }

/-! ## Clients -/

/-- What a client does to its connection. -/
def route (n : Network ι) (i : ι) : Effect → Network ι
  | .connectServer => n.setPlace i .reaching
  | .sendServer bytes =>
    match n.place i with
    | .connected id => n.onChannel id fun ch => { ch with up := ch.up ++ bytes }
    | _ => n
  | .closeServer =>
    match n.place i with
    | .connected id => (n.onChannel id fun ch => { ch with upEnded := true }).setPlace i .none
    | _ => n.setPlace i .none
  | _ => n

/-- A client's turn, with all that it brings about. -/
def turn (n : Network ι) (i : ι) (t : Turn) : Network ι :=
  t.effects.foldl (fun n e => n.route i e) (n.setClient i t.client)

/-- The connection that a client has been reaching for is there, for the server and the client. -/
def connect (n : Network ι) (i : ι) : Network ι :=
  let id := n.server.nextId
  let n : Network ι :=
    { n with
      server := n.server.accept (n.address i)
      holder := fun j => if j = id then some i else n.holder j }
  (n.setPlace i (.connected id)).turn i (n.client i).onServerConnected

/-- Bytes from the server arrive. -/
def arrive (n : Network ι) (i : ι) (count : Nat) : Network ι :=
  match n.place i with
  | .connected id =>
    (n.setClient i ((n.client i).onServerSent ((n.channel id).down.take count))).onChannel id
      fun ch => { ch with down := ch.down.drop count }
  | _ => n

/-! ## The server's handlers -/

/-- Queues a message, or drops it where there is no room. -/
def queue (n : Network ι) (id : ConnectionId) (m : ServerMessage) : Network ι :=
  if n.server.hasRoom id then
    { n with server := n.server.queue id m }.onChannel id fun ch => { ch with told := ch.told ++ [m] }
  else { n with intact := false }

def setJobs (n : Network ι) (id : ConnectionId) (jobs : List Job) : Network ι :=
  n.onChannel id fun ch => { ch with jobs }

/-- What is done first about an item that was read from `id`; `rest` is not read. -/
def take (n : Network ι) (c : Connection) (item : Line.Item) (rest : Bytes) : Network ι :=
  { n with server := (n.server.begin c item).1 }.onChannel c.id fun ch =>
    { ch with up := rest, jobs := (n.server.begin c item).2 }

/-- A handler that has nothing to do reads on. -/
def read (n : Network ι) (id : ConnectionId) : Network ι :=
  match n.server.connection? id with
  | some c =>
    if c.phase = .closed ∨ (n.channel id).jobs ≠ [] then n
    else match Line.read Line.maxSize (n.channel id).upEnded (n.channel id).up with
      | .line s rest => n.take c (.text s) rest
      | .tooLong rest => n.take c .tooLong rest
      | .ended => n.take c .ended []
      | .incomplete => n
  | none => n

/-- A handler does its next job; a reply for which there is no room ends the connection, once the
other jobs are done. -/
def work (n : Network ι) (id : ConnectionId) : Network ι :=
  match (n.channel id).jobs with
  | .reply m :: later =>
    if n.server.hasRoom id then (n.setJobs id later).queue id m
    else { n with intact := false }.setJobs id (later ++ Server.closing)
  | .announce m :: later => n.setJobs id (.deliver (n.server.audience id) m :: later)
  | .deliver [] _ :: later => n.setJobs id later
  | .deliver (_ :: _) _ :: _ => n
  | .withdraw :: later => { n with server := n.server.withdrawOwn id }.setJobs id later
  | .forget :: later => { n with server := n.server.forget id }.setJobs id later
  | [] => n

/-- A handler queues its notice for one of those who are to get it. -/
def deliver (n : Network ι) (id target : ConnectionId) : Network ι :=
  match (n.channel id).jobs with
  | .deliver ids m :: later =>
    if target ∈ ids then (n.setJobs id (.deliver (ids.erase target) m :: later)).queue target m
    else n
  | _ => n

/-- The first message of an outbox is written. -/
def write (n : Network ι) (id : ConnectionId) : Network ι :=
  match n.server.connection? id with
  | some c =>
    match c.outbox with
    | m :: _ =>
      { n with server := n.server.unqueue id }.onChannel id fun ch =>
        { ch with down := ch.down ++ Utf8.encode m.text }
    | [] => n
  | none => n

/-! ## Steps -/

inductive Step (ι : Type) where
  /-- Something happens to a client that does not come from the server. -/
  | event (i : ι) (e : Event)
  | move (i : ι) (source : Source)
  | connect (i : ι)
  | unreachable (i : ι) (cause : TransportError)
  | arrive (i : ι) (count : Nat)
  /-- A client finds that its connection has ended, or takes nothing any more. -/
  | lose (i : ι) (broken : Bool)
  | read (id : ConnectionId)
  | work (id : ConnectionId)
  | deliver (id target : ConnectionId)
  | write (id : ConnectionId)
  /-- The server cannot read from a connection any more. -/
  | drop (id : ConnectionId)

def step (n : Network ι) : Step ι → Network ι
  | .event i e => if e.isLocal then n.turn i ((n.client i).onEvent e) else n
  | .move i source =>
    match (n.client i).move? source with
    | some t => n.turn i t
    | none => n
  | .connect i => if n.place i = .reaching then n.connect i else n
  | .unreachable i cause =>
    if n.place i = .reaching then
      (n.setPlace i .none).turn i ((n.client i).onServerUnreachable cause)
    else n
  | .arrive i count => n.arrive i count
  | .lose i broken =>
    { n with intact := false }.turn i
      ((n.client i).onEvent (if broken then .serverBroken else .serverEnded))
  | .read id => n.read id
  | .work id => n.work id
  | .deliver id target => n.deliver id target
  | .write id => n.write id
  | .drop id =>
    { n with intact := false }.setJobs id ((n.channel id).jobs ++ Server.closing)

def run (n : Network ι) (steps : List (Step ι)) : Network ι := steps.foldl step n

/-- Nobody is connected yet. -/
def start (capacity : Nat) (address : ι → IpAddress) (settings : ι → Settings)
    (entropy : ι → Entropy) : Network ι :=
  { address
    server := .start (.empty capacity)
    channel := fun _ => {}
    client := fun i => (Client.start (settings i) (entropy i)).client
    place := fun _ => .none
    holder := fun _ => none
    intact := true }

/-- The networks that can come about. -/
def Reachable (n : Network ι) : Prop :=
  ∃ capacity address settings entropy steps, (start capacity address settings entropy).run steps = n

/-! ## Rest -/

/-- Nothing is on its way: outboxes, connections and handlers have nothing left, and every client
waits in its main loop with nothing from the server to attend to. -/
structure Quiescent (n : Network ι) : Prop where
  jobs : ∀ c ∈ n.server.connections, (n.channel c.id).jobs = []
  outbox : ∀ c ∈ n.server.connections, c.outbox = []
  up : ∀ c ∈ n.server.connections, (n.channel c.id).up = []
  down : ∀ c ∈ n.server.connections, (n.channel c.id).down = []
  idle : ∀ i, (n.client i).task = .idle
  attended : ∀ i, (n.client i).moveServer.isNone

end Network

end PeerChat
