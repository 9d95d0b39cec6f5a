import PeerChat.Client.Incidents
import PeerChat.Exchange

/-!
# A client and whoever calls it

One client, and any number of connections to it on which anything can come.  The client meets with
whatever its world holds, one turn after the other; beside it the attendants of the calls go on one by
one, by the status that is shown.  In which order all this happens is open, and a step that cannot be
made changes nothing.
-/

namespace PeerChat

/-- An attendant who finds a request complete tests at once whether the client is busy, and one who has to
deny a request does so at once.  Between the test and the queue anything can happen. -/
def Attendant.serve (busy : Bool) (r : Reception) (a : Attendant) :
    Attendant × Reception × List Reception.Effect :=
  let (b, s, effects) := a.step busy r
  match b with
  | .testing _ =>
    let (b, s, tested) := b.step busy s
    match b with
    | .denying _ =>
      let (b, s, denied) := b.step busy s
      (b, s, effects ++ tested ++ denied)
    | b => (b, s, effects ++ tested)
  | .denying _ =>
    let (b, s, denied) := b.step busy s
    (b, s, effects ++ denied)
  | b => (b, s, effects)

/-- The caller that an effect is for. -/
def Effect.caller? : Effect → Option CallerId
  | .send (.caller id) _ | .close (.caller id) => some id
  | _ => none

/-- Whether an incident is one of a connection to the client. -/
def Incident.isInbound : Incident → Bool
  | .act (.event (.callerConnected ..)) | .act (.event (.sent (.caller _) _))
  | .act (.event (.ended (.caller _))) => true
  | _ => false

/-- Yes or no, if an answer can be recognised. -/
def Turn.readAnswer (line : String) : Option Bool :=
  let answer := (Text.trim line).toLower
  if isYes answer then some true else if isNo answer then some false else none

namespace Client

/-- The caller on the direct connection. -/
def guest (c : Client) : Option CallerId :=
  c.direct.bind fun d =>
    match d.party with
    | .caller id => some id
    | .dialed => none

/-- The line that is taken as an answer to a question about a call. -/
def answer? (c : Client) : Incident → Option String
  | .act (.move .keyboard) =>
    match c.task with
    | .deciding _ => c.typed.head?
    | _ => none
  | _ => none

/-- The request that is put to the user. -/
def puts? (c : Client) : Incident → Option Call
  | .act (.move .calls) =>
    match c.task with
    | .idle => c.reception.queue.head?
    | _ => none
  | _ => none

end Client

structure Lobby where
  client : Client
  /-- The status that attendants see. -/
  board : Status
  /-- Whether the last turn is over. -/
  ready : Bool
  attendant : CallerId → Option Attendant
  /-- All that has come on a connection. -/
  said : CallerId → Bytes
  next : CallerId
  /-- All that the client has brought about. -/
  log : List Effect

namespace Lobby

def setAttendant (n : Lobby) (id : CallerId) (a : Attendant) : Lobby :=
  { n with attendant := fun k => if k = id then some a else n.attendant k }

def hear (n : Lobby) (id : CallerId) (bytes : Bytes) : Lobby :=
  { n with said := fun k => if k = id then n.said k ++ bytes else n.said k }

def carryOut (n : Lobby) (t : Turn) : Lobby :=
  { n with client := t.client, log := n.log ++ t.effects }

/-- A turn begins: a status that makes the client busy is shown at once. -/
def turn (n : Lobby) (t : Turn) : Lobby :=
  { n.carryOut t with
    board := if t.client.status.isBusy then t.client.status else n.board
    ready := false }

/-- A turn is over: the status is shown, whatever it is. -/
def rest (n : Lobby) : Lobby := { n with board := n.client.status, ready := true }

def meet (n : Lobby) (x : Incident) : Lobby :=
  if n.ready && !x.isInbound then n.turn (n.client.meet x) else n

/-- A client that has a call to put to the user goes on denying what is in the queue, until it has
found nothing there. -/
def drain (n : Lobby) : Lobby :=
  match n.client.task with
  | .deciding _ =>
    if n.ready then n
    else n.carryOut ((Turn.of n.client).receive n.client.reception.denyQueued)
  | _ => n

/-- A connection is there, and has an attendant. -/
def connect (n : Lobby) (address : IpAddress) : Lobby :=
  if n.client.isListening then
    { n with next := n.next + 1 }.setAttendant n.next (.reading ⟨n.next, address, [], false⟩)
  else n

/-- The attendant of a connection goes on. -/
def attend (n : Lobby) (id : CallerId) : Lobby :=
  match n.attendant id with
  | some a =>
    if n.client.isAttending then
      let (b, outcome) := a.serve n.board.isBusy n.client.reception
      (n.setAttendant id b).carryOut ((Turn.of n.client).receive outcome)
    else n
  | none => n

/-- Bytes come on a connection, or it ends behind them. -/
def arrive (n : Lobby) (id : CallerId) (bytes : Bytes) (ended : Bool) : Lobby :=
  match n.attendant id with
  | some .done =>
    if n.ready then (n.hear id bytes).turn (n.client.onDirect (.caller id) bytes ended) else n
  | some a => (n.hear id bytes).setAttendant id (a.receive bytes ended)
  | none => n

/-- A connection is lost on which a request is still to come. -/
def lose (n : Lobby) (id : CallerId) : Lobby :=
  match n.attendant id with
  | some (.reading _) =>
    (n.setAttendant id .done).carryOut
      ((Turn.of n.client).receive (n.client.reception, [.drop id]))
  | _ => n

inductive Step where
  /-- The client meets with something that does not come on one of these connections. -/
  | meet (x : Incident)
  | rest
  | drain
  | connect (address : IpAddress)
  | attend (id : CallerId)
  | arrive (id : CallerId) (bytes : Bytes) (ended : Bool)
  | lose (id : CallerId)

def step (n : Lobby) : Step → Lobby
  | .meet x => n.meet x
  | .rest => n.rest
  | .drain => n.drain
  | .connect address => n.connect address
  | .attend id => n.attend id
  | .arrive id bytes ended => n.arrive id bytes ended
  | .lose id => n.lose id

def run (n : Lobby) (steps : List Step) : Lobby := steps.foldl step n

/-- Nobody has called the client yet. -/
def start (settings : Settings) (entropy : Entropy) : Lobby :=
  { client := (Client.start settings entropy).client
    board := .disconnected
    ready := true
    attendant := fun _ => none
    said := fun _ => []
    next := 0
    log := (Client.start settings entropy).effects }

/-! ## What is said of a run -/

/-- What the client has done on a connection. -/
def told (n : Lobby) (id : CallerId) : List Effect := n.log.filter fun e => e.caller? = some id

/-- The request that a step puts to the user. -/
def puts? (n : Lobby) : Step → Option Call
  | .meet x => if n.ready then n.client.puts? x else none
  | _ => none

/-- The line that a step takes as an answer to a question about a call. -/
def answer? (n : Lobby) : Step → Option String
  | .meet x => if n.ready then n.client.answer? x else none
  | _ => none

/-- The lines that are taken as answers along a run. -/
def answers (n : Lobby) : List Step → List String
  | [] => []
  | s :: steps => (n.answer? s).toList ++ (n.step s).answers steps

end Lobby

end PeerChat
