import PeerChat.Client.Attendant
import PeerChat.Client.Run

/-!
# Clients that call each other

Any number of clients with the connections between them; the rendezvous server can say anything at
any time. A client makes one turn after the other. What a turn sends is on its way at once, and
arrives whenever it does. A turn that makes the client busy shows so before all else; a status that
frees the client is shown when the turn is over. Beside the client, the attendants of its calls make
their steps one by one, and they go by the status that is shown. In which order all this happens is
open. A step that cannot be made changes nothing.
-/

namespace PeerChat

/-- The connection that a client has asked for. -/
inductive Outgoing where
  | none
  | reaching (endpoint : Endpoint)
  | connected (id : CallerId)
  deriving DecidableEq, Repr

/-- A connection between two clients. -/
structure Contact (ι : Type) where
  id : CallerId
  caller : ι
  callee : ι
  /-- What is on its way to the callee. -/
  toCallee : Bytes
  toCaller : Bytes
  attendant : Attendant
  deriving DecidableEq, Repr

inductive Side where
  | caller
  | callee
  deriving DecidableEq, Repr

/-- The other end of a connection, as this side knows it. -/
def Side.party (id : CallerId) : Side → Party
  | caller => .dialed
  | callee => .caller id

namespace Contact

variable {ι : Type}

def who (c : Contact ι) : Side → ι
  | .caller => c.caller
  | .callee => c.callee

def underway (c : Contact ι) : Side → Bytes
  | .caller => c.toCaller
  | .callee => c.toCallee

/-- So many bytes have arrived. -/
def drop (c : Contact ι) (count : Nat) : Side → Contact ι
  | .caller => { c with toCaller := c.toCaller.drop count }
  | .callee => { c with toCallee := c.toCallee.drop count }

end Contact

namespace Client

/-- Whether calls to the client get through. -/
def isListening (c : Client) : Bool :=
  match c.task with
  | .choosingPort | .binding | .over _ => false
  | _ => !c.settings.anonymous

/-- Calls are attended to from the moment at which the client has signed up. -/
def isAttending (c : Client) : Bool :=
  match c.task with
  | .choosingPort | .binding | .reaching | .choosingName | .signingUp _ => false
  | _ => true

/-- The client waits for the answer to a request. -/
def isAsking (c : Client) : Bool :=
  match c.task with
  | .asking _ => true
  | _ => false

end Client

/-- Whether an event is about direct connections. -/
def Event.isDirect : Event → Bool
  | .dialed | .dialFailed _ | .callerConnected .. | .sent .. | .ended _ | .broken _ => true
  | _ => false

structure Exchange (ι : Type) where
  /-- Where the clients' calls come from. -/
  address : ι → IpAddress
  /-- The endpoints at which a client can be called. -/
  site : ι → Endpoint → Bool
  client : ι → Client
  /-- The status that attendants see. -/
  board : ι → Status
  /-- Whether the last turn is over. -/
  ready : ι → Bool
  outgoing : ι → Outgoing
  contact : CallerId → Option (Contact ι)
  next : CallerId

namespace Exchange

variable {ι : Type} [DecidableEq ι]

def setClient (n : Exchange ι) (i : ι) (c : Client) : Exchange ι :=
  { n with client := fun j => if j = i then c else n.client j }

def setBoard (n : Exchange ι) (i : ι) (status : Status) : Exchange ι :=
  { n with board := fun j => if j = i then status else n.board j }

def setReady (n : Exchange ι) (i : ι) (ready : Bool) : Exchange ι :=
  { n with ready := fun j => if j = i then ready else n.ready j }

def setOutgoing (n : Exchange ι) (i : ι) (outgoing : Outgoing) : Exchange ι :=
  { n with outgoing := fun j => if j = i then outgoing else n.outgoing j }

def setContact (n : Exchange ι) (c : Contact ι) : Exchange ι :=
  { n with contact := fun id => if id = c.id then some c else n.contact id }

def onContact (n : Exchange ι) (id : CallerId) (f : Contact ι → Contact ι) : Exchange ι :=
  { n with contact := fun k => if k = id then (n.contact k).map f else n.contact k }

/-! ## Turns -/

/-- What a client does to direct connections. Their ends are seen at any time, so closing one is no
more than giving it up. -/
def route (n : Exchange ι) (i : ι) : Effect → Exchange ι
  | .dial endpoint => n.setOutgoing i (.reaching endpoint)
  | .send .dialed bytes =>
    match n.outgoing i with
    | .connected id => n.onContact id fun c => { c with toCallee := c.toCallee ++ bytes }
    | _ => n
  | .send (.caller id) bytes => n.onContact id fun c => { c with toCaller := c.toCaller ++ bytes }
  | .close .dialed => n.setOutgoing i .none
  | _ => n

def carryOut (n : Exchange ι) (i : ι) (t : Turn) : Exchange ι :=
  t.effects.foldl (fun n e => n.route i e) (n.setClient i t.client)

/-- A turn begins: a status that makes the client busy is shown at once. -/
def turn (n : Exchange ι) (i : ι) (t : Turn) : Exchange ι :=
  let n := if t.client.status.isBusy then n.setBoard i t.client.status else n
  (n.carryOut i t).setReady i false

/-- A turn is over: the status is shown, whatever it is. -/
def rest (n : Exchange ι) (i : ι) : Exchange ι :=
  (n.setBoard i (n.client i).status).setReady i true

/-- A client that has a call to put to the user goes on denying what is in the queue, until it has
found nothing there. -/
def drain (n : Exchange ι) (i : ι) : Exchange ι :=
  match (n.client i).task with
  | .deciding _ =>
    if n.ready i then n
    else n.carryOut i ((Turn.of (n.client i)).receive (n.client i).reception.denyQueued)
  | _ => n

/-! ## Connections -/

/-- A connection is there: it has an attendant, and the caller sends its request. -/
def connect (n : Exchange ι) (i j : ι) : Exchange ι :=
  let c : Contact ι :=
    { id := n.next
      caller := i
      callee := j
      toCallee := []
      toCaller := []
      attendant := .reading ⟨n.next, n.address i, [], false⟩ }
  ({ n with next := n.next + 1 }.setContact c |>.setOutgoing i (.connected c.id)).turn i
    ((n.client i).onEvent .dialed)

/-- Whether a client of these can be reached where the other calls. -/
def reaches (n : Exchange ι) (i j : ι) : Bool :=
  match n.outgoing i with
  | .reaching endpoint => n.site j endpoint && (n.client j).isListening
  | _ => false

def isReaching (n : Exchange ι) (i : ι) : Bool :=
  match n.outgoing i with
  | .reaching _ => true
  | _ => false

/-- The attendant of a connection makes its next step. -/
def attend (n : Exchange ι) (id : CallerId) : Exchange ι :=
  match n.contact id with
  | some c =>
    let callee := n.client c.callee
    if callee.isAttending then
      let (attendant, outcome) := c.attendant.step (n.board c.callee).isBusy callee.reception
      (n.onContact id fun c => { c with attendant }).carryOut c.callee
        ((Turn.of callee).receive outcome)
    else n
  | none => n

/-- Whether there is someone on this side to take what arrives. -/
def hears (n : Exchange ι) (c : Contact ι) : Side → Bool
  | .caller => n.outgoing c.caller = .connected c.id && n.ready c.caller
  | .callee => c.attendant ≠ .done || n.ready c.callee

/-- Bytes arrive on one side of a connection, or it ends there. -/
def tell (n : Exchange ι) (c : Contact ι) (side : Side) (bytes : Bytes) (ended : Bool) :
    Exchange ι :=
  if side = .callee ∧ c.attendant ≠ .done then
    n.onContact c.id fun c => { c with attendant := c.attendant.receive bytes ended }
  else n.turn (c.who side) ((n.client (c.who side)).onDirect (side.party c.id) bytes ended)

/-- The first bytes on their way arrive. -/
def arrive (n : Exchange ι) (id : CallerId) (side : Side) (count : Nat) : Exchange ι :=
  match n.contact id with
  | some c =>
    if n.hears c side then
      (n.onContact id fun c => c.drop count side).tell c side ((c.underway side).take count) false
    else n
  | none => n

/-- A connection ends, for one side of it. -/
def endFor (n : Exchange ι) (id : CallerId) (side : Side) : Exchange ι :=
  match n.contact id with
  | some c => if n.hears c side then n.tell c side [] true else n
  | none => n

/-- One side finds that the other takes nothing any more. -/
def breakFor (n : Exchange ι) (id : CallerId) (side : Side) : Exchange ι :=
  match n.contact id with
  | some c =>
    if n.hears c side && n.ready (c.who side) then
      n.turn (c.who side) (.of ((n.client (c.who side)).onBroken (side.party id)))
    else n
  | none => n

/-! ## Steps -/

inductive Step (ι : Type) where
  /-- Something happens to a client that is not about direct connections. -/
  | event (i : ι) (e : Event)
  | move (i : ι) (source : Source)
  | rest (i : ι)
  | drain (i : ι)
  | connect (i j : ι)
  | refuse (i : ι) (cause : TransportError)
  | attend (id : CallerId)
  | arrive (id : CallerId) (side : Side) (count : Nat)
  | endFor (id : CallerId) (side : Side)
  | breakFor (id : CallerId) (side : Side)

def step (n : Exchange ι) : Step ι → Exchange ι
  | .event i e => if n.ready i && !e.isDirect then n.turn i ((n.client i).onEvent e) else n
  | .move i source =>
    if n.ready i then
      match (n.client i).move? source with
      | some t => n.turn i t
      | none => n
    else n
  | .rest i => n.rest i
  | .drain i => n.drain i
  | .connect i j => if n.ready i && n.reaches i j then n.connect i j else n
  | .refuse i cause =>
    if n.ready i && n.isReaching i then
      (n.setOutgoing i .none).turn i ((n.client i).onEvent (.dialFailed cause))
    else n
  | .attend id => n.attend id
  | .arrive id side count => n.arrive id side count
  | .endFor id side => n.endFor id side
  | .breakFor id side => n.breakFor id side

def run (n : Exchange ι) (steps : List (Step ι)) : Exchange ι := steps.foldl step n

/-- Nobody has called anyone yet. -/
def start (address : ι → IpAddress) (site : ι → Endpoint → Bool) (settings : ι → Settings)
    (entropy : ι → Entropy) : Exchange ι :=
  { address
    site
    client := fun i => (Client.start (settings i) (entropy i)).client
    board := fun _ => .disconnected
    ready := fun _ => true
    outgoing := fun _ => .none
    contact := fun _ => none
    next := 0 }

/-- The exchanges that can come about. -/
def Reachable (n : Exchange ι) : Prop :=
  ∃ address site settings entropy steps, (start address site settings entropy).run steps = n

/-! ## Waiting -/

/-- The connection that a client has got. -/
def called (n : Exchange ι) (i : ι) : Option (Contact ι) :=
  match n.outgoing i with
  | .connected id => n.contact id
  | _ => none

/-- The request on this connection has passed the busy test and has no answer: it is in the queue, or
about to enter it. -/
def Forwarded (n : Exchange ι) (c : Contact ι) : Prop :=
  c.attendant.isEntering = true ∨ c.id ∈ (n.client c.callee).reception.queue.map Call.caller

instance (n : Exchange ι) (c : Contact ι) : Decidable (n.Forwarded c) :=
  inferInstanceAs (Decidable (_ ∨ _))

/-- One client waits for another: it has no answer to its request, which lies there. -/
def Awaits (n : Exchange ι) (i j : ι) : Prop :=
  (n.client i).isAsking = true ∧ ∃ c ∈ n.called i, c.callee = j ∧ n.Forwarded c

instance (n : Exchange ι) (i j : ι) : Decidable (n.Awaits i j) :=
  inferInstanceAs (Decidable (_ ∧ ∃ c ∈ n.called i, c.callee = j ∧ n.Forwarded c))

end Exchange

end PeerChat
