import PeerChat.Client.Moves

/-!
# Running a client

Events from outside are taken down; then the client moves from one of its sources at a time: its
own next step, the user's lines, calls, the server, the direct connection. Where several have
something, any order is a possible run; `settle` takes them in this order until nothing is left.
The reception opens when the client is idle for the first time and has nothing else to do.
-/

namespace PeerChat

inductive Source where
  | own
  | keyboard
  | calls
  | server
  | direct
  | reception
  deriving DecidableEq, Repr

inductive Event where
  | typed (line : String)
  | inputEnded
  /-- Calls are taken, on this port. -/
  | listening (port : UInt16)
  | cannotListen (cause : TransportError)
  | serverConnected
  | serverUnreachable (cause : TransportError)
  | serverSent (bytes : Bytes)
  | serverEnded
  /-- The server takes nothing any more. -/
  | serverBroken
  | dialed
  | dialFailed (cause : TransportError)
  | callerConnected (id : CallerId) (address : IpAddress)
  | sent (party : Party) (bytes : Bytes)
  | ended (party : Party)
  /-- The party takes nothing any more. -/
  | broken (party : Party)
  deriving DecidableEq, Repr

/-- Whether an event comes from elsewhere than the server. Nobody takes calls on port zero. -/
def Event.isLocal : Event → Bool
  | .serverConnected | .serverUnreachable _ | .serverSent _ | .serverEnded | .serverBroken => false
  | .listening port => port ≠ 0
  | _ => true

namespace Client

/-! ## Moves by source -/

def moveOwn (c : Client) : Option Turn :=
  match c.task with
  | .registered => some (Turn.of c).enterLoop
  | _ => none

/-- A typed line, for whoever waits for one. -/
def onLine (c : Client) (line : String) : Turn :=
  let t := Turn.of c
  match c.task with
  | .choosingPort => t.offerPort (Text.trim line)
  | .choosingName => t.offerName (Text.trim line)
  | .idle => t.obey line
  | .choosingEndpoint => t.obeyAnonymous line
  | .deciding name => t.decideCall name line
  | .chatting chat => t.typeInChat chat line
  | _ => t

/-- The end of the input, for whoever waits for a line. -/
def onInputEnd (c : Client) : Turn :=
  let t := Turn.of c
  match c.task with
  | .choosingPort => t.fail (.told "stdin closed")
  | .choosingName => t.closeInbox.fail (.told "stdin closed before registration")
  | .idle => t.withdraw.finish (.ok ())
  | .choosingEndpoint => (t.printLine Texts.goodbye).finish (.ok ())
  | .deciding name => t.denyCall name
  | .chatting chat => t.continueChat chat.endInput
  | _ => t

/-- Whether the client waits for the user. -/
def awaitsLine (c : Client) : Bool :=
  match c.task with
  | .choosingPort | .choosingName | .idle | .choosingEndpoint | .deciding _ | .chatting _ => true
  | _ => false

def moveKeyboard (c : Client) : Option Turn :=
  if c.awaitsLine then
    match c.typed with
    | line :: typed => some (onLine { c with typed } line)
    | [] => if c.inputEnded then some (onInputEnd c) else none
  else none

def moveCalls (c : Client) : Option Turn :=
  match c.task, c.reception.take? with
  | .idle, some (call, reception) => some ((Turn.of c).askUser call reception)
  | _, _ => none

def moveReception (c : Client) : Option Turn :=
  match c.task with
  | .idle => if c.reception.isOpen then none else some (Turn.of c).openReception
  | _ => none

/-- The reply to a registration. -/
def onReply (c : Client) (inbox : Inbox) (outcome : SignUp) : Turn :=
  match c.task with
  | .signingUp name => (Turn.of c).concludeSignUp name inbox outcome
  | _ => (Turn.of c).concludeReturn inbox outcome

def moveServer (c : Client) : Option Turn :=
  match c.task with
  | .signingUp _ | .rejoining =>
    c.inbox.bind fun inbox =>
      match inbox.awaitReply with
      | (some outcome, later) => some (c.onReply later outcome)
      | (none, later) => if later = inbox then none else some ((Turn.of c).setInbox later)
  | .idle =>
    match c.link with
    | some link =>
      match link.updates with
      | update :: updates =>
        some ((Turn.of { c with link := some { link with updates } }).handleUpdate update)
      | [] => if link.isOver then some (Turn.of c).loseLink else none
    | none => none
  | _ => none

def moveDirect (c : Client) : Option Turn :=
  let t := Turn.of c
  match c.direct with
  | none => none
  | some d =>
    match c.task with
    | .asking target =>
      match Negotiation.readVerdict d.ended d.incoming with
      | .waiting => none
      | .failed cause => some (t.concludeAsking target (.error cause))
      | .done verdict => some (t.concludeAsking target (.ok verdict))
    | .concluding remote key =>
      match Handshake.conclude c.settings.kem key d.ended d.incoming with
      | .waiting => none
      | .failed _ => some (t.failKeyExchange remote)
      | .done (keys, rest) => some (t.openSession remote .initiator keys rest)
    | .responding remote =>
      match Handshake.respond c.settings.kem c.entropy d.ended d.incoming with
      | (.waiting, _) => none
      | (.failed _, pool) => some ((Turn.of { c with entropy := pool }).failKeyExchange remote)
      | (.done answer, pool) => some ((Turn.of { c with entropy := pool }).answerKey remote answer)
    | .chatting chat =>
      if d.incoming.isEmpty && !d.ended then none
      else
        let (chat, events) := chat.receive d.ended d.incoming
        some (((t.keepIncoming []).printEvents events).continueChat chat)
    | _ => none

/-- The next move from a source, if there is one. -/
def move? (c : Client) : Source → Option Turn
  | .own => c.moveOwn
  | .keyboard => c.moveKeyboard
  | .calls => c.moveCalls
  | .server => c.moveServer
  | .direct => c.moveDirect
  | .reception => c.moveReception

/-! ## Events -/

/-- Where a client begins. -/
def start (settings : Settings) (entropy : Entropy) : Turn :=
  let c : Client :=
    { settings
      port := 0
      name := ""
      status := .disconnected
      peers := []
      inbox := none
      link := none
      direct := none
      reception := .start 8 false
      typed := []
      inputEnded := false
      serverWritable := true
      entropy
      task := .choosingPort }
  if settings.anonymous then ((Turn.of c).printLine Texts.anonymousMode).askEndpoint
  else match settings.port with
    | some port => (Turn.of c).bind port
    | none => (Turn.of c).askPort

/-- The connection to the server is there. -/
def onServerConnected (c : Client) : Turn :=
  let t := Turn.of { c with inbox := some .empty, serverWritable := true }
  match c.task with
  | .reaching =>
    let t := t.setStatus .connected
    match c.settings.name with
    | some name => t.offerName name
    | none => t.askName
  | .returning =>
    (t.setStatus .connected).sendRegistration c.name .rejoining fun t =>
      (t.closeInbox.printLine Texts.serverOutOfReach).toIdle
  | _ => Turn.of c

def onServerUnreachable (c : Client) (cause : TransportError) : Turn :=
  match c.task with
  | .reaching => (Turn.of c).fail (.failed (.transport cause))
  | .returning => ((Turn.of c).printLine Texts.serverOutOfReach).toIdle
  | _ => Turn.of c

/-- Bytes from the server go to whatever connection there is. -/
def onServerSent (c : Client) (bytes : Bytes) : Client :=
  { c with
    inbox := c.inbox.map (·.receive bytes)
    link := c.link.map (·.receive bytes) }

def onServerEnded (c : Client) : Client :=
  { c with
    inbox := c.inbox.map Inbox.serverEnded
    link := c.link.map Link.serverEnded }

/-- Bytes from a caller that is not in a session, or the end of what it sends. -/
def onReception (c : Client) (party : Party) (bytes : Bytes) (ended : Bool) : Turn :=
  match party with
  | .caller id => (Turn.of c).receive (c.reception.receive c.status.isBusy id bytes ended)
  | .dialed => Turn.of c

/-- Bytes on a direct connection, or its end: for the session, or for the reception. -/
def onDirect (c : Client) (party : Party) (bytes : Bytes) (ended : Bool) : Turn :=
  match c.direct with
  | some d =>
    if d.party = party then
      (Turn.of c).setDirect
        (some { d with incoming := d.incoming ++ bytes, ended := d.ended || ended })
    else c.onReception party bytes ended
  | none => c.onReception party bytes ended

def onBroken (c : Client) (party : Party) : Client :=
  { c with
    direct := c.direct.map fun d => if d.party = party then { d with writable := false } else d }

def onEvent (c : Client) (e : Event) : Turn :=
  let t := Turn.of c
  match e with
  | .typed line => Turn.of { c with typed := c.typed ++ [line] }
  | .inputEnded => Turn.of { c with inputEnded := true }
  | .listening port =>
    match c.task with
    | .binding => ((Turn.of { c with port }).emit .connectServer).setTask .reaching
    | _ => t
  | .cannotListen cause =>
    match c.task with
    | .binding => t.fail (.cannotListen cause)
    | _ => t
  | .serverConnected => c.onServerConnected
  | .serverUnreachable cause => c.onServerUnreachable cause
  | .serverSent bytes => Turn.of (c.onServerSent bytes)
  | .serverEnded => Turn.of c.onServerEnded
  | .serverBroken => Turn.of { c with serverWritable := false }
  | .dialed =>
    match c.task with
    | .dialing target => t.startAsking target
    | _ => t
  | .dialFailed cause =>
    match c.task with
    | .dialing target => t.failDial target cause
    | _ => t
  | .callerConnected id address =>
    Turn.of { c with reception := c.reception.connect id address }
  | .sent party bytes => c.onDirect party bytes false
  | .ended party => c.onDirect party [] true
  | .broken party => Turn.of (c.onBroken party)

/-! ## Running until nothing moves -/

def moveAny (c : Client) : Option Turn :=
  [Source.own, .keyboard, .calls, .server, .direct, .reception].findSome? c.move?

/-- More moves than a client can make without another event. -/
def workload (c : Client) : Nat :=
  let inboxSize := match c.inbox with
    | some i => i.buffer.length + i.arrived.length
    | none => 0
  let linkSize := match c.link with
    | some l => l.updates.length
    | none => 0
  let directSize := match c.direct with
    | some d => d.incoming.length
    | none => 0
  c.typed.length + inboxSize + linkSize + directSize + c.reception.queue.length +
    c.reception.waiting.length + 16

def settleFor : (fuel : Nat) → Turn → Turn
  | 0, t => t
  | fuel + 1, t =>
    match t.client.moveAny with
    | some next => settleFor fuel ⟨next.client, t.effects ++ next.effects⟩
    | none => t

/-- Moves until nothing is left to do before the next event. -/
def settle (t : Turn) : Turn := settleFor t.client.workload t

def handle (c : Client) (e : Event) : Turn := settle (c.onEvent e)

/-- Events one after the other, behind what a turn has brought about. -/
def handleAll (t : Turn) (events : List Event) : Turn :=
  events.foldl
    (fun t e =>
      let next := t.client.handle e
      ⟨next.client, t.effects ++ next.effects⟩)
    t

def isOver (c : Client) : Bool :=
  match c.task with
  | .over _ => true
  | _ => false

end Client

end PeerChat
