import PeerChat.Client.Texts

/-!
# The moves of a client

Each move is a function on a turn. Together they lead a client from its first connection to the
server through calls and sessions to its end.
-/

namespace PeerChat.Turn

/-! ## The server -/

/-- Sends a command to the server, if it takes what is sent. -/
def sendCommand (t : Turn) (command : Command) : Turn :=
  if t.client.serverWritable then t.emit (.sendServer (Line.write command.line)) else t

/-- Leaves the list of peers and gives the link up. -/
def withdraw (t : Turn) : Turn :=
  match t.client.link with
  | some link => ((t.sendCommand (.remove link.name)).emit .closeServer).setLink none
  | none => t

/-- The link is gone. -/
def loseLink (t : Turn) : Turn :=
  ((t.printLine Texts.serverLost).emit .closeServer).setLink none

def refreshPeers (t : Turn) : Turn :=
  if t.client.link.isSome then
    if t.client.serverWritable then t.sendCommand .listPeers else t.loseLink
  else (t.printPeers t.client.peers).printLine Texts.staleList

/-- A peer that cannot be reached is struck off the list, here and at the server. -/
def reportGone (t : Turn) (name : String) : Turn :=
  let t := t.update fun c => { c with peers := c.peers.filter fun p => p.name ≠ name }
  if t.client.link.isSome then (t.sendCommand (.reportGone name)).sendCommand .listPeers else t

def handleUpdate (t : Turn) (update : Update) : Turn :=
  match update with
  | .peerList peers => (t.update fun c => { c with peers }).printPeers peers
  | .newcomer name =>
    let t := t.printLine (Texts.newcomer name)
    if t.client.status = .idle then t.refreshPeers else t
  | other => t.printLine (Texts.serverSays other)

/-! ## Starting and ending -/

/-- The client's work is over: nobody takes calls any more. -/
def finish (t : Turn) (result : Except ClientError Unit) : Turn :=
  (t.receive t.client.reception.close).setTask (.over result)

def fail (t : Turn) (cause : ClientError) : Turn := t.finish (.error cause)

def askPort (t : Turn) : Turn := (t.print Texts.askPort).setTask .choosingPort

def askName (t : Turn) : Turn := (t.print Texts.askName).setTask .choosingName

def askEndpoint (t : Turn) : Turn := (t.print Texts.askEndpoint).setTask .choosingEndpoint

/-- Takes calls on the port, then goes to the server. -/
def bind (t : Turn) (port : UInt16) : Turn :=
  ((t.update fun c => { c with port }).emit (.listen port)).setTask .binding

def offerPort (t : Turn) (text : String) : Turn :=
  match readPort text with
  | .ok port => t.bind port
  | .error _ => (t.printLine Texts.badPort).askPort

/-- Sends a registration under a name, and awaits the reply. -/
def sendRegistration (t : Turn) (name : String) (task : Task) (failed : Turn → Turn) : Turn :=
  if t.client.serverWritable then (t.sendCommand (.register name t.client.port)).setTask task
  else failed t

/-- Tries a name on the open connection, or asks for another. -/
def offerName (t : Turn) (name : String) : Turn :=
  if isName name then
    t.sendRegistration name (.signingUp name) fun t =>
      t.closeInbox.fail (.failed (.transport .brokenPipe))
  else (t.printLine Texts.badName).askName

/-- What an attempt to sign up for the first time leads to. -/
def concludeSignUp (t : Turn) (name : String) (inbox : Inbox) (outcome : SignUp) : Turn :=
  match outcome with
  | .registered =>
    (((((t.printLine (Texts.registeredAs name)).update fun c => { c with name }).setInbox
      none).setLink (some (.ofInbox name inbox))).setStatus .registered).setTask .registered
  | .nameTaken => ((t.setInbox (some inbox)).printLine Texts.nameTaken).askName
  | .rejected reason => t.closeInbox.fail (.told (Texts.registrationRejected reason))
  | .failed cause => t.closeInbox.fail (.failed cause)

/-- The main loop begins. -/
def enterLoop (t : Turn) : Turn := ((t.setStatus .idle).printLine Texts.help).setTask .idle

/-- Calls are read from now on. -/
def openReception (t : Turn) : Turn :=
  t.receive (t.client.reception.openUp t.client.status.isBusy)

def toIdle (t : Turn) : Turn := (t.setStatus .idle).setTask .idle

/-- What an attempt to sign up after a session leads to. -/
def concludeReturn (t : Turn) (inbox : Inbox) (outcome : SignUp) : Turn :=
  let name := t.client.name
  match outcome with
  | .registered =>
    ((((t.printLine (Texts.discoverableAgain name)).setInbox none).setLink
      (some (.ofInbox name inbox))).setStatus .registered).toIdle
  | .nameTaken => (t.closeInbox.printLine (Texts.nameLost name)).toIdle
  | .rejected reason => (t.closeInbox.printLine (Texts.reregistrationRefused reason)).toIdle
  | .failed _ => (t.closeInbox.printLine Texts.serverOutOfReach).toIdle

/-! ## Sessions -/

/-- A session, or the attempt at one, is over: the client registers again. -/
def afterSession (t : Turn) : Turn :=
  let t := t.closeDirect
  if t.client.settings.anonymous then t.askEndpoint
  else ((t.setStatus .disconnected).emit .connectServer).setTask .returning

def failKeyExchange (t : Turn) (remote : String) : Turn :=
  (t.printLine (Texts.keyExchangeFailed remote)).afterSession

/-- What has come on the direct connection is now this. -/
def keepIncoming (t : Turn) (rest : Bytes) : Turn :=
  t.update fun c => { c with direct := c.direct.map fun d => { d with incoming := rest } }

def openSession (t : Turn) (remote : String) (role : Role) (keys : SessionKeys) (rest : Bytes) :
    Turn :=
  let mode := t.client.settings.mode
  let t := (t.printLine (Texts.sessionOpen remote)).printLine (Texts.fingerprint keys remote)
  let t := if mode = .static then t.printLine Texts.staticNonces else t
  ((t.printLine Texts.howToChat).keepIncoming rest).setTask
    (.chatting (.start remote role mode keys []))

/-- Leaves the list for the length of a session, and enters it. -/
def enterSession (t : Turn) : Turn :=
  if t.client.settings.anonymous then t else t.withdraw.setStatus .inSession

/-- The side that dialed makes the first move of the key exchange. -/
def offerKey (t : Turn) (remote : String) : Turn :=
  match Handshake.offer t.client.settings.kem t.client.entropy with
  | (.error _, pool) => (t.update fun c => { c with entropy := pool }).failKeyExchange remote
  | (.ok (key, sent), pool) =>
    let t := t.update fun c => { c with entropy := pool }
    if t.client.canSend then (t.sendDirect sent).setTask (.concluding remote key)
    else t.failKeyExchange remote

/-- The side that was called answers with what its key exchange sends. -/
def answerKey (t : Turn) (remote : String) (answer : Handshake.Answer) : Turn :=
  if t.client.canSend then
    (t.sendDirect answer.sent).openSession remote .responder answer.keys answer.rest
  else t.failKeyExchange remote

/-- Goes on with a chat, or ends it. -/
def continueChat (t : Turn) (chat : Chat) : Turn :=
  match chat.result with
  | none => t.setTask (.chatting chat)
  | some .localQuit => (t.printLine (Texts.leftChat chat.remote)).afterSession
  | some .encryptionFailed => (t.printLine Texts.encryptionFailed).afterSession
  | some _ => t.afterSession

/-! ## Calling -/

def dialEndpoint (t : Turn) (label : String) (endpoint : Endpoint) : Turn :=
  (t.emit (.dial endpoint)).setTask (.dialing label)

/-- Calls a listed peer. -/
def dial (t : Turn) (target : String) : Turn :=
  match resolveTarget t.client.peers t.client.name target with
  | .error .ownName => t.printLine Texts.ownName
  | .error (.unknown _) => t.printLine (Texts.unknownPeer target)
  | .ok endpoint => (t.setStatus .negotiating).dialEndpoint target endpoint

/-- The attempt to call is over, and no session came of it. -/
def giveUpCall (t : Turn) : Turn :=
  let t := t.closeDirect
  if t.client.settings.anonymous then t.askEndpoint else t.toIdle

/-- The call could not be put through. -/
def failDial (t : Turn) (target : String) (cause : TransportError) : Turn :=
  if t.client.settings.anonymous then
    (t.printLine (Texts.cannotConnect target (.transport cause))).askEndpoint
  else ((t.printLine (Texts.unreachable target)).reportGone target).toIdle

/-- The call is put through: the request is sent, and the reply awaited. -/
def startAsking (t : Turn) (target : String) : Turn :=
  let own := if t.client.settings.anonymous then anonymousName else t.client.name
  ((t.setDirect (some ⟨.dialed, [], false, true⟩)).sendDirect (Negotiation.request own)).setTask
    (.asking target)

def concludeAsking (t : Turn) (target : String) (verdict : Except Failure Negotiation.Verdict) :
    Turn :=
  match verdict with
  | .ok (.accepted rest) =>
    (((t.printLine (Texts.accepted target)).keepIncoming rest).enterSession).offerKey target
  | .ok .denied => (t.printLine Texts.denied).giveUpCall
  | .error cause => (t.printLine (Texts.requestFailed target cause)).giveUpCall

/-! ## Being called -/

/-- Puts a call to the user, and denies all others that are queued. -/
def askUser (t : Turn) (call : Call) (reception : Reception) : Turn :=
  let t := (t.setStatus .negotiating).receive reception.denyQueued
  let t := t.setDirect (some ⟨.caller call.caller, call.incoming, call.ended, true⟩)
  (t.print (Texts.incomingCall call)).setTask (.deciding call.name)

def denyCall (t : Turn) (name : String) : Turn :=
  ((t.printLine (Texts.deniedCall name)).sendDirect (Negotiation.answer false)).closeDirect.toIdle

def acceptCall (t : Turn) (name : String) : Turn :=
  if t.client.canSend then
    (t.sendDirect (Negotiation.answer true)).enterSession.setTask (.responding name)
  else (t.printLine (Texts.callerLost name (.transport .brokenPipe))).closeDirect.toIdle

def isYes (answer : String) : Bool := answer = "y" || answer = "yes"

def isNo (answer : String) : Bool := answer = "n" || answer = "no"

/-- An answer is yes or no, in letters of either case. -/
def decideCall (t : Turn) (name line : String) : Turn :=
  let answer := (Text.trim line).toLower
  if isYes answer then t.acceptCall name
  else if isNo answer then t.denyCall name
  else t.print Texts.askAgain

/-! ## Lines typed by the user -/

/-- A line at the main prompt. -/
def obey (t : Turn) (line : String) : Turn :=
  match Text.trim line with
  | "" => t
  | "exit" => (t.withdraw.printLine Texts.goodbye).finish (.ok ())
  | "list" => t.refreshPeers
  | "help" => t.printLine Texts.help
  | target => t.dial target

/-- A line at the prompt of a client that dials by address. -/
def obeyAnonymous (t : Turn) (line : String) : Turn :=
  match Text.trim line with
  | "" => t.askEndpoint
  | "exit" => (t.printLine Texts.goodbye).finish (.ok ())
  | target =>
    match Endpoint.parse target with
    | .ok endpoint => t.dialEndpoint endpoint.text endpoint
    | .error cause => (t.printLine (Texts.invalidTarget cause)).askEndpoint

def typeInChat (t : Turn) (chat : Chat) (line : String) : Turn :=
  let (chat, effects) := chat.typeLine t.client.canSend line
  let t := t.printEvents effects.events
  let t := if effects.sent.isEmpty then t else t.sendDirect effects.sent
  t.continueChat chat

end PeerChat.Turn
