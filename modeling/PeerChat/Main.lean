import PeerChat.Client.Run
import PeerChat.CommandLine
import PeerChat.Net.Resolve
import PeerChat.Server.Console
import PeerChat.Server.Lines
import PeerChat.Terminal
import Std.Async.TCP
import Std.Sync.Channel

/-!
# The program

Standard input, sockets and randomness, tied to the client and to the server. What arrives becomes
a signal; signals are handled one at a time, and what they bring about is carried out in order.
-/

open Std.Async Std.Net

namespace PeerChat.Program

/-! ## Sockets -/

abbrev Socket := TCP.Socket.Client

def socketAddress (e : Endpoint) : SocketAddress :=
  match e.address with
  | .v4 a b c d => .v4 ⟨⟨#v[a, b, c, d]⟩, e.port⟩
  | .v6 groups => .v6 ⟨⟨groups⟩, e.port⟩

def addressOf : SocketAddress → IpAddress
  | .v4 e => .v4 e.addr.octets[0] e.addr.octets[1] e.addr.octets[2] e.addr.octets[3]
  | .v6 e => .v6 e.addr.segments

/-- A socket that takes connections on every address of this machine. -/
def listenOn (port : UInt16) : IO TCP.Socket.Server := do
  let listener ← TCP.Socket.Server.mk
  listener.bind (socketAddress ⟨.v4 0 0 0 0, port⟩)
  listener.listen 128
  return listener

def connectTo (e : Endpoint) : IO Socket := do
  let socket ← TCP.Socket.Client.mk
  (socket.connect (socketAddress e)).block
  socket.noDelay
  return socket

/-- Whether the bytes could be sent. -/
def sendOn (socket : Socket) (bytes : Bytes) : IO Bool :=
  try
    (socket.send ⟨bytes.toArray⟩).block
    return true
  catch _ => return false

def closeSocket (socket : Socket) : IO Unit :=
  try socket.shutdown.block catch _ => return

/-- Tells what arrives on a socket; nothing, at the end. -/
partial def listenTo (socket : Socket) (tell : Option Bytes → BaseIO Unit) : Async Unit := do
  let received ← try socket.recv? 8192 catch _ => pure none
  match received with
  | some bytes =>
    tell (some bytes.data.toList)
    listenTo socket tell
  | none => tell none

partial def acceptAll (listener : TCP.Socket.Server) (tell : Socket → BaseIO Unit) :
    Async Unit := do
  let accepted ← try some <$> listener.accept catch _ => pure none
  if let some socket := accepted then tell socket
  acceptAll listener tell

/-! ## Standard input -/

/-- The bytes of the next line with its end, or of what is left. -/
partial def readLine (input : IO.FS.Stream) (sofar : Array UInt8) : IO Bytes := do
  let chunk ← input.read 1
  if chunk.isEmpty then return sofar.toList
  let sofar := sofar ++ chunk.data
  if chunk.data.contains Line.lineFeed then return sofar.toList else readLine input sofar

/-- Prints at once. -/
def say (text : String) : IO Unit := do
  let output ← IO.getStdout
  output.putStr text
  output.flush

/-! ## The client -/

/-- What reaches a client. Connections that follow one another are told apart by number. -/
inductive Signal where
  | typed (bytes : Bytes)
  | server (number : Nat) (bytes : Option Bytes)
  | dialed (number : Nat) (bytes : Option Bytes)
  | caller (id : CallerId) (bytes : Option Bytes)
  | accepted (socket : Socket)

instance : Inhabited Signal := ⟨.typed []⟩

structure Office where
  serverAddress : String
  signals : Std.Channel Signal
  terminal : Terminal := .start
  /-- Whether a line is being read. -/
  reading : Bool := false
  server : Option Socket := none
  serverNumber : Nat := 0
  dialed : Option Socket := none
  dialedNumber : Nat := 0
  callers : List (CallerId × Socket) := []
  nextCaller : CallerId := 0

abbrev Work := StateT Office IO

def attend (socket : Socket) (signal : Option Bytes → Signal) : Work Unit := do
  let signals := (← get).signals
  background (m := Async) (listenTo socket fun bytes => discard (signals.send (signal bytes)))
    |>.block

def takeCalls (port : UInt16) : Work Event := do
  try
    let listener ← listenOn port
    let signals := (← get).signals
    (background (m := Async) (acceptAll listener fun s => discard (signals.send (.accepted s))))
      |>.block
    return .listening (← listener.getSockName).port
  catch _ => return .cannotListen .addressInUse

def reachServer : Work Event := do
  match Endpoint.resolve (← get).serverAddress with
  | .error cause => return .serverUnreachable cause
  | .ok endpoint =>
    try
      let socket ← connectTo endpoint
      modify fun o => { o with server := some socket, serverNumber := o.serverNumber + 1 }
      attend socket (.server (← get).serverNumber)
      return .serverConnected
    catch _ => return .serverUnreachable .refused

def dial (endpoint : Endpoint) : Work Event := do
  try
    let socket ← connectTo endpoint
    modify fun o => { o with dialed := some socket, dialedNumber := o.dialedNumber + 1 }
    attend socket (.dialed (← get).dialedNumber)
    return .dialed
  catch _ => return .dialFailed .refused

def socketOf (o : Office) : Party → Option Socket
  | .dialed => o.dialed
  | .caller id => o.callers.lookup id

/-- Carries out an effect, and tells what came of it. -/
def perform : Effect → Work (List Event)
  | .print text => do
    say text
    return []
  | .listen port => return [← takeCalls port]
  | .connectServer => return [← reachServer]
  | .sendServer bytes => do
    let some socket := (← get).server | return []
    return if ← sendOn socket bytes then [] else [.serverBroken]
  | .closeServer => do
    if let some socket := (← get).server then closeSocket socket
    modify fun o => { o with server := none }
    return []
  | .dial endpoint => return [← dial endpoint]
  | .send party bytes => do
    let some socket := socketOf (← get) party | return []
    return if ← sendOn socket bytes then [] else [.broken party]
  | .close party => do
    if let some socket := socketOf (← get) party then closeSocket socket
    match party with
    | .dialed => modify fun o => { o with dialed := none }
    | .caller id => modify fun o => { o with callers := o.callers.filter fun c => c.1 ≠ id }
    return []

/-- Carries out all that a turn has brought about, and what follows from it. -/
partial def carryOut (t : Turn) : Work Client := do
  match t.effects with
  | [] => return t.client
  | e :: later =>
    let next := Client.handleAll (.of t.client) (← perform e)
    carryOut ⟨next.client, later ++ next.effects⟩

/-- The events in a signal. -/
def eventsOf : Signal → Work (List Event)
  | .typed bytes => do
    let ended := bytes.isEmpty
    let (lines, terminal) := (← get).terminal.receive ended bytes
    modify fun o => { o with terminal, reading := false }
    return lines.map .typed ++ if terminal.isOpen then [] else [.inputEnded]
  | .server number bytes => do
    let o ← get
    if o.server.isNone || o.serverNumber ≠ number then return []
    return match bytes with
      | some bytes => [.serverSent bytes]
      | none => [.serverEnded]
  | .dialed number bytes => do
    let o ← get
    if o.dialed.isNone || o.dialedNumber ≠ number then return []
    return match bytes with
      | some bytes => [.sent .dialed bytes]
      | none => [.ended .dialed]
  | .caller id bytes =>
    return match bytes with
      | some bytes => [.sent (.caller id) bytes]
      | none => [.ended (.caller id)]
  | .accepted socket => do
    let id := (← get).nextCaller
    modify fun o => { o with callers := (id, socket) :: o.callers, nextCaller := id + 1 }
    attend socket (.caller id)
    return [.callerConnected id (addressOf (← socket.getPeerName))]

/-- Asks for a line when the client waits for one. -/
def requestLine (c : Client) : Work Unit := do
  let o ← get
  if c.awaitsLine && !o.reading && o.terminal.isOpen then
    set { o with reading := true }
    let input ← IO.getStdin
    discard <| IO.asTask (do discard (o.signals.send (.typed (← readLine input #[])))) .dedicated

/-- Randomness for all that one event can lead to. -/
def refill (c : Client) : IO Client := do
  return { c with entropy := (← IO.getRandomBytes 256).data.toList }

partial def serveUser (t : Turn) : Work (Except ClientError Unit) := do
  let c ← carryOut t
  match c.task with
  | .over result => return result
  | _ =>
    requestLine c
    let signal ← IO.wait (← (← get).signals.recv)
    let events ← eventsOf signal
    serveUser (Client.handleAll (.of (← refill c)) events)

def runClient (serverAddress : String) (settings : Settings) : IO UInt32 := do
  let signals ← Std.Channel.new
  let t := Client.start settings (← IO.getRandomBytes 256).data.toList
  let (result, _) ← (serveUser t).run { serverAddress, signals }
  match result with
  | .ok () => return 0
  | .error cause =>
    IO.eprintln ("Error: " ++ cause.details)
    return 1

/-! ## The server -/

inductive ServerSignal where
  | typed (bytes : Bytes)
  | connection (id : ConnectionId) (bytes : Option Bytes)
  | accepted (socket : Socket)

instance : Inhabited ServerSignal := ⟨.typed []⟩

structure ServerRoom where
  server : Server
  terminal : Terminal
  sockets : List (ConnectionId × Socket)

/-- The server after a signal; an operator's line is answered at once. -/
def heed (signals : Std.Channel ServerSignal) (room : ServerRoom) :
    ServerSignal → IO ServerRoom
  | .typed bytes => do
    let (lines, terminal) := room.terminal.receive bytes.isEmpty bytes
    lines.forM fun line => say (room.server.consoleLine line)
    return { room with terminal }
  | .connection id (some bytes) => return { room with server := room.server.receive id bytes }
  | .connection id none => return { room with server := room.server.hangUp id }
  | .accepted socket => do
    let id := room.server.nextId
    let server := room.server.accept (addressOf (← socket.getPeerName))
    (background (m := Async) (listenTo socket fun bytes =>
      discard (signals.send (.connection id bytes)))).block
    return { room with server, sockets := (id, socket) :: room.sockets }

/-- Writes what is queued, and ends the connections that are done. -/
def deliver (room : ServerRoom) : IO ServerRoom := do
  let (deliveries, server) := room.server.flush
  for d in deliveries do
    if let some socket := room.sockets.lookup d.id then
      if !d.messages.isEmpty then discard (sendOn socket (Utf8.encode d.text))
      if d.isLast then closeSocket socket
  let ended := (deliveries.filter (·.isLast)).map (·.id)
  return { room with server, sockets := room.sockets.filter fun c => !ended.contains c.1 }

partial def readConsole (signals : Std.Channel ServerSignal) : IO Unit := do
  let line ← readLine (← IO.getStdin) #[]
  discard (signals.send (.typed line))
  if !line.isEmpty then readConsole signals

partial def serveForever (signals : Std.Channel ServerSignal) (room : ServerRoom) : IO Unit := do
  let room ← heed signals room (← IO.wait (← signals.recv))
  serveForever signals (← deliver room)

def runServer (port : UInt16) : IO UInt32 := do
  let listener ← try some <$> listenOn port catch _ => pure none
  let some listener := listener
    | IO.eprintln ("Error: " ++ TransportError.addressInUse.details)
      return 1
  let signals ← Std.Channel.new
  say (Server.banner (toString port.toNat))
  (background (m := Async) (acceptAll listener fun s => discard (signals.send (.accepted s)))).block
  discard <| IO.asTask (readConsole signals) .dedicated
  serveForever signals ⟨.start (.empty Directory.defaultCapacity), .start, []⟩
  return 0

def run : Invocation → IO UInt32
  | .version => do
    say CommandLine.versionText
    return 0
  | .help => do
    say CommandLine.usage
    return 0
  | .misuse => do
    IO.eprint CommandLine.usage
    return 2
  | .server port => runServer port
  | .client serverAddress settings => runClient serverAddress settings

end PeerChat.Program

def main (args : List String) : IO UInt32 :=
  PeerChat.Program.run (PeerChat.Invocation.ofArgs args)
