import PeerChat.Client.Status
import PeerChat.Session.Negotiation

/-!
# The reception of calls

Everyone can connect. A caller first sends a request, and is dropped if the first line is none.
A request that is complete while the client is busy is denied at once; any other goes to the queue,
where it may have to wait for room. Once the queue is closed, whoever would enter it is denied;
a reception that closes before it has opened drops everyone.
-/

namespace PeerChat

abbrev CallerId := Nat

/-- A request that has been read, and what has come behind it. -/
structure Call where
  caller : CallerId
  address : IpAddress
  name : String
  incoming : Bytes
  ended : Bool
  deriving DecidableEq, Repr

/-- A connection whose request is not complete. -/
structure Caller where
  id : CallerId
  address : IpAddress
  incoming : Bytes
  ended : Bool
  deriving DecidableEq, Repr

structure Reception where
  capacity : Nat
  /-- Before the client listens, callers can connect and send but are not read. -/
  isOpen : Bool
  isClosed : Bool
  callers : List Caller
  /-- Requests that passed the busy test and wait for room. -/
  waiting : List Call
  queue : List Call
  deriving DecidableEq, Repr

/-- What the reception does to a caller. -/
inductive Reception.Effect where
  /-- A denial, then the end of the connection. -/
  | deny (caller : CallerId)
  | drop (caller : CallerId)
  deriving DecidableEq, Repr

namespace Reception

def start (capacity : Nat) (isOpen : Bool) : Reception := ⟨capacity, isOpen, false, [], [], []⟩

def caller? (r : Reception) (id : CallerId) : Option Caller := r.callers.find? fun c => c.id = id

def forget (r : Reception) (id : CallerId) : Reception :=
  { r with callers := r.callers.filter fun c => c.id ≠ id }

/-- Moves requests from the waiting room to the queue, first come first served, or denies them
once the queue is closed. -/
def forward (r : Reception) : Reception × List Effect :=
  if r.isClosed then ({ r with waiting := [] }, r.waiting.map fun call => .deny call.caller)
  else
    let room := r.capacity - r.queue.length
    ({ r with queue := r.queue ++ r.waiting.take room, waiting := r.waiting.drop room }, [])

/-- The busy test of a complete request. -/
def judge (r : Reception) (busy : Bool) (call : Call) : Reception × List Effect :=
  if busy then (r, [.deny call.caller])
  else forward { r with waiting := r.waiting ++ [call] }

/-- Reads what a caller has sent so far. -/
def attend (r : Reception) (busy : Bool) (id : CallerId) : Reception × List Effect :=
  match r.caller? id with
  | none => (r, [])
  | some c =>
    match Negotiation.readRequest c.ended c.incoming with
    | .waiting => (r, [])
    | .failed _ => (r.forget id, [.drop id])
    | .done (name, rest) => (r.forget id).judge busy ⟨id, c.address, name, rest, c.ended⟩

def connect (r : Reception) (id : CallerId) (address : IpAddress) : Reception :=
  { r with callers := r.callers ++ [⟨id, address, [], false⟩] }

/-- Adds to what a caller has sent, wherever its request is. -/
def store (r : Reception) (id : CallerId) (bytes : Bytes) (ended : Bool) : Reception :=
  let put (call : Call) : Call :=
    if call.caller = id then
      { call with incoming := call.incoming ++ bytes, ended := call.ended || ended }
    else call
  { r with
    callers := r.callers.map fun c =>
      if c.id = id then { c with incoming := c.incoming ++ bytes, ended := c.ended || ended } else c
    waiting := r.waiting.map put
    queue := r.queue.map put }

/-- Bytes from a caller, or the end of what it sends. -/
def receive (r : Reception) (busy : Bool) (id : CallerId) (bytes : Bytes) (ended : Bool) :
    Reception × List Effect :=
  let r := r.store id bytes ended
  if r.isOpen then r.attend busy id else (r, [])

def attendAll (busy : Bool) : List CallerId → Reception → Reception × List Effect
  | [], r => (r, [])
  | id :: later, r =>
    let (r, effects) := r.attend busy id
    let (r, rest) := attendAll busy later r
    (r, effects ++ rest)

/-- The client starts to listen. -/
def openUp (r : Reception) (busy : Bool) : Reception × List Effect :=
  attendAll busy (r.callers.map (·.id)) { r with isOpen := true }

/-- Takes the first request of the queue. -/
def take? (r : Reception) : Option (Call × Reception) :=
  match r.queue with
  | [] => none
  | call :: queue => some (call, { r with queue })

/-- Denies all that is in the queue, and lets in those who wait. -/
def denyQueued (r : Reception) : Reception × List Effect :=
  let (after, effects) := forward { r with queue := [] }
  (after, (r.queue.map fun call => .deny call.caller) ++ effects)

/-- Nobody takes requests any more: those in the queue are dropped, and so are all who were never
attended to. -/
def close (r : Reception) : Reception × List Effect :=
  let unheard := if r.isOpen then [] else r.callers
  let callers := if r.isOpen then r.callers else []
  let (after, effects) := forward { r with callers, queue := [], isClosed := true }
  (after, (unheard.map fun c => .drop c.id) ++ (r.queue.map fun call => .drop call.caller) ++
    effects)

end Reception

end PeerChat
