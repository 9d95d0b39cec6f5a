import PeerChat.Session.Handshake

/-!
# A key exchange under way

An initiator and a responder with a stream of bytes each way between them.  What one side writes
arrives at the other in pieces of any size.  A side that fails hangs up; one that has the keys can say
something on the session, and leave it.  In which order all this happens is open, and a step that
cannot be made changes nothing.
-/

namespace PeerChat

namespace KeyExchange

structure Setup where
  kem : Kem
  pool : Role → Entropy

inductive Stage where
  /-- The initiator has not made a key pair. -/
  | offering
  | concluding (key : SecretKey)
  | responding
  /-- The side's part of the exchange is done. -/
  | agreed (keys : SessionKeys)
  | failed (cause : Failure)

structure Side where
  stage : Stage
  /-- What has arrived and is not consumed. -/
  incoming : Bytes := []
  /-- Whether the end of what the other side sends has been found. -/
  ended : Bool := false
  pool : Entropy
  /-- What has been said on the session. -/
  said : Bytes := []
  /-- Whether the session has been left. -/
  gone : Bool := false

namespace Side

def hasHungUp (s : Side) : Bool :=
  match s.stage with
  | .failed _ => true
  | .agreed _ => s.gone
  | _ => false

/-- How the side's part of the exchange has come out, once it is over. -/
def outcome? (s : Side) : Option (Except Failure SessionKeys) :=
  match s.stage with
  | .agreed keys => some (.ok keys)
  | .failed cause => some (.error cause)
  | _ => none

/-- Writes what the next stage needs the other side to have; `writable` tells whether the other side
takes it. -/
def write (s : Side) (writable : Bool) (bytes : Bytes) (next : Stage) : Side × Bytes :=
  if writable then ({ s with stage := next }, bytes)
  else ({ s with stage := .failed (.transport .brokenPipe) }, [])

/-- Goes on with what has arrived, as far as it reaches; also gives what is sent. -/
def advance (kem : Kem) (writable : Bool) (s : Side) : Side × Bytes :=
  match s.stage with
  | .offering =>
    match Handshake.offer kem s.pool with
    | (.error cause, pool) => ({ s with stage := .failed cause, pool }, [])
    | (.ok (key, sent), pool) => { s with pool }.write writable sent (.concluding key)
  | .concluding key =>
    match Handshake.conclude kem key s.ended s.incoming with
    | .waiting => (s, [])
    | .failed cause => ({ s with stage := .failed cause }, [])
    | .done (keys, rest) => ({ s with stage := .agreed keys, incoming := rest }, [])
  | .responding =>
    match Handshake.respond kem s.pool s.ended s.incoming with
    | (.waiting, _) => (s, [])
    | (.failed cause, pool) => ({ s with stage := .failed cause, pool }, [])
    | (.done answer, pool) =>
      { s with incoming := answer.rest, pool }.write writable answer.sent (.agreed answer.keys)
  | .agreed _ | .failed _ => (s, [])

end Side

end KeyExchange

structure KeyExchange where
  initiator : KeyExchange.Side
  responder : KeyExchange.Side
  /-- What has been written for the initiator and has not arrived there. -/
  toInitiator : Bytes
  toResponder : Bytes

namespace KeyExchange

def side (m : KeyExchange) : Role → Side
  | .initiator => m.initiator
  | .responder => m.responder

/-- What is on its way to a side. -/
def wire (m : KeyExchange) : Role → Bytes
  | .initiator => m.toInitiator
  | .responder => m.toResponder

def setSide (m : KeyExchange) (r : Role) (s : Side) : KeyExchange :=
  match r with
  | .initiator => { m with initiator := s }
  | .responder => { m with responder := s }

def setWire (m : KeyExchange) (r : Role) (bytes : Bytes) : KeyExchange :=
  match r with
  | .initiator => { m with toInitiator := bytes }
  | .responder => { m with toResponder := bytes }

def start (u : Setup) : KeyExchange where
  initiator := { stage := .offering, pool := u.pool .initiator }
  responder := { stage := .responding, pool := u.pool .responder }
  toInitiator := []
  toResponder := []

inductive Step where
  /-- So many bytes arrive at a side. -/
  | arrived (r : Role) (count : Nat)
  /-- A side finds the end of the stream, once the other has hung up. -/
  | ended (r : Role)
  | advanced (r : Role)
  /-- A side that has the keys says something on the session. -/
  | said (r : Role) (bytes : Bytes)
  /-- A side that has the keys leaves the session. -/
  | left (r : Role)

/-- Whether a step belongs to the exchange, and not to the session that follows. -/
def Step.isExchange : Step → Bool
  | .arrived _ _ | .ended _ | .advanced _ => true
  | .said _ _ | .left _ => false

def step (u : Setup) (m : KeyExchange) : Step → KeyExchange
  | .arrived r count =>
    let s := m.side r
    (m.setSide r { s with incoming := s.incoming ++ (m.wire r).take count }).setWire r
      ((m.wire r).drop count)
  | .ended r =>
    if (m.wire r).isEmpty && (m.side r.peer).hasHungUp then
      m.setSide r { m.side r with ended := true }
    else m
  | .advanced r =>
    let (s, sent) := (m.side r).advance u.kem !(m.side r.peer).hasHungUp
    (m.setSide r s).setWire r.peer (m.wire r.peer ++ sent)
  | .said r bytes =>
    match (m.side r).stage with
    | .agreed _ =>
      if (m.side r).gone || (m.side r.peer).hasHungUp then m
      else
        (m.setSide r { m.side r with said := (m.side r).said ++ bytes }).setWire r.peer
          (m.wire r.peer ++ bytes)
    | _ => m
  | .left r =>
    match (m.side r).stage with
    | .agreed _ => m.setSide r { m.side r with gone := true }
    | _ => m

/-- Nothing is on its way, and no side can go on. -/
def AtRest (u : Setup) (m : KeyExchange) : Prop :=
  ∀ f : Step, f.isExchange = true → step u m f = m

def run (u : Setup) (steps : List Step) : KeyExchange := steps.foldl (step u) (start u)

end KeyExchange

end PeerChat
