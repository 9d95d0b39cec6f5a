import PeerChat.Session.Keys
import PeerChat.Stream.Frame

/-!
# The key exchange

The initiator sends a fresh public key in a frame. The responder wraps a secret for it and sends
the wrapped secret in a frame, and behind it the initial vector as it is. Each side reads from what
has arrived so far: it may have to wait, fail, or be done, with what follows left unread.
-/

namespace PeerChat

/-- Where a reader stands with what has arrived. -/
inductive Progress (α : Type) where
  | waiting
  | failed (cause : Failure)
  | done (value : α)

namespace Handshake

/-- Frames of the key exchange are limited to so many bytes. -/
def maxPayload : Nat := 4096

/-- One frame of the key exchange, and what follows it. -/
def readFrame (ended : Bool) (incoming : Bytes) : Progress (Bytes × Bytes) :=
  match Frame.read maxPayload ended incoming with
  | .incomplete => .waiting
  | .ended => .failed .peerClosed
  | .frame payload rest => .done (payload, rest)
  | .tooLarge size => .failed (.wire (.frameTooLarge size maxPayload))
  | .cutLength => .failed (.transport .cutLength)
  | .cutPayload => .failed (.transport .cutPayload)

/-- The initiator's first move: a secret key, and the frame to send. -/
def offer (kem : Kem) (pool : Entropy) : Except Failure (SecretKey × Bytes) × Entropy :=
  match kem.keyPair pool with
  | (.error cause, pool) => (.error (.crypto (.kem cause)), pool)
  | (.ok pair, pool) => (.ok (pair.secretKey, Frame.write pair.publicKey.toList), pool)

/-- The initiator's end of the exchange: the session keys, and what follows the initial vector. -/
def conclude (kem : Kem) (key : SecretKey) (ended : Bool) (incoming : Bytes) :
    Progress (SessionKeys × Bytes) :=
  match readFrame ended incoming with
  | .waiting => .waiting
  | .failed cause => .failed cause
  | .done (payload, rest) =>
    match Bytes.exactly? 768 payload with
    | none =>
      .failed (.crypto (.wrongLength "KEM ciphertext" WrappedSecret.size payload.length))
    | some wrapped =>
      match Bytes.cut? 12 rest with
      | some (iv, rest) => .done (⟨kem.decapsulate key wrapped, iv⟩, rest)
      | none => if ended then .failed (.transport .cutPayload) else .waiting

/-- What the responder has once the initiator's key has arrived. -/
structure Answer where
  keys : SessionKeys
  sent : Bytes
  rest : Bytes

/-- The initial vector is random; without randomness it is zero. -/
def drawIv (pool : Entropy) : Aead.Nonce × Entropy :=
  match pool.draw? 12 with
  | some (iv, pool) => (iv, pool)
  | none => (Vector.replicate 12 0, pool)

def respond (kem : Kem) (pool : Entropy) (ended : Bool) (incoming : Bytes) :
    Progress Answer × Entropy :=
  match readFrame ended incoming with
  | .waiting => (.waiting, pool)
  | .failed cause => (.failed cause, pool)
  | .done (payload, rest) =>
    match Bytes.exactly? 800 payload with
    | none =>
      (.failed (.crypto (.wrongLength "encapsulation key" PublicKey.size payload.length)), pool)
    | some key =>
      match kem.encapsulate key pool with
      | (.error cause, pool) => (.failed (.crypto (.kem cause)), pool)
      | (.ok (wrapped, secret), pool) =>
        let (iv, pool) := drawIv pool
        (.done ⟨⟨secret, iv⟩, Frame.write wrapped.toList ++ iv.toList, rest⟩, pool)

/-- How one side of an exchange with a finished stream came out. -/
structure Result where
  sent : Bytes
  keys : Except Failure SessionKeys
  rest : Bytes
  pool : Entropy

def Result.failed (sent : Bytes) (cause : Failure) (pool : Entropy) : Result :=
  ⟨sent, .error cause, [], pool⟩

/-- The initiator against bytes that are all there; `writable` tells whether the peer still takes
what is sent. -/
def runInitiator (kem : Kem) (pool : Entropy) (writable : Bool) (incoming : Bytes) : Result :=
  match offer kem pool with
  | (.error cause, pool) => .failed [] cause pool
  | (.ok (key, sent), pool) =>
    if writable then
      match conclude kem key true incoming with
      | .done (keys, rest) => ⟨sent, .ok keys, rest, pool⟩
      | .failed cause => .failed sent cause pool
      | .waiting => .failed sent .peerClosed pool
    else .failed [] (.transport .brokenPipe) pool

/-- The responder against bytes that are all there. -/
def runResponder (kem : Kem) (pool : Entropy) (writable : Bool) (incoming : Bytes) : Result :=
  match respond kem pool true incoming with
  | (.done answer, pool) =>
    if writable then ⟨answer.sent, .ok answer.keys, answer.rest, pool⟩
    else .failed [] (.transport .brokenPipe) pool
  | (.failed cause, pool) => .failed [] cause pool
  | (.waiting, pool) => .failed [] .peerClosed pool

/-- Both sides against each other; a side that fails hangs up. -/
def runBoth (kem : Kem) (pool : Entropy) :
    Except Failure SessionKeys × Except Failure SessionKeys × Entropy :=
  match offer kem pool with
  | (.error cause, pool) =>
    let responder := runResponder kem pool true []
    (.error cause, responder.keys, responder.pool)
  | (.ok (key, sent), pool) =>
    let responder := runResponder kem pool true sent
    match conclude kem key true responder.sent with
    | .done (keys, _) => (.ok keys, responder.keys, responder.pool)
    | .failed cause => (.error cause, responder.keys, responder.pool)
    | .waiting => (.error .peerClosed, responder.keys, responder.pool)

end Handshake

end PeerChat
