import PeerChat.Session.Nonces

/-!
# Sealed messages

A message is sealed under the next nonce of its direction.  The sequence is used in place: what comes of
sealing or opening stands beside the sequence as it is left, which moves on only when that succeeds.
-/

namespace PeerChat.SessionKeys

def encrypt (keys : SessionKeys) (nonces : Nonces) (message : Bytes) :
    Except CryptoError Bytes × Nonces :=
  match nonces.current with
  | .error cause => (.error cause, nonces)
  | .ok nonce =>
    match Aead.seal? keys.key nonce message with
    | some sealed => (.ok sealed, nonces.advance)
    | none => (.error .sealFailed, nonces)

def decrypt (keys : SessionKeys) (nonces : Nonces) (sealed : Bytes) :
    Except CryptoError Bytes × Nonces :=
  if sealed.length < Aead.tagSize then (.error .openFailed, nonces)
  else match nonces.current with
    | .error cause => (.error cause, nonces)
    | .ok nonce =>
      match Aead.open? keys.key nonce sealed with
      | some message => (.ok message, nonces.advance)
      | none => (.error .openFailed, nonces)

end PeerChat.SessionKeys
