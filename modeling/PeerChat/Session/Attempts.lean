import PeerChat.Session.Sealed

/-!
# Attempts at sealing and opening

What comes of sealing or opening one byte string after the other, each with the nonces that the last
has left.
-/

namespace PeerChat

namespace Nonces

variable {α β : Type}

/-- The sequence after so many messages. -/
def after (n : Nonces) : (count : Nat) → Nonces
  | 0 => n
  | count + 1 => (after n count).advance

/-- An attempt as it was made: the sequence that it found, and what it gave. -/
structure Attempt (β : Type) where
  found : Nonces
  result : Except CryptoError β

/-- Attempts one after the other, and the sequence as they leave it. -/
def attemptAll (f : Nonces → α → Except CryptoError β × Nonces) :
    Nonces → List α → List (Attempt β) × Nonces
  | n, [] => ([], n)
  | n, a :: later =>
    let (result, next) := f n a
    let (attempts, last) := attemptAll f next later
    (⟨n, result⟩ :: attempts, last)

/-- The nonces of the attempts that succeeded. -/
def used (attempts : List (Attempt β)) : List Aead.Nonce :=
  attempts.filterMap fun a =>
    match a.result, a.found.current with
    | .ok _, .ok nonce => some nonce
    | _, _ => none

/-- What the attempts that succeeded gave. -/
def gained (attempts : List (Attempt β)) : List β :=
  attempts.filterMap fun a =>
    match a.result with
    | .ok result => some result
    | .error _ => none

end Nonces

namespace SessionKeys

/-- Messages sealed in order; fails as soon as one of them cannot be sealed. -/
def encryptAll (keys : SessionKeys) : Nonces → List Bytes → Except CryptoError (List Bytes × Nonces)
  | n, [] => .ok ([], n)
  | n, message :: later =>
    match keys.encrypt n message with
    | (.error cause, _) => .error cause
    | (.ok sealed, next) => do
      let (all, last) ← encryptAll keys next later
      return (sealed :: all, last)

end SessionKeys

end PeerChat
