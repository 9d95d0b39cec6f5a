import PeerChat.Cipher.Aead
import PeerChat.Hash.Sha256
import PeerChat.Session.Error

/-!
# Session keys

The two ends of a session share a key, cut from a secret, and an initial vector. Each end can show
a short fingerprint of both, to be compared by other means.
-/

namespace PeerChat

/-- The initiator called; the responder took the call. -/
inductive Role where
  | initiator
  | responder
  deriving DecidableEq, Repr

def Role.peer : Role → Role
  | initiator => responder
  | responder => initiator

structure SessionKeys where
  key : Aead.Key
  iv : Aead.Nonce
  deriving DecidableEq

namespace SessionKeys

def keySize : Nat := 32

def ivSize : Nat := 12

/-- The session key is the beginning of the shared secret. -/
def keyOf (secret : Bytes) : Except CryptoError Aead.Key :=
  match Bytes.cut? 32 secret with
  | some (key, _) => .ok key
  | none => .error .shortSecret

def ofSecret (secret : Bytes) (iv : Aead.Nonce) : Except CryptoError SessionKeys := do
  return ⟨← keyOf secret, iv⟩

/-- Four groups of four hexadecimal digits. -/
def fingerprint (keys : SessionKeys) : String :=
  let digest := Sha256.hash (keys.key.toList ++ keys.iv.toList)
  String.intercalate " " ((Bytes.inBlocks 2 (digest.take 8)).map Bytes.hex)

/-- Neither part is ever shown. -/
def shown : String := "EncryptionContext \x7b key: \"<redacted>\", iv: \"<redacted>\" \x7d"

end SessionKeys

end PeerChat
