import PeerChat.Bytes

/-!
# Key encapsulation

What a session needs of a key encapsulation mechanism, with its sizes: key pairs, a secret wrapped
for a public key, and the unwrapping. Random bytes come from a pool; a draw that the pool cannot
serve fails and takes nothing.
-/

namespace PeerChat

/-- Random bytes that have not been drawn yet. -/
abbrev Entropy := Bytes

def Entropy.draw? (n : Nat) (pool : Entropy) : Option (Vector UInt8 n × Entropy) :=
  Bytes.cut? n pool

abbrev PublicKey := Vector UInt8 800

abbrev SecretKey := Vector UInt8 1632

abbrev WrappedSecret := Vector UInt8 768

def PublicKey.size : Nat := 800

def SecretKey.size : Nat := 1632

def WrappedSecret.size : Nat := 768

abbrev SharedSecret := Vector UInt8 32

/-- Secret keys never show their bytes. -/
def SecretKey.shown : String := "SecretKey(..)"

structure KeyPair where
  publicKey : PublicKey
  secretKey : SecretKey

inductive KemError where
  /-- The pool ran out on the first or on the second seed of a key pair. -/
  | noKeySeed
  | noRejectionSeed
  /-- A coefficient of the public key is not below the modulus. -/
  | unreducedKey
  | noCoins
  deriving DecidableEq, Repr

namespace KemError

def message : KemError → String
  | noKeySeed => "key generation failed: Alg 19: Random number generator failed for d"
  | noRejectionSeed => "key generation failed: Alg 19: Random number generator failed for z"
  | unreducedKey => "encapsulation failed: Alg 6: integers out of range"
  | noCoins => "encapsulation failed: Alg 20: random number generator failed"

end KemError

structure Kem where
  keyPair : Entropy → Except KemError KeyPair × Entropy
  encapsulate : PublicKey → Entropy → Except KemError (WrappedSecret × SharedSecret) × Entropy
  decapsulate : SecretKey → WrappedSecret → SharedSecret

end PeerChat
