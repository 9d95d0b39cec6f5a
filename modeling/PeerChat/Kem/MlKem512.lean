import PeerChat.Kem.Basic
import PeerChat.Kem.MlKem512.Encryption

/-!
# ML-KEM-512

The key encapsulation mechanism of FIPS 203 at its smallest parameters. A ciphertext that its
secret key did not expect unwraps to a secret of its own, not to an error.
-/

namespace PeerChat.MlKem512

/-- A secret key is the short vector, the public key, its hash, and the rejection seed. -/
def keysOfSeeds (d z : Seed) : KeyPair :=
  let (short, publicKey) := encryptionKeys d
  ⟨publicKey, short ++ publicKey ++ hashSeed publicKey.toList ++ z⟩

/-- Whether both halves of a public key hold reduced coefficients. -/
def isKey (key : PublicKey) : Bool := (keyHalves key).all isReduced

def wrap (key : PublicKey) (message : Seed) : WrappedSecret × SharedSecret :=
  let (secret, coins) := hashPair (message.toList ++ (hashSeed key.toList).toList)
  (encrypt key message coins, secret)

def unwrap (key : SecretKey) (wrapped : WrappedSecret) : SharedSecret :=
  let message := decrypt (slice key 0 768) wrapped
  let publicKey : PublicKey := slice key 768 800
  let (secret, coins) := hashPair (message.toList ++ (slice key 1568 32).toList)
  if encrypt publicKey message coins = wrapped then secret
  else
    let digest := (Keccak.shake256 32 ((slice key 1600 32).toList ++ wrapped.toList)).toArray
    Vector.ofFn fun i => digest.getD i 0

def keyPair (pool : Entropy) : Except KemError KeyPair × Entropy :=
  match pool.draw? 32 with
  | none => (.error .noKeySeed, pool)
  | some (d, pool) =>
    match pool.draw? 32 with
    | none => (.error .noRejectionSeed, pool)
    | some (z, pool) => (.ok (keysOfSeeds d z), pool)

def encapsulate (key : PublicKey) (pool : Entropy) :
    Except KemError (WrappedSecret × SharedSecret) × Entropy :=
  if isKey key then
    match pool.draw? 32 with
    | none => (.error .noCoins, pool)
    | some (m, pool) => (.ok (wrap key m), pool)
  else (.error .unreducedKey, pool)

def kem : Kem := ⟨keyPair, encapsulate, unwrap⟩

end PeerChat.MlKem512
