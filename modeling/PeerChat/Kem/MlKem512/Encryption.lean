import PeerChat.Kem.MlKem512.Encoding
import PeerChat.Kem.MlKem512.Sampling

/-!
# Public-key encryption of 32 bytes

The lattice scheme under the key encapsulation: a public key is a noisy image of a short secret
under a public matrix, and a ciphertext hides one bit in each coefficient of a polynomial.
-/

namespace PeerChat.MlKem512

abbrev Seed := Vector UInt8 32

/-- The two halves of a 64-byte hash. -/
def hashPair (message : Bytes) : Seed × Seed :=
  let digest := (Keccak.sha3_512 message).toArray
  (Vector.ofFn fun i => digest.getD i.val 0, Vector.ofFn fun i => digest.getD (32 + i.val) 0)

def hashSeed (message : Bytes) : Seed :=
  let digest := (Keccak.sha3_256 message).toArray
  Vector.ofFn fun i => digest.getD i 0

/-- The secret short vector and the public key made from it. -/
def encryptionKeys (d : Seed) : Vector UInt8 768 × Vector UInt8 800 :=
  let (matrixSeed, noiseSeed) := hashPair (d.toList ++ [2])
  let secret : PolyPair := Vector.ofFn fun i => (binomial 3 noiseSeed i.val).transform
  let noise : PolyPair := Vector.ofFn fun i => (binomial 3 noiseSeed (2 + i.val)).transform
  let image : PolyPair := Vector.ofFn fun i =>
    (PolyPair.dot (Vector.ofFn fun j => matrixEntry matrixSeed i.val j.val) secret).add noise[i]
  (encodeFull secret.first ++ encodeFull secret.second,
    encodeFull image.first ++ encodeFull image.second ++ matrixSeed)

/-- The two polynomials of a public key, as they are written. -/
def keyHalves (key : Vector UInt8 800) : Vector (Vector UInt8 384) 2 :=
  #v[slice key 0 384, slice key 384 384]

def encrypt (key : Vector UInt8 800) (message coins : Seed) : Vector UInt8 768 :=
  let image : PolyPair := (keyHalves key).map decodeFull
  let matrixSeed : Seed := slice key 768 32
  let short : PolyPair := Vector.ofFn fun i => (binomial 3 coins i.val).transform
  let noise : PolyPair := Vector.ofFn fun i => binomial 2 coins (2 + i.val)
  let u : PolyPair := Vector.ofFn fun i =>
    (PolyPair.dot (Vector.ofFn fun j => matrixEntry matrixSeed j.val i.val) short).inverse.add
      noise[i]
  let v := ((image.dot short).inverse.add (binomial 2 coins 4)).add
    (decompress 1 (decode 1 message))
  encode 10 (compress 10 u.first) ++ encode 10 (compress 10 u.second) ++ encode 4 (compress 4 v)

def decrypt (secret : Vector UInt8 768) (ciphertext : Vector UInt8 768) : Seed :=
  let short : PolyPair := #v[decodeFull (slice secret 0 384), decodeFull (slice secret 384 384)]
  let u : PolyPair :=
    #v[decompress 10 (decode 10 (slice ciphertext 0 320)),
       decompress 10 (decode 10 (slice ciphertext 320 320))]
  let v := decompress 4 (decode 4 (slice ciphertext 640 128))
  encode 1 (compress 1 (v.sub (short.dot u.transform).inverse))

end PeerChat.MlKem512
