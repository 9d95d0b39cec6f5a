import PeerChat.Hash.Keccak
import PeerChat.Kem.MlKem512.Poly

/-!
# Sampled polynomials

Uniform polynomials are drawn from a stream by rejection; small ones are differences of sums of
bits.
-/

namespace PeerChat.MlKem512

/-- Three bytes are two candidates of twelve bits; those below the modulus are kept. -/
def candidates : Bytes → List Coeff
  | a :: b :: c :: rest =>
    let low := a.toNat + 256 * (b.toNat % 16)
    let high := b.toNat / 16 + 16 * c.toNat
    let later := candidates rest
    let later := if h : high < 3329 then ⟨high, h⟩ :: later else later
    if h : low < 3329 then ⟨low, h⟩ :: later else later
  | _ => []

/-- A polynomial drawn uniformly from a stream of 280 triples, which hold 256 accepted candidates
except with probability below `2 ^ -260`. -/
def uniform (seed : Bytes) : Poly :=
  let accepted := (candidates (Keccak.shake128 840 seed)).toArray
  Vector.ofFn fun i => accepted.getD i (Coeff.ofNat 0)

/-- The entry of the public matrix in row `i` and column `j`. -/
def matrixEntry (seed : Vector UInt8 32) (i j : Nat) : Poly :=
  uniform (seed.toList ++ [UInt8.ofNat j, UInt8.ofNat i])

def bit (bytes : Array UInt8) (k : Nat) : Nat := (bytes.getD (k / 8) 0).toNat >>> (k % 8) % 2

def sumOfBits (bytes : Array UInt8) (start count : Nat) : Nat :=
  (List.range count).foldl (fun acc k => acc + bit bytes (start + k)) 0

/-- A polynomial with coefficients between `-width` and `width`, bell-shaped around zero. -/
def binomial (width : Nat) (seed : Vector UInt8 32) (index : Nat) : Poly :=
  let bytes := (Keccak.shake256 (64 * width) (seed.toList ++ [UInt8.ofNat index])).toArray
  Vector.ofFn fun i =>
    Coeff.ofNat (sumOfBits bytes (2 * width * i.val) width) -
      Coeff.ofNat (sumOfBits bytes (2 * width * i.val + width) width)

end PeerChat.MlKem512
