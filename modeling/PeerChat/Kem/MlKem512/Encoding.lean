import PeerChat.Kem.MlKem512.Poly

/-!
# Encoded polynomials

A polynomial is written with `width` bits for each coefficient, lowest bits first; compression
rounds coefficients to fewer bits before that.
-/

namespace PeerChat.MlKem512

/-- Some bytes of a longer value. -/
def slice {n : Nat} (v : Vector UInt8 n) (start len : Nat) (h : start + len ≤ n := by omega) :
    Vector UInt8 len :=
  Vector.ofFn fun i => v[start + i.val]

def encode (width : Nat) (f : Vector Nat 256) : Vector UInt8 (32 * width) :=
  Vector.ofFn fun byte =>
    UInt8.ofNat ((List.range 8).foldl
      (fun acc b =>
        let k := 8 * byte.val + b
        acc + (f.toArray.getD (k / width) 0 >>> (k % width) % 2) <<< b) 0)

def decode (width : Nat) (bytes : Vector UInt8 (32 * width)) : Vector Nat 256 :=
  Vector.ofFn fun i =>
    (List.range width).foldl
      (fun acc b =>
        let k := width * i.val + b
        acc + ((bytes.toArray.getD (k / 8) 0).toNat >>> (k % 8) % 2) <<< b) 0

/-- The nearest multiple of `modulus / 2 ^ width`, counted in such steps. -/
def compress (width : Nat) (f : Poly) : Vector Nat 256 :=
  f.map fun c => (2 * (c.val <<< width) + modulus) / (2 * modulus) % (1 <<< width)

def decompress (width : Nat) (f : Vector Nat 256) : Poly :=
  f.map fun y => Coeff.ofNat ((2 * (modulus * y) + (1 <<< width)) / (2 <<< width))

/-- Twelve bits for each coefficient lose nothing. -/
def encodeFull (f : Poly) : Vector UInt8 384 := encode 12 (f.map fun c => c.val)

def decodeFull (bytes : Vector UInt8 384) : Poly := (decode 12 bytes).map Coeff.ofNat

/-- Whether every coefficient is written as a number below the modulus. -/
def isReduced (bytes : Vector UInt8 384) : Bool := (decode 12 bytes).all (· < modulus)

end PeerChat.MlKem512
