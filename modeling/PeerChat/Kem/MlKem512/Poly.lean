/-!
# Polynomials modulo 3329

Polynomials of degree below 256, their number theoretic transform, and multiplication of
transformed polynomials. The transform is written layer by layer: in each layer a coefficient
depends on itself and on its partner at the distance of the layer.
-/

namespace PeerChat.MlKem512

def modulus : Nat := 3329

abbrev Coeff := Fin 3329

abbrev Poly := Vector Coeff 256

def Coeff.ofNat (n : Nat) : Coeff := Fin.ofNat 3329 n

namespace Poly

def add (f g : Poly) : Poly := Vector.ofFn fun i => f[i] + g[i]

def sub (f g : Poly) : Poly := Vector.ofFn fun i => f[i] - g[i]

/-- The seven lowest bits of a number in reverse order. -/
def reverseBits (n : Nat) : Nat :=
  (List.range 7).foldl (fun acc k => 2 * acc + n >>> k % 2) 0

/-- Powers of the root of unity 17, in the order in which the layers use them. -/
def zetas : Vector Coeff 128 := Vector.ofFn fun i => Coeff.ofNat (Nat.pow 17 (reverseBits i.val))

/-- The factors that reduce a product of two linear parts. -/
def gammas : Vector Coeff 128 :=
  Vector.ofFn fun i => Coeff.ofNat (Nat.pow 17 (2 * reverseBits i.val + 1))

def coeff (f : Poly) (i : Nat) : Coeff := f[i % 256]

/-- One layer of the transform, with partners at distance `len`. -/
def forwardLayer (f : Poly) (len : Nat) : Poly :=
  Vector.ofFn fun j =>
    let zeta := zetas[(128 / len + j.val / (2 * len)) % 128]
    if j.val % (2 * len) < len then f[j] + zeta * f.coeff (j.val + len)
    else f.coeff (j.val - len) - zeta * f[j]

def transform (f : Poly) : Poly := [128, 64, 32, 16, 8, 4, 2].foldl forwardLayer f

/-- One layer of the inverse transform, with partners at distance `len`. -/
def backwardLayer (f : Poly) (len : Nat) : Poly :=
  Vector.ofFn fun j =>
    let zeta := zetas[(2 * (128 / len) - 1 - j.val / (2 * len)) % 128]
    if j.val % (2 * len) < len then f[j] + f.coeff (j.val + len)
    else zeta * (f[j] - f.coeff (j.val - len))

def inverse (f : Poly) : Poly :=
  ([2, 4, 8, 16, 32, 64, 128].foldl backwardLayer f).map (3303 * ·)

/-- The product of two transformed polynomials, linear part by linear part. -/
def mul (f g : Poly) : Poly :=
  Vector.ofFn fun j =>
    let i := j.val / 2
    let f0 := f.coeff (2 * i)
    let f1 := f.coeff (2 * i + 1)
    let g0 := g.coeff (2 * i)
    let g1 := g.coeff (2 * i + 1)
    if j.val % 2 = 0 then f0 * g0 + f1 * g1 * gammas[i % 128] else f0 * g1 + f1 * g0

end Poly

/-- The rank of the module is two. -/
abbrev PolyPair := Vector Poly 2

namespace PolyPair

def transform (v : PolyPair) : PolyPair := v.map Poly.transform

def first (v : PolyPair) : Poly := v[0]

def second (v : PolyPair) : Poly := v[1]

def dot (v w : PolyPair) : Poly := (v.first.mul w.first).add (v.second.mul w.second)

end PolyPair

end PeerChat.MlKem512
