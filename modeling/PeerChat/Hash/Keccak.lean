import PeerChat.Bytes

/-!
# The Keccak sponge

The permutation of 25 lanes of 64 bits in its five steps, and the sponge over it: SHA3-256 and
SHA3-512 with a fixed digest, SHAKE128 and SHAKE256 with output of any length.
-/

namespace PeerChat.Keccak

/-- Lane `(x, y)` stands at position `5 * y + x`. -/
abbrev State := Vector UInt64 25

def State.zero : State := Vector.replicate 25 0

def rotateLeft (w : UInt64) (k : Nat) : UInt64 :=
  if k % 64 = 0 then w else (w <<< UInt64.ofNat (k % 64)) ||| (w >>> UInt64.ofNat (64 - k % 64))

def State.lane (s : State) (x y : Nat) : UInt64 := s[5 * (y % 5) + x % 5]

def State.ofLanes (f : Nat → Nat → UInt64) : State :=
  Vector.ofFn fun i => f (i.val % 5) (i.val / 5)

def theta (s : State) : State :=
  let parity : Vector UInt64 5 := Vector.ofFn fun x =>
    s.lane x 0 ^^^ s.lane x 1 ^^^ s.lane x 2 ^^^ s.lane x 3 ^^^ s.lane x 4
  let effect : Vector UInt64 5 := Vector.ofFn fun x =>
    parity[(x.val + 4) % 5] ^^^ rotateLeft parity[(x.val + 1) % 5] 1
  State.ofLanes fun x y => s.lane x y ^^^ effect[x % 5]

def rotations : Vector Nat 25 :=
  #v[0, 1, 62, 28, 27,
     36, 44, 6, 55, 20,
     3, 10, 43, 25, 39,
     41, 45, 15, 21, 8,
     18, 2, 61, 56, 14]

/-- The two steps that move bits: each lane is rotated, then put in its new place. -/
def rhoPi (s : State) : State :=
  State.ofLanes fun x y =>
    rotateLeft (s.lane (x + 3 * y) x) rotations[5 * (x % 5) + (x + 3 * y) % 5]

def chi (s : State) : State :=
  State.ofLanes fun x y => s.lane x y ^^^ (~~~(s.lane (x + 1) y) &&& s.lane (x + 2) y)

def iota (constant : UInt64) (s : State) : State := s.set 0 (s[0] ^^^ constant)

def roundConstants : List UInt64 :=
  [0x0000000000000001, 0x0000000000008082, 0x800000000000808a, 0x8000000080008000,
   0x000000000000808b, 0x0000000080000001, 0x8000000080008081, 0x8000000000008009,
   0x000000000000008a, 0x0000000000000088, 0x0000000080008009, 0x000000008000000a,
   0x000000008000808b, 0x800000000000008b, 0x8000000000008089, 0x8000000000008003,
   0x8000000000008002, 0x8000000000000080, 0x000000000000800a, 0x800000008000000a,
   0x8000000080008081, 0x8000000000008080, 0x0000000080000001, 0x8000000080008008]

def permute (s : State) : State :=
  roundConstants.foldl (fun s c => iota c (chi (rhoPi (theta s)))) s

/-- The message, the two or four domain bits and the padding, up to a whole number of blocks. -/
def pad (rate : Nat) (domain : UInt8) (message : Bytes) : Bytes :=
  match rate - 1 - message.length % rate with
  | 0 => message ++ [domain ||| 0x80]
  | gap + 1 => message ++ domain :: (List.replicate gap 0 ++ [0x80])

def absorbBlock (s : State) (block : Bytes) : State :=
  let lanes := (Bytes.inBlocks 8 block).toArray.map fun w => UInt64.ofNat (Bytes.ofLittleEndian w)
  permute (Vector.ofFn fun i => s[i] ^^^ lanes.getD i 0)

def absorb (rate : Nat) (domain : UInt8) (message : Bytes) : State :=
  (Bytes.inBlocks rate (pad rate domain message)).foldl absorbBlock State.zero

def State.bytes (s : State) : Bytes := s.toList.flatMap fun w => Bytes.littleEndian 8 w.toNat

/-- The first `count` blocks of output. -/
def squeeze (rate : Nat) : (count : Nat) → State → Bytes
  | 0, _ => []
  | count + 1, s => s.bytes.take rate ++ squeeze rate count (permute s)

def sponge (rate : Nat) (domain : UInt8) (size : Nat) (message : Bytes) : Bytes :=
  (squeeze rate ((size + (rate - 1)) / rate) (absorb rate domain message)).take size

def sha3_256 (message : Bytes) : Bytes := sponge 136 0x06 32 message

def sha3_512 (message : Bytes) : Bytes := sponge 72 0x06 64 message

def shake128 (size : Nat) (message : Bytes) : Bytes := sponge 168 0x1f size message

def shake256 (size : Nat) (message : Bytes) : Bytes := sponge 136 0x1f size message

end PeerChat.Keccak
