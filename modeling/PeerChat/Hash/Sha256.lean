import PeerChat.Bytes

/-!
# SHA-256

The message is padded to blocks of 64 bytes; each block is expanded to a schedule of 64 words and
folded into a chain of eight.
-/

namespace PeerChat.Sha256

abbrev Chain := Vector UInt32 8

def rotateRight (w : UInt32) (k : UInt32) : UInt32 := (w >>> k) ||| (w <<< (32 - k))

def roundConstants : List UInt32 :=
  [0x428a2f98, 0x71374491, 0xb5c0fbcf, 0xe9b5dba5, 0x3956c25b, 0x59f111f1, 0x923f82a4, 0xab1c5ed5,
   0xd807aa98, 0x12835b01, 0x243185be, 0x550c7dc3, 0x72be5d74, 0x80deb1fe, 0x9bdc06a7, 0xc19bf174,
   0xe49b69c1, 0xefbe4786, 0x0fc19dc6, 0x240ca1cc, 0x2de92c6f, 0x4a7484aa, 0x5cb0a9dc, 0x76f988da,
   0x983e5152, 0xa831c66d, 0xb00327c8, 0xbf597fc7, 0xc6e00bf3, 0xd5a79147, 0x06ca6351, 0x14292967,
   0x27b70a85, 0x2e1b2138, 0x4d2c6dfc, 0x53380d13, 0x650a7354, 0x766a0abb, 0x81c2c92e, 0x92722c85,
   0xa2bfe8a1, 0xa81a664b, 0xc24b8b70, 0xc76c51a3, 0xd192e819, 0xd6990624, 0xf40e3585, 0x106aa070,
   0x19a4c116, 0x1e376c08, 0x2748774c, 0x34b0bcb5, 0x391c0cb3, 0x4ed8aa4a, 0x5b9cca4f, 0x682e6ff3,
   0x748f82ee, 0x78a5636f, 0x84c87814, 0x8cc70208, 0x90befffa, 0xa4506ceb, 0xbef9a3f7, 0xc67178f2]

def initial : Chain :=
  #v[0x6a09e667, 0xbb67ae85, 0x3c6ef372, 0xa54ff53a, 0x510e527f, 0x9b05688c, 0x1f83d9ab, 0x5be0cd19]

/-- The message, a one bit, zeros, and the length in bits on eight bytes. -/
def pad (message : Bytes) : Bytes :=
  message ++ 0x80 :: (List.replicate ((119 - message.length % 64) % 64) 0 ++
    Bytes.bigEndian 8 (8 * message.length))

/-- The next word of the schedule, from the sixteen before it. -/
def nextWord (w : Vector UInt32 16) : UInt32 :=
  let early := w[1]
  let late := w[14]
  let s0 := rotateRight early 7 ^^^ rotateRight early 18 ^^^ (early >>> 3)
  let s1 := rotateRight late 17 ^^^ rotateRight late 19 ^^^ (late >>> 10)
  w[0] + s0 + w[9] + s1

/-- One round on the chain, with a word of the schedule and the constant of the round. -/
def round (h : Chain) (word constant : UInt32) : Chain :=
  let a := h[0]
  let e := h[4]
  let s1 := rotateRight e 6 ^^^ rotateRight e 11 ^^^ rotateRight e 25
  let choice := (e &&& h[5]) ^^^ (~~~e &&& h[6])
  let t1 := h[7] + s1 + choice + constant + word
  let s0 := rotateRight a 2 ^^^ rotateRight a 13 ^^^ rotateRight a 22
  let majority := (a &&& h[1]) ^^^ (a &&& h[2]) ^^^ (h[1] &&& h[2])
  #v[t1 + (s0 + majority), a, h[1], h[2], h[3] + t1, e, h[5], h[6]]

/-- The rounds for the given constants; the window holds the schedule from the current word on. -/
def rounds : List UInt32 → Vector UInt32 16 → Chain → Chain
  | [], _, h => h
  | c :: rest, w, h =>
    rounds rest (Vector.ofFn fun i => if i.val < 15 then w[(i.val + 1) % 16] else nextWord w)
      (round h w[0] c)

def compress (h : Chain) (block : Bytes) : Chain :=
  let words := (Bytes.inBlocks 4 block).toArray.map fun w => UInt32.ofNat (Bytes.ofBigEndian w)
  let after := rounds roundConstants (Vector.ofFn fun i => words.getD i 0) h
  Vector.ofFn fun i => h[i] + after[i]

def hash (message : Bytes) : Bytes :=
  ((Bytes.inBlocks 64 (pad message)).foldl compress initial).toList.flatMap fun w =>
    Bytes.bigEndian 4 w.toNat

end PeerChat.Sha256
