import PeerChat.Bytes

/-!
# The ChaCha20 stream

A block of 64 key stream bytes for each value of a 32-bit counter. The key stream is added to a
message byte by byte, so that adding it twice gives the message back.
-/

namespace PeerChat.ChaCha20

abbrev State := Vector UInt32 16

def rotateLeft (w : UInt32) (k : UInt32) : UInt32 := (w <<< k) ||| (w >>> (32 - k))

def quarterRound (a b c d : Fin 16) (s : State) : State :=
  let wa := s[a] + s[b]
  let wd := rotateLeft (s[d] ^^^ wa) 16
  let wc := s[c] + wd
  let wb := rotateLeft (s[b] ^^^ wc) 12
  let wa := wa + wb
  let wd := rotateLeft (wd ^^^ wa) 8
  let wc := wc + wd
  let wb := rotateLeft (wb ^^^ wc) 7
  (((s.set a wa).set b wb).set c wc).set d wd

def columnRound (s : State) : State :=
  quarterRound 3 7 11 15 (quarterRound 2 6 10 14 (quarterRound 1 5 9 13 (quarterRound 0 4 8 12 s)))

def diagonalRound (s : State) : State :=
  quarterRound 3 4 9 14 (quarterRound 2 7 8 13 (quarterRound 1 6 11 12 (quarterRound 0 5 10 15 s)))

def doubleRounds : Nat → State → State
  | 0, s => s
  | n + 1, s => doubleRounds n (diagonalRound (columnRound s))

/-- The words of a byte string, least significant byte first. -/
def words (bs : Bytes) : Array UInt32 :=
  (Bytes.inBlocks 4 bs).toArray.map fun w => UInt32.ofNat (Bytes.ofLittleEndian w)

def constants : Bytes := "expand 32-byte k".toList.map fun c => UInt8.ofNat c.toNat

def initial (key : Vector UInt8 32) (nonce : Vector UInt8 12) (counter : Nat) : State :=
  let ws := words (constants ++ key.toList ++ Bytes.littleEndian 4 counter ++ nonce.toList)
  Vector.ofFn fun i => ws.getD i 0

def block (key : Vector UInt8 32) (nonce : Vector UInt8 12) (counter : Nat) : Bytes :=
  let start := initial key nonce counter
  let mixed := doubleRounds 10 start
  (List.finRange 16).flatMap fun i => Bytes.littleEndian 4 (start[i] + mixed[i]).toNat

/-- The key stream from block `first` on, long enough for `size` bytes. -/
def keyStream (key : Vector UInt8 32) (nonce : Vector UInt8 12) (first size : Nat) : Bytes :=
  (List.range ((size + 63) / 64)).flatMap fun i => block key nonce (first + i)

/-- A message with the key stream from block `first` on added to it. -/
def apply (key : Vector UInt8 32) (nonce : Vector UInt8 12) (first : Nat) (message : Bytes) :
    Bytes :=
  List.zipWith (· ^^^ ·) message (keyStream key nonce first message.length)

@[simp] theorem length_block (key : Vector UInt8 32) (nonce : Vector UInt8 12) (counter : Nat) :
    (block key nonce counter).length = 64 := by
  simp only [block, List.length_flatMap, Bytes.length_littleEndian]
  decide

end PeerChat.ChaCha20
