/-!
# Byte strings

A byte string is a list of bytes. Numbers are written on a fixed number of bytes, least or most
significant byte first, and read back; `cut?` takes a fixed-width value off the front of a stream.
-/

namespace PeerChat

abbrev Bytes := List UInt8

namespace Bytes

/-- The `width` lowest base-256 digits of a number, least significant first. -/
def littleEndian : (width : Nat) → Nat → Bytes
  | 0, _ => []
  | width + 1, n => UInt8.ofNat n :: littleEndian width (n / 256)

/-- The number whose base-256 digits are given, least significant first. -/
def ofLittleEndian : Bytes → Nat
  | [] => 0
  | b :: rest => b.toNat + 256 * ofLittleEndian rest

def bigEndian (width n : Nat) : Bytes := (littleEndian width n).reverse

def ofBigEndian (bs : Bytes) : Nat := ofLittleEndian bs.reverse

/-- A fixed-width value at the front of a stream, and what follows it. -/
def cut? (n : Nat) (bs : Bytes) : Option (Vector UInt8 n × Bytes) :=
  if h : (bs.take n).length = n then some (⟨(bs.take n).toArray, by simpa using h⟩, bs.drop n)
  else none

/-- The whole of a byte string as a value of fixed width. -/
def exactly? (n : Nat) (bs : Bytes) : Option (Vector UInt8 n) :=
  if h : bs.length = n then some ⟨bs.toArray, by simpa using h⟩ else none

/-- The first `count` blocks of `size` bytes; the last of them may be short. -/
def blocks (size : Nat) : (count : Nat) → Bytes → List Bytes
  | 0, _ => []
  | count + 1, bs => bs.take size :: blocks size count (bs.drop size)

/-- All of a byte string in blocks of `size` bytes, the last of which may be short. -/
def inBlocks (size : Nat) (bs : Bytes) : List Bytes :=
  blocks size ((bs.length + (size - 1)) / size) bs

def hexDigit (n : Nat) : Char :=
  if n < 10 then Char.ofNat ('0'.toNat + n) else Char.ofNat ('a'.toNat + (n - 10))

/-- Two lower-case hexadecimal digits for each byte. -/
def hex (bs : Bytes) : String :=
  String.ofList (bs.flatMap fun b => [hexDigit (b.toNat / 16), hexDigit (b.toNat % 16)])

@[simp] theorem length_littleEndian (width n : Nat) : (littleEndian width n).length = width := by
  induction width generalizing n with
  | zero => rfl
  | succ width ih => simp [littleEndian, ih]

@[simp] theorem length_bigEndian (width n : Nat) : (bigEndian width n).length = width := by
  simp [bigEndian]

end Bytes

end PeerChat
