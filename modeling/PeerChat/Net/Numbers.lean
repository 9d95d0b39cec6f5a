import PeerChat.Net.Address

/-!
# Addresses given by numbers

The host of an endpoint may be given by one to four numbers with dots between. Each but the last is
one octet, and the last fills all octets that are left. A number may be hexadecimal behind `0x`, or
octal behind a zero.
-/

namespace PeerChat.IpAddress

/-- The value of a non-empty run of digits, of which each is below the base. -/
def readDigits? (base : Nat) (digits : List Char) : Option Nat :=
  if digits.isEmpty then none
  else digits.foldlM
    (fun value c => ((hexValue? c).filter (· < base)).map (base * value + ·)) 0

def readNumber? : List Char → Option Nat
  | '0' :: 'x' :: digits | '0' :: 'X' :: digits => readDigits? 16 digits
  | '0' :: digit :: digits => readDigits? 8 (digit :: digits)
  | digits => readDigits? 10 digits

/-- The value on `room` octets of numbers of which the last takes all that are left. -/
def packNumbers? : (room : Nat) → List Nat → Option Nat
  | room, [last] => if last < (1 <<< (8 * room)) then some last else none
  | room + 2, n :: later =>
    if n < 256 then (packNumbers? (room + 1) later).map (n <<< (8 * (room + 1)) + ·) else none
  | _, _ => none

/-- The address with the given value on its four octets. -/
def ofValue (n : Nat) : IpAddress :=
  .v4 (UInt8.ofNat (n >>> 24)) (UInt8.ofNat (n >>> 16)) (UInt8.ofNat (n >>> 8)) (UInt8.ofNat n)

def readNumbers? (host : List Char) : Option IpAddress := do
  let numbers ← (fields '.' host).mapM readNumber?
  (packNumbers? 4 numbers).map ofValue

end PeerChat.IpAddress
