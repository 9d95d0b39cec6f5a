import PeerChat.Bytes

/-!
# UTF-8

Text is written as UTF-8. Reading never fails: each longest beginning of a character that does not
go on as it must, and each byte that begins none, reads as U+FFFD.
-/

namespace PeerChat.Utf8

def encode (s : String) : Bytes := s.toList.flatMap String.utf8EncodeChar

/-- Where a reader stands: between characters, or inside one, with the bits read so far, the number
of bytes to come and the bounds on the next of them. -/
inductive State where
  | start
  | within (bits left low high : Nat)
  deriving DecidableEq, Repr

def replacement : Char := Char.ofNat 0xfffd

/-- What a byte means between characters. -/
def begin (b : Nat) : List Char × State :=
  if b < 0x80 then ([Char.ofNat b], .start)
  else if b < 0xc2 then ([replacement], .start)
  else if b < 0xe0 then ([], .within (b % 32) 1 0x80 0xbf)
  else if b = 0xe0 then ([], .within (b % 16) 2 0xa0 0xbf)
  else if b = 0xed then ([], .within (b % 16) 2 0x80 0x9f)
  else if b < 0xf0 then ([], .within (b % 16) 2 0x80 0xbf)
  else if b = 0xf0 then ([], .within (b % 8) 3 0x90 0xbf)
  else if b < 0xf4 then ([], .within (b % 8) 3 0x80 0xbf)
  else if b = 0xf4 then ([], .within (b % 8) 3 0x80 0x8f)
  else ([replacement], .start)

/-- The characters that a byte completes, and where the reader stands after it. -/
def step (state : State) (b : Nat) : List Char × State :=
  match state with
  | .start => begin b
  | .within bits left low high =>
    if low ≤ b ∧ b ≤ high then
      if left ≤ 1 then ([Char.ofNat (64 * bits + b % 64)], .start)
      else ([], .within (64 * bits + b % 64) (left - 1) 0x80 0xbf)
    else
      let (chars, next) := begin b
      (replacement :: chars, next)

def decodeFrom : State → Bytes → List Char
  | .start, [] => []
  | .within _ _ _ _, [] => [replacement]
  | state, b :: rest =>
    let (chars, next) := step state b.toNat
    chars ++ decodeFrom next rest

def decode (bs : Bytes) : String := String.ofList (decodeFrom .start bs)

end PeerChat.Utf8
