/-!
# Decimal numbers

Reading a decimal number with a bound: one plus sign may come first, leading zeros are allowed.
Numbers are written as Lean writes them, without either.
-/

namespace PeerChat.Decimal

/-- The value of a run of digits, which may be empty. -/
def valueOf (digits : List Char) : Nat := Nat.ofDigitChars 10 digits 0

def readDigits? (bound : Nat) (digits : List Char) : Option Nat :=
  if digits.isEmpty || !digits.all Char.isDigit then none
  else if valueOf digits < bound then some (valueOf digits) else none

def read? (bound : Nat) (s : String) : Option Nat :=
  match s.toList with
  | '+' :: digits => readDigits? bound digits
  | digits => readDigits? bound digits

end PeerChat.Decimal
