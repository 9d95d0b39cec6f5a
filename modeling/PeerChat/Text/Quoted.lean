import PeerChat.Text.Blank
import PeerChat.Text.Extending
import PeerChat.Text.Unprintable

/-!
# Quoted text

A text between double quotes, in which quotes, backslashes and the usual control characters are
written with a backslash, and all that could not be seen is written by its code point.
-/

namespace PeerChat.Text

def isShown (c : Char) : Bool :=
  !inRanges unprintableRanges c && !inRanges extendingRanges c

def escapeChar (c : Char) : List Char :=
  match c with
  | '\x00' => ['\\', '0']
  | '\t' => ['\\', 't']
  | '\n' => ['\\', 'n']
  | '\r' => ['\\', 'r']
  | '"' => ['\\', '"']
  | '\\' => ['\\', '\\']
  | c => if isShown c then [c] else ['\\', 'u', '\x7b'] ++ Nat.toDigits 16 c.toNat ++ ['\x7d']

def quoted (s : String) : String := String.ofList ('"' :: s.toList.flatMap escapeChar ++ ['"'])

end PeerChat.Text
