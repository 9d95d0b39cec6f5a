import PeerChat.Cipher.ChaCha20
import PeerChat.Cipher.Poly1305

/-!
# Authenticated encryption with ChaCha20 and Poly1305

A sealed message is the message under the key stream, followed by a tag of 16 bytes over it.
Opening checks the tag before anything is given out.
-/

namespace PeerChat.Aead

abbrev Key := Vector UInt8 32

abbrev Nonce := Vector UInt8 12

def tagSize : Nat := 16

/-- The 32-bit block counter starts at one, so less than `2 ^ 32 - 1` blocks can be sealed. -/
def maxMessage : Nat := 64 * 0xffffffff

def zeroPadding (size : Nat) : Bytes := List.replicate ((16 - size % 16) % 16) 0

/-- The tag covers the sealed text, padded to whole blocks, and the lengths of the empty
associated data and of the text. -/
def tag (key : Key) (nonce : Nonce) (text : Bytes) : Bytes :=
  Poly1305.tag ((ChaCha20.block key nonce 0).take 32)
    (text ++ zeroPadding text.length ++ Bytes.littleEndian 8 0 ++ Bytes.littleEndian 8 text.length)

/-- A sealed message; `none` if the message is longer than the counter allows. -/
def seal? (key : Key) (nonce : Nonce) (message : Bytes) : Option Bytes :=
  if message.length < maxMessage then
    let text := ChaCha20.apply key nonce 1 message
    some (text ++ tag key nonce text)
  else none

/-- The message of a sealed text; `none` if the tag is not its own. -/
def open? (key : Key) (nonce : Nonce) (sealed : Bytes) : Option Bytes :=
  if sealed.length < tagSize then none
  else
    let text := sealed.take (sealed.length - tagSize)
    if text.length < maxMessage ∧ sealed.drop (sealed.length - tagSize) = tag key nonce text then
      some (ChaCha20.apply key nonce 1 text)
    else none

end PeerChat.Aead
