import PeerChat.Bytes

/-!
# The Poly1305 authenticator

A message is the list of its 16-byte blocks, each with a one byte put behind it, read as the
coefficients of a polynomial over the integers modulo `2 ^ 130 - 5`; its tag is the value of that
polynomial at one half of the key, with the other half added.
-/

namespace PeerChat.Poly1305

def modulus : Nat := (1 <<< 130) - 5

def clampMask : Nat := 0x0ffffffc0ffffffc0ffffffc0fffffff

def tag (key message : Bytes) : Bytes :=
  let point := Bytes.ofLittleEndian (key.take 16) &&& clampMask
  let pad := Bytes.ofLittleEndian ((key.drop 16).take 16)
  let value := (Bytes.inBlocks 16 message).foldl
    (fun sum block => (sum + Bytes.ofLittleEndian (block ++ [1])) * point % modulus) 0
  Bytes.littleEndian 16 (value + pad)

@[simp] theorem length_tag (key message : Bytes) : (tag key message).length = 16 := by
  simp [tag]

end PeerChat.Poly1305
