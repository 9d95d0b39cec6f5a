import PeerChat.Session.Keys

/-!
# Nonces

Each direction of a session draws its nonces from a sequence of its own. Counted nonces are the
initial vector, marked with the sender, with the number of the message added to its last eight
bytes; fixed nonces are the initial vector itself, for peers that know no better.
-/

namespace PeerChat

inductive NonceMode where
  | counter
  | static
  deriving DecidableEq, Repr

structure Nonces where
  base : Aead.Nonce
  mode : NonceMode
  /-- The number of the next message; `none` once all have been used. -/
  next : Option UInt64
  deriving DecidableEq

namespace Nonces

/-- The bit that keeps the two directions apart. -/
def marker : Role → UInt8
  | .initiator => 0x00
  | .responder => 0x80

/-- The initial vector with the bit of the sender in its first byte. -/
def marked (iv : Aead.Nonce) (sender : Role) : Aead.Nonce := iv.set 0 (iv[0] ^^^ marker sender)

/-- The nonces of the messages that `sender` writes. -/
def ofSender (iv : Aead.Nonce) (sender : Role) (mode : NonceMode) : Nonces :=
  match mode with
  | .counter => ⟨marked iv sender, .counter, some 0⟩
  | .static => ⟨iv, .static, some 0⟩

def outbound (keys : SessionKeys) (here : Role) (mode : NonceMode) : Nonces :=
  ofSender keys.iv here mode

def inbound (keys : SessionKeys) (here : Role) (mode : NonceMode) : Nonces :=
  ofSender keys.iv here.peer mode

/-- A message number as it is added to a nonce. -/
def mask (count : UInt64) : Aead.Nonce :=
  #v[0, 0, 0, 0,
    (count >>> 56).toUInt8, (count >>> 48).toUInt8, (count >>> 40).toUInt8, (count >>> 32).toUInt8,
    (count >>> 24).toUInt8, (count >>> 16).toUInt8, (count >>> 8).toUInt8, count.toUInt8]

def add (base mask : Aead.Nonce) : Aead.Nonce := Vector.zipWith (· ^^^ ·) base mask

/-- The number leaves the byte with the bit of the sender alone. -/
theorem head_add_mask (iv : Aead.Nonce) (sender : Role) (count : UInt64) :
    (add (marked iv sender) (mask count))[0] = iv[0] ^^^ marker sender := by
  simp [add, marked, mask]

/-- The nonce of the next message. -/
def current (n : Nonces) : Except CryptoError Aead.Nonce :=
  match n.mode with
  | .static => .ok n.base
  | .counter =>
    match n.next with
    | some count => .ok (add n.base (mask count))
    | none => .error .noncesExhausted

def advance (n : Nonces) : Nonces :=
  match n.mode with
  | .static => n
  | .counter =>
    match n.next with
    | some count => { n with next := if count = -1 then none else some (count + 1) }
    | none => n

end Nonces

end PeerChat
