import PeerChat.Kem.Basic
import PeerChat.Wire.Error

/-!
# Failures of a connection

The causes that end a conversation, with their texts: the transport under it, the lines and frames
on it, and the cryptography of its session.
-/

namespace PeerChat

inductive TransportError where
  /-- The stream ended inside the length of a frame. -/
  | cutLength
  /-- The stream ended inside a payload or a fixed-width value. -/
  | cutPayload
  | brokenPipe
  | refused
  | addressInUse
  /-- The text of an endpoint lacks a port, or has none that can be one, or no known host. -/
  | notAnEndpoint
  | notAPort
  | unknownHost
  deriving DecidableEq, Repr

namespace TransportError

def message : TransportError → String
  | cutLength => "stream ended inside a frame length prefix"
  | cutPayload => "early eof"
  | brokenPipe => "broken pipe"
  | refused => "Connection refused (os error 111)"
  | addressInUse => "Address already in use (os error 98)"
  | notAnEndpoint => "invalid socket address"
  | notAPort => "invalid port value"
  | unknownHost => "failed to lookup address information: Temporary failure in name resolution"

def details : TransportError → String
  | cutLength =>
    "Custom \x7b kind: UnexpectedEof, error: \"stream ended inside a frame length prefix\" \x7d"
  | cutPayload => "Custom \x7b kind: UnexpectedEof, error: \"early eof\" \x7d"
  | brokenPipe => "Os \x7b code: 32, kind: BrokenPipe, message: \"Broken pipe\" \x7d"
  | refused => "Os \x7b code: 111, kind: ConnectionRefused, message: \"Connection refused\" \x7d"
  | addressInUse => "Os \x7b code: 98, kind: AddrInUse, message: \"Address already in use\" \x7d"
  | notAnEndpoint => "Error \x7b kind: InvalidInput, message: \"invalid socket address\" \x7d"
  | notAPort => "Error \x7b kind: InvalidInput, message: \"invalid port value\" \x7d"
  | unknownHost =>
    "Custom \x7b kind: Uncategorized, error: " ++ Text.quoted unknownHost.message ++ " \x7d"

end TransportError

inductive CryptoError where
  | kem (cause : KemError)
  | wrongLength (what : String) (expected actual : Nat)
  | shortSecret
  | sealFailed
  | openFailed
  | noncesExhausted
  deriving DecidableEq, Repr

namespace CryptoError

def message : CryptoError → String
  | kem cause => cause.message
  | wrongLength what expected actual =>
    what ++ " has length " ++ toString actual ++ ", expected " ++ toString expected
  | shortSecret => "shared secret shorter than 32 bytes"
  | sealFailed => "encryption failed"
  | openFailed => "decryption failed"
  | noncesExhausted => "nonce sequence exhausted"

end CryptoError

inductive Failure where
  | transport (cause : TransportError)
  | wire (cause : WireError)
  | crypto (cause : CryptoError)
  | peerClosed
  deriving DecidableEq, Repr

namespace Failure

def message : Failure → String
  | transport cause => "transport failure: " ++ cause.message
  | wire cause => cause.message
  | crypto cause => cause.message
  | peerClosed => "connection closed by peer"

/-- The cause and its data, as shown when it ends the program. A session's failures do not. -/
def details : Failure → String
  | transport cause => "Transport(" ++ cause.details ++ ")"
  | wire cause => "Protocol(" ++ cause.details ++ ")"
  | crypto cause => "Crypto(" ++ Text.quoted cause.message ++ ")"
  | peerClosed => "PeerClosed"

end Failure

end PeerChat
