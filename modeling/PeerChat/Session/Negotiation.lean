import PeerChat.Session.Handshake
import PeerChat.Stream.Line
import PeerChat.Wire.CallMessage

/-!
# Asking for a session

The caller sends one request and waits for one reply; a hang-up instead of a reply is a denial.
The callee reads one request. Neither reads a byte beyond its line.
-/

namespace PeerChat.Negotiation

def request (name : String) : Bytes := Line.write (CallMessage.request name).line

def answer (accept : Bool) : Bytes :=
  Line.write (if accept then CallMessage.accept else CallMessage.deny).line

inductive Verdict where
  | accepted (rest : Bytes)
  | denied
  deriving DecidableEq, Repr

/-- The reply to a request. -/
def readVerdict (ended : Bool) (incoming : Bytes) : Progress Verdict :=
  match Line.read Line.maxSize ended incoming with
  | .incomplete => .waiting
  | .ended => .done .denied
  | .tooLong _ => .failed (.wire (.lineTooLong Line.maxSize))
  | .line reply rest =>
    match CallMessage.parse reply with
    | .ok .accept => .done (.accepted rest)
    | .ok .deny => .done .denied
    | _ => .failed (.wire (.unexpectedReply reply))

/-- The name in a request, and what follows it. -/
def readRequest (ended : Bool) (incoming : Bytes) : Progress (String × Bytes) :=
  match Line.read Line.maxSize ended incoming with
  | .incomplete => .waiting
  | .ended => .failed .peerClosed
  | .tooLong _ => .failed (.wire (.lineTooLong Line.maxSize))
  | .line line rest =>
    match CallMessage.parse line with
    | .ok (.request name) => .done (name, rest)
    | .ok other => .failed (.wire (.unexpectedReply other.text))
    | .error cause => .failed (.wire cause)

end PeerChat.Negotiation
