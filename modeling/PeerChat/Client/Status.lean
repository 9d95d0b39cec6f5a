/-!
# Where a client stands

A client that negotiates or is in a session is busy: it denies every call.
-/

namespace PeerChat

inductive Status where
  | disconnected
  | connected
  | registered
  | idle
  | negotiating
  | inSession
  deriving DecidableEq, Repr

def Status.isBusy : Status → Bool
  | negotiating | inSession => true
  | disconnected | connected | registered | idle => false

end PeerChat
