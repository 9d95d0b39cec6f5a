import PeerChat.Proofs.Client.Course
import PeerChat.Proofs.Client.Incidents
import PeerChat.Proofs.Client.Moves
import PeerChat.Proofs.Client.Speech

/-!
# Away from the main loop

A client that is away from its main loop either courts a peer, which has not been accepted or has not
accepted yet, or is engaged with one and has left the server.  Whatever it meets with, it goes on with
that, or it goes back (`Client.courts_meet`, `Client.carries_meet`).
-/

namespace PeerChat

namespace Client

/-- The request comes to nothing: the peer that is called does not accept it, or the user does not, or
the user's answer cannot be sent. -/
inductive TurnsDown (c : Client) : Incident → Prop
  | denied {target : String} {d : Direct} (task : c.task = .asking target) (direct : c.direct = some d)
      (verdict : Negotiation.readVerdict d.ended d.incoming = .done .denied) :
      TurnsDown c (.act (.move .direct))
  | failed {target : String} {d : Direct} {cause : Failure} (task : c.task = .asking target)
      (direct : c.direct = some d)
      (verdict : Negotiation.readVerdict d.ended d.incoming = .failed cause) :
      TurnsDown c (.act (.move .direct))
  | lost {target : String} {cause : TransportError} (task : c.task = .asking target) :
      TurnsDown c (.directFailed cause)
  | declined {name line : String} {typed : List String} (task : c.task = .deciding name)
      (line_eq : c.typed = line :: typed) (no : Turn.isNo (Text.trim line).toLower = true) :
      TurnsDown c (.act (.move .keyboard))
  | inputEnded {name : String} (task : c.task = .deciding name) (typed : c.typed = [])
      (ended : c.inputEnded = true) : TurnsDown c (.act (.move .keyboard))
  | unanswerable {name line : String} {typed : List String} (task : c.task = .deciding name)
      (line_eq : c.typed = line :: typed) (yes : Turn.isYes (Text.trim line).toLower = true)
      (broken : c.canSend = false) : TurnsDown c (.act (.move .keyboard))

theorem TurnsDown.aside {c : Client} {x : Incident} (h : c.TurnsDown x) (l : Link) : l.meet x = l := by
  cases h <;> rfl

end Client

/-! ## Turns of a client that is away -/

def Task.isEngaged : Task → Bool
  | .concluding _ _ | .responding _ | .chatting _ => true
  | _ => false

/-- A turn of a client without a link: the session goes on, or the client goes back to the server. -/
inductive Turn.Carries (c : Client) (out : List Effect) (t : Turn) : Prop
  | goesOn (keeps : t.Keeps c out) (task : t.client.task.isEngaged = true)
  | isOver (keeps : t.Keeps c (out ++ [.connectServer])) (task : t.client.task = .returning)

section Carries

variable {c : Client} {out : List Effect} {t : Turn}

variable (hk : t.Keeps c out) (ha : c.settings.anonymous = false)
include hk ha

end Carries

namespace Client

variable {c : Client}

section Engaged

variable {t : Turn} (ht : c.task.isEngaged = true) (ha : c.settings.anonymous = false)
include ht ha

end Engaged

end Client

/-! ## Before a request is accepted -/

def Task.isCourting : Task → Bool
  | .dialing _ | .asking _ | .deciding _ => true
  | _ => false

namespace Client

variable {c : Client} {t : Turn} (ha : c.settings.anonymous = false)
include ha

end Client

end PeerChat
