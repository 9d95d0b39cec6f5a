import PeerChat.Client.Course
import PeerChat.Crowd

/-!
# What a client meets with

Besides what it takes down and does, a client can lose a connection without an end to it: reading
fails, and what had come of an unfinished line or frame is lost. Any list of incidents is a possible
course of its world.
-/

namespace PeerChat

inductive Incident where
  | act (a : Act)
  /-- The server cannot be read any more. -/
  | serverFailed
  /-- The direct connection cannot be read any more. -/
  | directFailed (cause : TransportError)

namespace Client

/-- Whoever reads from the direct connection is told why it cannot be read. -/
def onDirectFailed (c : Client) (cause : TransportError) : Turn :=
  let t := Turn.of c
  match c.task with
  | .asking target => t.concludeAsking target (.error (.transport cause))
  | .concluding remote _ => t.failKeyExchange remote
  | .responding remote => t.failKeyExchange remote
  | .chatting chat =>
    let (chat, events) := chat.takeItem .cutPayload
    (t.printEvents events).continueChat chat
  | _ => t

def meet (c : Client) : Incident → Turn
  | .act a => c.act a
  | .serverFailed => Turn.of c.onServerFailed
  | .directFailed cause => c.onDirectFailed cause

end Client

namespace Turn

/-- An incident, behind what a turn has brought about. -/
def meet (t : Turn) (x : Incident) : Turn :=
  ⟨(t.client.meet x).client, t.effects ++ (t.client.meet x).effects⟩

def meetAll (t : Turn) (world : List Incident) : Turn := world.foldl meet t

/-- Whenever the client meets with something, this holds of it. -/
def Throughout (p : Client → Prop) (t : Turn) : List Incident → Prop
  | [] => True
  | x :: world => p t.client ∧ Throughout p (t.meet x) world

instance decidableThroughout {p : Client → Prop} [DecidablePred p] :
    (t : Turn) → (world : List Incident) → Decidable (t.Throughout p world)
  | _, [] => isTrue trivial
  | t, x :: world =>
    have := decidableThroughout (p := p) (t.meet x) world
    inferInstanceAs (Decidable (p t.client ∧ (t.meet x).Throughout p world))

end Turn

end PeerChat
