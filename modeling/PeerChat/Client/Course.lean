import PeerChat.Client.Run

/-!
# The course of a client

Events come at any time, and a client moves from any of its sources in between.  Among all that it can
do next, it accepts a request, or leaves for good.
-/

namespace PeerChat

/-- What a client does next: it takes an event down, or moves from a source. -/
inductive Act where
  | event (e : Event)
  | move (source : Source)

namespace Client

/-- A source that has nothing leaves the client as it is. -/
def act (c : Client) : Act → Turn
  | .event e => c.onEvent e
  | .move source => (c.move? source).getD (Turn.of c)

/-- How a client leaves the list of peers, if it is on it: it takes its name off, if the server still
takes what is sent, and gives the connection up. -/
def farewell (c : Client) : List Effect :=
  if c.link.isSome then
    (if c.serverWritable then [.sendServer (Line.write (Command.remove c.name).line)] else []) ++
      [.closeServer]
  else []

/-- A request for a session is accepted: by the peer that was called, or by the user. -/
def Accepts (c : Client) : Act → Prop
  | .move .direct =>
    ∃ target d rest, c.task = .asking target ∧ c.direct = some d ∧
      Negotiation.readVerdict d.ended d.incoming = .done (.accepted rest)
  | .move .keyboard =>
    ∃ name line typed, c.task = .deciding name ∧ c.typed = line :: typed ∧
      Turn.isYes (Text.trim line).toLower = true ∧ c.canSend = true
  | _ => False

/-- The user leaves the main loop, or the input ends there. -/
def Exits (c : Client) : Act → Prop
  | .move .keyboard =>
    c.task = .idle ∧ ((∃ line typed, c.typed = line :: typed ∧ Text.trim line = "exit") ∨
      (c.typed = [] ∧ c.inputEnded = true))
  | _ => False

end Client

end PeerChat
