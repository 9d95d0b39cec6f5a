import PeerChat.Server.Lines

/-!
# Runs of the server

All that can happen at a server, one thing at a time: connections come, each is read line by line to
its end, and outboxes are written out as long as that succeeds.  A run is any sequence of such steps,
over any number of connections and in any order.
-/

namespace PeerChat.Server

inductive Step where
  | accepted (address : IpAddress)
  /-- A line, an over-long line or the end of the stream has been read. -/
  | read (id : ConnectionId) (item : Line.Item)
  /-- Reading has failed. -/
  | failed (id : ConnectionId)
  /-- So many messages of an outbox have been written. -/
  | written (id : ConnectionId) (count : Nat)
  /-- Writing has failed. -/
  | broken (id : ConnectionId)
  /-- All outboxes have been written, and closed connections are forgotten. -/
  | flushed

def step (s : Server) : Step → Server
  | .accepted address => s.accept address
  | .read id item => s.handle id item
  | .failed id => s.close id
  | .written id count => s.update id fun c => { c with outbox := c.outbox.drop count }
  | .broken id => s.abandon id
  | .flushed => s.flush.2

def run (s : Server) (steps : List Step) : Server := steps.foldl step s

theorem run_append (s : Server) (steps later : List Step) :
    s.run (steps ++ later) = (s.run steps).run later := List.foldl_append

theorem run_concat (s : Server) (steps : List Step) (f : Step) :
    s.run (steps ++ [f]) = (s.run steps).step f := by
  rw [run_append]
  rfl

/-- Whether a step ends a connection from outside: its stream ends, a line is too long for it, or
reading fails. -/
def Step.Ends (id : ConnectionId) (f : Step) : Prop :=
  f = .read id .ended ∨ f = .read id .tooLong ∨ f = .failed id

/-! ## What is told by the steps of a run -/

/-- The command that a step makes the server obey, and the connection it comes from. -/
def heard? (s : Server) : Step → Option (Connection × Command)
  | .read id (.text line) =>
    match s.connection? id with
    | none => none
    | some c =>
      if c.phase = .closed ∨ Text.trim line = "" then none
      else match Command.parse line with
        | .ok command => some (c, command)
        | .error _ => none
  | _ => none

/-- The connection asks for a name and a port, and has them after the step. -/
def Registers (s : Server) (f : Step) (id : ConnectionId) (name : String) (port : UInt16) : Prop :=
  ∃ c, s.heard? f = some (c, .register name port) ∧ c.id = id ∧ c.phase = .registering ∧
    ∃ d ∈ (s.step f).connections, d.id = id ∧ d.phase = .registered name

/-- A registered connection, whichever it is, has the name removed or reported as gone. -/
def Strikes (s : Server) (f : Step) (name : String) : Prop :=
  ∃ c own, c.phase = .registered own ∧
    (s.heard? f = some (c, .remove name) ∨ s.heard? f = some (c, .reportGone name))

/-- In a run from `s`, the connection has registered the name with the port, and nothing has struck
the name off since. -/
inductive Standing (s : Server) : List Step → ConnectionId → String → UInt16 → Prop
  | registered {steps : List Step} {f : Step} {id : ConnectionId} {name : String} {port : UInt16} :
      Registers (s.run steps) f id name port → Standing s (steps ++ [f]) id name port
  | kept {steps : List Step} {f : Step} {id : ConnectionId} {name : String} {port : UInt16} :
      Standing s steps id name port → ¬ Strikes (s.run steps) f name →
      Standing s (steps ++ [f]) id name port

theorem not_standing_nil {s : Server} {id : ConnectionId} {name : String} {port : UInt16} :
    ¬ Standing s [] id name port := by
  intro h
  generalize hn : ([] : List Step) = steps at h
  cases h <;> exact absurd hn (by simp)

theorem standing_concat {s : Server} {steps : List Step} {f : Step} {id : ConnectionId}
    {name : String} {port : UInt16} :
    Standing s (steps ++ [f]) id name port ↔
      Registers (s.run steps) f id name port ∨
        Standing s steps id name port ∧ ¬ Strikes (s.run steps) f name := by
  constructor
  · intro h
    generalize hn : steps ++ [f] = all at h
    cases h with
    | registered hr =>
      obtain ⟨rfl, hf⟩ := List.append_inj' hn rfl
      obtain rfl := List.singleton_inj.mp hf
      exact .inl hr
    | kept hk hs =>
      obtain ⟨rfl, hf⟩ := List.append_inj' hn rfl
      obtain rfl := List.singleton_inj.mp hf
      exact .inr ⟨hk, hs⟩
  · rintro (hr | ⟨hk, hs⟩)
    · exact .registered hr
    · exact .kept hk hs

end PeerChat.Server
