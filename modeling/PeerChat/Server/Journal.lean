import PeerChat.Server.Run

/-!
# What a run of the server does for each connection

At each step of a run something can be noted: what the step puts into a connection's outbox, and who
has registered with it.  Beside that stands what each step owes a connection, read off the state and
the line alone: a reply to a line of its own, and a notice of whoever else has come.
-/

namespace PeerChat.Server

/-- What is noted in a run, step by step. -/
def log {α : Type} (note : Server → Step → List α) (s : Server) : List Step → List α
  | [] => []
  | f :: later => note s f ++ log note (s.step f) later

theorem log_append {α : Type} (note : Server → Step → List α) (s : Server) (steps later : List Step) :
    log note s (steps ++ later) = log note s steps ++ log note (s.run steps) later := by
  induction steps generalizing s with
  | nil => rfl
  | cons f steps ih =>
    rw [List.cons_append, log, log, ih, List.append_assoc]
    rfl

def outboxOf (s : Server) (id : ConnectionId) : List ServerMessage :=
  match s.connection? id with
  | some c => c.outbox
  | none => []

/-- The connection is there, and its outbox is not. -/
def Unwritable (s : Server) (id : ConnectionId) : Prop :=
  ∃ c ∈ s.connections, c.id = id ∧ c.writable = false

instance (s : Server) (id : ConnectionId) : Decidable (s.Unwritable id) :=
  inferInstanceAs (Decidable (∃ c ∈ s.connections, c.id = id ∧ c.writable = false))

/-- While the connection is open, its outbox is not full. -/
def Ready (s : Server) (id : ConnectionId) : Prop :=
  ∀ c ∈ s.connections, c.id = id → c.phase ≠ .closed → c.outbox.length < outboxCapacity

instance (s : Server) (id : ConnectionId) : Decidable (s.Ready id) :=
  inferInstanceAs (Decidable (∀ c ∈ s.connections, c.id = id → c.phase ≠ .closed →
    c.outbox.length < outboxCapacity))

/-- What a step puts behind the messages that are in an outbox. -/
def queuedBy (id : ConnectionId) (s : Server) (f : Step) : List ServerMessage :=
  ((s.step f).outboxOf id).drop (s.outboxOf id).length

/-- Who completes a registration with a step, and under which name. -/
def entering? (s : Server) (f : Step) : Option (ConnectionId × String) :=
  match s.heard? f with
  | some (c, .register name port) =>
    if c.phase = .registering then
      match s.directory.insert ⟨name, c.address, port⟩ (some c.id) with
      | .ok _ => some (c.id, name)
      | .error _ => none
    else none
  | _ => none

def entrants (s : Server) (steps : List Step) : List (ConnectionId × String) :=
  log (fun s f => (s.entering? f).toList) s steps

/-! ## What is owed -/

/-- The reply that a line calls for, if it calls for any. -/
def replyDue (s : Server) (c : Connection) (line : String) : Option ServerMessage :=
  match c.phase, Command.parse line with
  | .registering, .ok (.register name _) =>
    if s.directory.contains name then some .nameTaken
    else if s.directory.capacity ≤ s.directory.size then some .serverFull
    else some (.peerList (s.directory.peers none))
  | .registered own, .ok .listPeers => some (.peerList (s.directory.peers (some own)))
  | .registered _, .ok (.remove _) | .registered _, .ok (.reportGone _) => none
  | _, _ => some .invalidCommand

/-- The reply owed for a line that is not blank, while the connection is open. -/
def replyTo (id : ConnectionId) (s : Server) : Step → List ServerMessage
  | .read j (.text line) =>
    match s.connection? id with
    | some c =>
      if j = id ∧ c.phase ≠ .closed ∧ Text.trim line ≠ "" then (s.replyDue c line).toList else []
    | none => []
  | _ => []

/-- The notice owed, while the connection is open, of another that completes its registration. -/
def noticeTo (id : ConnectionId) (s : Server) (f : Step) : List ServerMessage :=
  match s.connection? id, s.entering? f with
  | some c, some (j, name) => if j ≠ id ∧ c.phase ≠ .closed then [.newcomer name] else []
  | _, _ => []

/-- What is noted as long as the connection can be written to. -/
def whileWritable (id : ConnectionId) (note : Server → Step → List ServerMessage) (s : Server)
    (f : Step) : List ServerMessage :=
  if s.Unwritable id then [] else note s f

end PeerChat.Server
