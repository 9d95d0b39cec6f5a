import PeerChat.Client.Incidents
import PeerChat.Proofs.Client.Turn

/-!
# One incident

A task decides on what a client does something: on a few events, on moves from some sources, and on the
loss of a connection from which it reads (`Client.meeting`). All else it only takes down.
-/

namespace PeerChat

/-! ## What is taken down -/

def Incident.line? : Incident → Option String
  | act (.event (.typed line)) => some line
  | _ => none

def Inbox.meet (i : Inbox) : Incident → Inbox
  | .act (.event (.serverSent bytes)) => i.receive bytes
  | .act (.event .serverEnded) => i.serverEnded
  | .serverFailed => i.fail
  | _ => i

def Link.meet (l : Link) : Incident → Link
  | .act (.event (.serverSent bytes)) => l.receive bytes
  | .act (.event .serverEnded) => l.serverEnded
  | .serverFailed => l.fail
  | _ => l

theorem Link.name_meet (l : Link) (x : Incident) : (l.meet x).name = l.name := by
  unfold Link.meet
  split <;> rfl

theorem Link.Proper.fail {l : Link} (h : l.Proper) : l.fail.Proper := by
  have hempty : Link.Proper { l with listener := { l.listener with unread := [] } } :=
    ⟨⟨h.listener.current, h.listener.pending⟩, h.updates⟩
  exact hempty.serverEnded

theorem Link.Proper.meet {l : Link} (h : l.Proper) (x : Incident) : (l.meet x).Proper := by
  unfold Link.meet
  split
  · exact h.receive _
  · exact h.serverEnded
  · exact h.fail
  · exact h

/-- A turn of a client that has only taken something down. -/
structure Turn.Listens (c : Client) (x : Incident) (t : Turn) : Prop where
  task : t.client.task = c.task
  status : t.client.status = c.status
  settings : t.client.settings = c.settings
  port : t.client.port = c.port
  name : t.client.name = c.name
  peers : t.client.peers = c.peers
  typed : t.client.typed = c.typed ++ x.line?.toList
  inbox : t.client.inbox = c.inbox.map (·.meet x)
  link : t.client.link = c.link.map (·.meet x)
  silent : t.toServer = []

namespace Turn.Listens

variable {c : Client} {x : Incident}

/-- What is taken down does not come from the server and is not typed. -/
def Aside (x : Incident) : Prop :=
  x.line? = none ∧ (∀ i : Inbox, i.meet x = i) ∧ ∀ l : Link, l.meet x = l

/-- All that changes is what matters to nobody but callers, or to later moves. -/
theorem of_aside (h : Aside x) {direct : Option Direct} {reception : Reception}
    {inputEnded serverWritable : Bool} {t : Turn}
    (ht : t.client = { c with direct, reception, inputEnded, serverWritable })
    (hsilent : t.toServer = []) : t.Listens c x := by
  obtain ⟨hline, hi, hl⟩ := h
  refine ⟨by rw [ht], by rw [ht], by rw [ht], by rw [ht], by rw [ht], by rw [ht], ?_, ?_, ?_, hsilent⟩
  · rw [ht, hline]
    exact (List.append_nil _).symm
  · rw [ht]
    simp only [hi, Option.map_id']
  · rw [ht]
    simp only [hl, Option.map_id']

theorem of_quiet (h : Aside x) : (Turn.of c).Listens c x :=
  of_aside h rfl rfl

theorem onReception (party : Party) (bytes : Bytes) (ended : Bool) (h : Aside x) :
    (c.onReception party bytes ended).Listens c x := by
  unfold Client.onReception
  split
  · exact of_aside h (client_receive _ _) (toServer_receive _ _)
  · exact of_quiet h

theorem onDirect (party : Party) (bytes : Bytes) (ended : Bool) (h : Aside x) :
    (c.onDirect party bytes ended).Listens c x := by
  unfold Client.onDirect
  split
  · split
    · exact of_aside h (Turn.client_setDirect _ _) rfl
    · exact onReception party bytes ended h
  · exact onReception party bytes ended h

end Turn.Listens

/-! ## What is heeded -/

/-- Events on which a client does something that is at the task. -/
def Task.awaits : Task → Event → Bool
  | .binding, .listening _ | .binding, .cannotListen _ => true
  | .reaching, .serverConnected | .reaching, .serverUnreachable _ => true
  | .returning, .serverConnected | .returning, .serverUnreachable _ => true
  | .dialing _, .dialed | .dialing _, .dialFailed _ => true
  | _, _ => false

/-- Sources from which a client can move that is at the task. -/
def Task.sources : Task → List Source
  | .registered => [.own]
  | .choosingPort | .choosingName | .choosingEndpoint | .deciding _ => [.keyboard]
  | .signingUp _ | .rejoining => [.server]
  | .idle => [.keyboard, .calls, .server, .reception]
  | .asking _ | .concluding _ _ | .responding _ => [.direct]
  | .chatting _ => [.keyboard, .direct]
  | .binding | .reaching | .dialing _ | .returning | .over _ => []

/-- Only the main loop takes calls up. -/
theorem Task.eq_idle {task : Task} (h : .calls ∈ task.sources) : task = .idle := by
  cases task with
  | idle => rfl
  | _ => exact absurd h (by simp [sources])

namespace Client

variable {c : Client} {t : Turn}

theorem source_mem_of_move {source : Source} (h : c.move? source = some t) :
    source ∈ c.task.sources := by
  cases source with
  | own =>
    simp only [move?, moveOwn] at h
    split at h <;> simp_all [Task.sources]
  | keyboard =>
    simp only [move?, moveKeyboard] at h
    split at h
    · rename_i hwaits
      unfold awaitsLine at hwaits
      split at hwaits <;> simp_all [Task.sources]
    · exact absurd h (by simp)
  | calls =>
    simp only [move?, moveCalls] at h
    split at h <;> simp_all [Task.sources]
  | server =>
    simp only [move?, moveServer] at h
    split at h <;> simp_all [Task.sources]
  | direct =>
    simp only [move?, moveDirect] at h
    split at h
    · exact absurd h (by simp)
    · split at h <;> simp_all [Task.sources]
  | reception =>
    simp only [move?, moveReception] at h
    split at h <;> simp_all [Task.sources]

/-- What a client does not await, it takes down. -/
theorem listens_event {e : Event} (h : c.task.awaits e = false) :
    (c.onEvent e).Listens c (.act (.event e)) := by
  have hquiet : Turn.Listens.Aside (.act (.event e)) → (Turn.of c).Listens c (.act (.event e)) :=
    Turn.Listens.of_quiet
  cases e with
  | typed line =>
    exact ⟨rfl, rfl, rfl, rfl, rfl, rfl, rfl, by simp [onEvent, Inbox.meet],
      by simp [onEvent, Link.meet], rfl⟩
  | serverSent bytes =>
    exact ⟨rfl, rfl, rfl, rfl, rfl, rfl, (List.append_nil _).symm, rfl, rfl, rfl⟩
  | serverEnded => exact ⟨rfl, rfl, rfl, rfl, rfl, rfl, (List.append_nil _).symm, rfl, rfl, rfl⟩
  | inputEnded | serverBroken | callerConnected id address =>
    exact .of_aside ⟨rfl, fun _ => rfl, fun _ => rfl⟩ (Turn.client_of _) rfl
  | broken party =>
    exact .of_aside ⟨rfl, fun _ => rfl, fun _ => rfl⟩ (Turn.client_of (c.onBroken party)) rfl
  | sent party bytes => exact .onDirect party bytes false ⟨rfl, fun _ => rfl, fun _ => rfl⟩
  | ended party => exact .onDirect party [] true ⟨rfl, fun _ => rfl, fun _ => rfl⟩
  | listening port | cannotListen cause | dialed | dialFailed cause =>
    unfold onEvent
    simp only []
    split
    · rename_i ht
      exact absurd h (by simp [ht, Task.awaits])
    · exact hquiet ⟨rfl, fun _ => rfl, fun _ => rfl⟩
  | serverConnected =>
    unfold onEvent onServerConnected
    simp only []
    split
    · rename_i ht
      exact absurd h (by simp [ht, Task.awaits])
    · rename_i ht
      exact absurd h (by simp [ht, Task.awaits])
    · exact hquiet ⟨rfl, fun _ => rfl, fun _ => rfl⟩
  | serverUnreachable cause =>
    unfold onEvent onServerUnreachable
    simp only []
    split
    · rename_i ht
      exact absurd h (by simp [ht, Task.awaits])
    · rename_i ht
      exact absurd h (by simp [ht, Task.awaits])
    · exact hquiet ⟨rfl, fun _ => rfl, fun _ => rfl⟩

/-- What can come of an incident, by the task. -/
inductive Meeting (c : Client) : Incident → Prop
  | hears {x : Incident} (listens : (c.meet x).Listens c x) : Meeting c x
  | heeds {e : Event} (awaited : c.task.awaits e = true) : Meeting c (.act (.event e))
  | moves {source : Source} {t : Turn} (mem : source ∈ c.task.sources)
      (move : c.move? source = some t) (turn : c.meet (.act (.move source)) = t) :
      Meeting c (.act (.move source))
  | loses {cause : TransportError} (mem : .direct ∈ c.task.sources) : Meeting c (.directFailed cause)

theorem meeting (c : Client) (x : Incident) : c.Meeting x := by
  cases x with
  | serverFailed =>
    exact .hears ⟨rfl, rfl, rfl, rfl, rfl, rfl, (List.append_nil _).symm, rfl, rfl, rfl⟩
  | directFailed cause =>
    by_cases hmem : .direct ∈ c.task.sources
    · exact .loses hmem
    · have hstill : c.meet (.directFailed cause) = Turn.of c := by
        rw [meet, onDirectFailed]
        split <;> simp_all [Task.sources]
      exact .hears (hstill ▸ .of_quiet ⟨rfl, fun _ => rfl, fun _ => rfl⟩)
  | act a =>
    cases a with
    | event e =>
      cases ha : c.task.awaits e with
      | true => exact .heeds ha
      | false => exact .hears (listens_event ha)
    | move source =>
      cases hm : c.move? source with
      | none =>
        have hstill : c.meet (.act (.move source)) = Turn.of c := by
          rw [meet, act, hm]
          rfl
        exact .hears (hstill ▸ .of_quiet ⟨rfl, fun _ => rfl, fun _ => rfl⟩)
      | some t =>
        have hturn : c.meet (.act (.move source)) = t := by
          rw [meet, act, hm]
          rfl
        exact .moves (source_mem_of_move hm) hm hturn

end Client

/-! ## One after the other -/

namespace Turn

variable {p : Client → Prop} {t : Turn} {world : List Incident} {x : Incident}

@[simp] theorem client_meet (t : Turn) (x : Incident) : (t.meet x).client = (t.client.meet x).client :=
  rfl

theorem toServer_meet (t : Turn) (x : Incident) :
    (t.meet x).toServer = t.toServer ++ (t.client.meet x).toServer := List.filter_append ..

theorem meetAll_append (t : Turn) (world later : List Incident) :
    t.meetAll (world ++ later) = (t.meetAll world).meetAll later := List.foldl_append

theorem meetAll_concat (t : Turn) (world : List Incident) (x : Incident) :
    t.meetAll (world ++ [x]) = (t.meetAll world).meet x := meetAll_append t world [x]

end Turn

end PeerChat
