import PeerChat.Proofs.Client.Turn

/-!
# What a client does to the server

Every move of a client is one of a few deeds (`Client.deed_of_move`, `Client.deed_of_event`): it
connects, asks for a name, attends to what it has heard, withdraws, or leaves the server alone.  A
deed is told by where the client stands with the server before and after it.
-/

namespace PeerChat

/-- Where a client stands with the server. -/
inductive Stand where
  | apart
  | reaching
  | choosing (inbox : Inbox)
  /-- The client has sent a registration and awaits the reply. -/
  | signing (name : String) (inbox : Inbox)
  | linked (link : Link)

structure Face where
  stand : Stand
  peers : List Peer
  name : String
  /-- Whether the server takes what is sent. -/
  writable : Bool

namespace Client

def stand (c : Client) : Stand :=
  match c.task with
  | .reaching | .returning => .reaching
  | .choosingName => c.inbox.elim .apart .choosing
  | .signingUp name => c.inbox.elim .apart (.signing name)
  | .rejoining => c.inbox.elim .apart (.signing c.name)
  | _ => c.link.elim .apart .linked

def face (c : Client) : Face := ⟨c.stand, c.peers, c.name, c.serverWritable⟩

end Client

/-- All of a client that matters to the server but its task. -/
structure Core where
  settings : Settings
  port : UInt16
  name : String
  peers : List Peer
  inbox : Option Inbox
  link : Option Link
  serverWritable : Bool

namespace Core

/-- A name and a port that the server takes. -/
def Named (c : Core) : Prop := isName c.name = true ∧ c.port ≠ 0

/-- The name under which a registered client goes, also on its link. -/
def GoesBy (c : Core) : Prop := c.Named ∧ ∀ l, c.link = some l → l.name = c.name

/-- What a client has while it is at its task. -/
def Fits (c : Core) (status : Status) : Task → Prop
  | .choosingPort | .binding => c.settings.anonymous = false ∧ c.inbox = none ∧ c.link = none
  | .reaching =>
    c.settings.anonymous = false ∧ c.inbox = none ∧ c.link = none ∧ c.port ≠ 0
  | .choosingName =>
    c.settings.anonymous = false ∧ c.inbox.isSome ∧ c.link = none ∧ c.port ≠ 0
  | .signingUp name =>
    c.settings.anonymous = false ∧ c.inbox.isSome ∧ c.link = none ∧ isName name = true ∧ c.port ≠ 0
  | .registered | .deciding _ => c.settings.anonymous = false ∧ c.inbox = none ∧ c.GoesBy
  | .idle => c.settings.anonymous = false ∧ status = .idle ∧ c.inbox = none ∧ c.GoesBy
  | .choosingEndpoint => c.settings.anonymous = true ∧ c.inbox = none ∧ c.link = none
  | .over _ => c.inbox = none ∧ c.link = none
  | .dialing target =>
    c.inbox = none ∧ (c.settings.anonymous = true → c.link = none) ∧
      (c.settings.anonymous = false → isName target = true ∧ c.GoesBy)
  | .asking _ =>
    c.inbox = none ∧ (c.settings.anonymous = true → c.link = none) ∧
      (c.settings.anonymous = false → c.GoesBy)
  | .concluding _ _ | .responding _ | .chatting _ =>
    c.inbox = none ∧ c.link = none ∧ (c.settings.anonymous = false → c.Named)
  | .returning =>
    c.settings.anonymous = false ∧ c.inbox = none ∧ c.link = none ∧ c.Named
  | .rejoining =>
    c.settings.anonymous = false ∧ c.inbox.isSome ∧ c.link = none ∧ c.Named

end Core

namespace Client

def core (c : Client) : Core :=
  ⟨c.settings, c.port, c.name, c.peers, c.inbox, c.link, c.serverWritable⟩

structure Consistent (c : Client) : Prop where
  peers : ProperNames c.peers
  links : ∀ l, c.link = some l → l.Proper
  fits : c.core.Fits c.status c.task

/-- A client from which the server takes what is sent. -/
structure Ready (c : Client) : Prop extends c.Consistent where
  writable : c.serverWritable = true

end Client

def Command.bytes (c : Command) : Bytes := Line.write c.line

/-- Commands that are sent if the server takes them. -/
def Face.sends (f : Face) (commands : List Command) : List Effect :=
  if f.writable then commands.map fun c => .sendServer c.bytes else []

theorem Face.sends_of_writable {f : Face} (h : f.writable = true) (commands : List Command) :
    f.sends commands = commands.map fun c => .sendServer c.bytes := if_pos h

theorem Face.sends_of_broken {f : Face} (h : f.writable = false) (commands : List Command) :
    f.sends commands = [] := if_neg (by simp [h])

/-- All of them are sent, or none. -/
theorem Face.exists_sends (f : Face) (commands : List Command) :
    ∃ sent, sent ⊆ commands ∧ f.sends commands = sent.map fun c => .sendServer c.bytes := by
  unfold sends
  split
  · exact ⟨commands, fun c hc => hc, rfl⟩
  · exact ⟨[], List.nil_subset _, rfl⟩

theorem Face.sends_append (f : Face) (commands later : List Command) :
    f.sends (commands ++ later) = f.sends commands ++ f.sends later := by
  unfold sends
  split
  · exact List.map_append
  · rfl

/-- From one face of a client to the next, with what is done to the connection to the server. -/
inductive Deed (f g : Face) : List Effect → Prop
  | still (stand : g.stand = f.stand) (name : g.name = f.name)
      (peers : f.stand = .apart ∨ g.peers = f.peers) : Deed f g []
  | connects (before : f.stand = .apart) (after : g.stand = .reaching) (name : g.name = f.name) :
      Deed f g [.connectServer]
  | offers {inbox : Inbox} {name : String} {port : UInt16} (before : f.stand = .choosing inbox)
      (writable : f.writable = true) (valid : isName name = true) (named : port ≠ 0)
      (after : g.stand = .signing name inbox) :
      Deed f g [.sendServer (Command.register name port).bytes]
  | leaves {inbox : Inbox} (before : f.stand = .choosing inbox) (after : g.stand = .apart) :
      Deed f g [.closeServer]
  | waits {name : String} {inbox later : Inbox} (before : f.stand = .signing name inbox)
      (reply : inbox.awaitReply = (none, later)) (after : g.stand = .signing name later)
      (peers : g.peers = f.peers) : Deed f g []
  | admitted {name : String} {inbox later : Inbox} (before : f.stand = .signing name inbox)
      (reply : inbox.awaitReply = (some .registered, later))
      (after : g.stand = .linked (.ofInbox name later)) (peers : g.peers = f.peers) : Deed f g []
  | refused {name : String} {inbox later : Inbox} (before : f.stand = .signing name inbox)
      (reply : inbox.awaitReply = (some .nameTaken, later)) (after : g.stand = .choosing later) :
      Deed f g []
  | rejected {name : String} {inbox later : Inbox} {outcome : SignUp}
      (before : f.stand = .signing name inbox) (reply : inbox.awaitReply = (some outcome, later))
      (failed : outcome ≠ .registered) (after : g.stand = .apart) : Deed f g [.closeServer]
  | asks {l : Link} (before : f.stand = .linked l) (writable : f.writable = true)
      (after : g.stand = .linked l) (peers : g.peers = f.peers) (name : g.name = f.name) :
      Deed f g [.sendServer Command.listPeers.bytes]
  | attends {l : Link} {update : Update} {updates : List Update} (before : f.stand = .linked l)
      (next : l.updates = update :: updates) (able : alerts [update] = [] ∨ f.writable = true)
      (after : g.stand = .linked { l with updates })
      (peers : g.peers = latest f.peers [update]) (name : g.name = f.name) :
      Deed f g ((alerts [update]).map fun _ => .sendServer Command.listPeers.bytes)
  | reports {l : Link} {target : String} (before : f.stand = .linked l)
      (valid : isName target = true) (after : g.stand = .linked l)
      (peers : g.peers = f.peers.filter fun p => p.name ≠ target) (name : g.name = f.name) :
      Deed f g (f.sends [.reportGone target, .listPeers])
  | withdraws {l : Link} (before : f.stand = .linked l) (after : g.stand = .apart)
      (name : g.name = f.name) :
      Deed f g (f.sends [.remove l.name] ++ [.closeServer])
  | returns {l : Link} (before : f.stand = .linked l) (after : g.stand = .reaching)
      (name : g.name = f.name) :
      Deed f g (f.sends [.remove l.name] ++ [.closeServer, .connectServer])
  | loses {l : Link} (before : f.stand = .linked l)
      (finished : l.isOver = true ∨ f.writable = false) (after : g.stand = .apart) : Deed f g [.closeServer]

/-- A turn that goes on from a client, after `out`, does one deed and leaves a consistent client. -/
structure Does (c : Client) (out : List Effect) (t : Turn) : Prop where
  consistent : t.client.Consistent
  writable : t.client.serverWritable = c.serverWritable
  deed : ∃ done, t.toServer = out ++ done ∧ Deed c.face t.client.face done

/-! ## What does not matter to the server -/

def Task.isPlain : Task → Bool
  | .reaching | .returning | .choosingName | .signingUp _ | .rejoining => false
  | _ => true

theorem Client.stand_of_isPlain {c : Client} (h : c.task.isPlain = true) :
    c.stand = c.link.elim .apart .linked := by
  unfold stand
  split
  all_goals first
    | rfl
    | (rename_i ht; rw [ht] at h; exact absurd h (by simp [Task.isPlain]))

theorem Client.link_of_stand {c : Client} {l : Link} (h : c.stand = .linked l) : c.link = some l := by
  have hinbox : ∀ k : Inbox → Stand, (∀ i, k i ≠ .linked l) → c.inbox.elim .apart k ≠ .linked l := by
    intro k hk
    cases c.inbox with
    | none => simp
    | some i => exact hk i
  unfold stand at h
  split at h
  · exact absurd h (by simp)
  · exact absurd h (by simp)
  · exact absurd h (hinbox _ (by simp))
  · exact absurd h (hinbox _ (by simp))
  · exact absurd h (hinbox _ (by simp))
  · cases hl : c.link with
    | none =>
      rw [hl] at h
      exact absurd h (by simp)
    | some m =>
      rw [hl] at h
      exact congrArg some (Stand.linked.inj h)

/-- A client that has a link goes by the link's name, and has nothing else of its connection. -/
theorem Client.Consistent.of_link {c : Client} {l : Link} (hc : c.Consistent) (hl : c.link = some l) :
    c.stand = .linked l ∧ isName l.name = true := by
  have hboth : c.task.isPlain = true ∧ c.core.GoesBy := by
    have hf := hc.fits
    have hne : c.core.link ≠ none := by
      rw [show c.core.link = c.link from rfl, hl]
      simp
    have hnamed : (c.core.settings.anonymous = true → c.core.link = none) →
        c.core.settings.anonymous = false := by
      intro hu
      by_contra ha
      exact hne (hu (eq_true_of_ne_false ha))
    cases ht : c.task with
    | choosingPort => exact absurd (ht ▸ hf).2.2 hne
    | binding => exact absurd (ht ▸ hf).2.2 hne
    | reaching => exact absurd (ht ▸ hf).2.2.1 hne
    | choosingName => exact absurd (ht ▸ hf).2.2.1 hne
    | signingUp name => exact absurd (ht ▸ hf).2.2.1 hne
    | registered => exact ⟨rfl, (ht ▸ hf).2.2⟩
    | idle => exact ⟨rfl, (ht ▸ hf).2.2.2⟩
    | choosingEndpoint => exact absurd (ht ▸ hf).2.2 hne
    | dialing target => exact ⟨rfl, ((ht ▸ hf).2.2 (hnamed (ht ▸ hf).2.1)).2⟩
    | asking target => exact ⟨rfl, (ht ▸ hf).2.2 (hnamed (ht ▸ hf).2.1)⟩
    | deciding name => exact ⟨rfl, (ht ▸ hf).2.2⟩
    | concluding remote key => exact absurd (ht ▸ hf).2.1 hne
    | responding remote => exact absurd (ht ▸ hf).2.1 hne
    | chatting chat => exact absurd (ht ▸ hf).2.1 hne
    | returning => exact absurd (ht ▸ hf).2.2.1 hne
    | rejoining => exact absurd (ht ▸ hf).2.2.1 hne
    | «over» result => exact absurd (ht ▸ hf).2 hne
  refine ⟨?_, ?_⟩
  · rw [stand_of_isPlain hboth.1, hl]
    rfl
  · rw [hboth.2.2 l hl]
    exact hboth.2.1.1

/-- A turn that has changed nothing that matters to the server, but maybe the task. -/
structure Turn.Keeps (c : Client) (out : List Effect) (t : Turn) : Prop where
  core : t.client.core = c.core
  toServer : t.toServer = out

namespace Turn.Keeps

variable {c : Client} {out : List Effect} {t t' : Turn}

theorem of (c : Client) : Keeps c [] (Turn.of c) := ⟨rfl, rfl⟩

theorem step (h : Keeps c out t) (hc : t'.client.core = t.client.core) (ho : t'.toServer = t.toServer) :
    Keeps c out t' := ⟨hc.trans h.core, ho.trans h.toServer⟩

theorem print (h : Keeps c out t) (text : String) : Keeps c out (t.print text) :=
  h.step rfl (toServer_print t text)

theorem printLine (h : Keeps c out t) (text : String) : Keeps c out (t.printLine text) :=
  h.step rfl (toServer_printLine t text)

theorem printPeers (h : Keeps c out t) (peers : List Peer) : Keeps c out (t.printPeers peers) :=
  h.step (by rw [client_printPeers]) (toServer_printPeers t peers)

theorem printEvents (h : Keeps c out t) (events : List ChatEvent) : Keeps c out (t.printEvents events) :=
  h.step (by rw [client_printEvents]) (toServer_printEvents t events)

theorem setStatus (h : Keeps c out t) (status : Status) : Keeps c out (t.setStatus status) := h.step rfl rfl

theorem setTask (h : Keeps c out t) (task : Task) : Keeps c out (t.setTask task) := h.step rfl rfl

theorem setDirect (h : Keeps c out t) (direct : Option Direct) : Keeps c out (t.setDirect direct) :=
  h.step rfl rfl

theorem sendDirect (h : Keeps c out t) (bytes : Bytes) : Keeps c out (t.sendDirect bytes) :=
  h.step (by rw [client_sendDirect]) (toServer_sendDirect t bytes)

theorem closeDirect (h : Keeps c out t) : Keeps c out t.closeDirect :=
  h.step (by rw [client_closeDirect]; rfl) (toServer_closeDirect t)

theorem keepIncoming (h : Keeps c out t) (rest : Bytes) : Keeps c out (t.keepIncoming rest) := h.step rfl rfl

theorem receive (h : Keeps c out t) (outcome : Reception × List Reception.Effect) :
    Keeps c out (t.receive outcome) :=
  h.step (by rw [client_receive]; rfl) (toServer_receive t outcome)

theorem dial (h : Keeps c out t) (endpoint : Endpoint) : Keeps c out (t.emit (.dial endpoint)) :=
  h.step rfl (toServer_dial t endpoint)

theorem update (h : Keeps c out t) {f : Client → Client} (hf : (f t.client).core = t.client.core) :
    Keeps c out (t.update f) := h.step hf rfl

theorem toIdle (h : Keeps c out t) : Keeps c out t.toIdle := (h.setStatus .idle).setTask .idle

theorem askEndpoint (h : Keeps c out t) : Keeps c out t.askEndpoint :=
  (h.print Texts.askEndpoint).setTask .choosingEndpoint

theorem finish (h : Keeps c out t) (result : Except ClientError Unit) : Keeps c out (t.finish result) :=
  (h.receive _).setTask _

theorem fail (h : Keeps c out t) (cause : ClientError) : Keeps c out (t.fail cause) := h.finish _

section Fields

variable (h : Keeps c out t)
include h

theorem settings_eq : t.client.settings = c.settings := congrArg Core.settings h.core

theorem port_eq : t.client.port = c.port := congrArg Core.port h.core

theorem name_eq : t.client.name = c.name := congrArg Core.name h.core

theorem peers_eq : t.client.peers = c.peers := congrArg Core.peers h.core

theorem inbox_eq : t.client.inbox = c.inbox := congrArg Core.inbox h.core

theorem link_eq : t.client.link = c.link := congrArg Core.link h.core

theorem writable_eq : t.client.serverWritable = c.serverWritable := congrArg Core.serverWritable h.core

end Fields

theorem consistent (h : Keeps c out t) (hc : c.Consistent)
    (hf : c.core.Fits t.client.status t.client.task) : t.client.Consistent := by
  rw [← h.core] at hf
  exact ⟨h.peers_eq ▸ hc.peers, h.link_eq ▸ hc.links, hf⟩

theorem stand_eq (h : Keeps c out t) (hp : t.client.task.isPlain = true) :
    t.client.stand = c.link.elim .apart .linked := by
  rw [Client.stand_of_isPlain hp, h.link_eq]

theorem sendCommand (h : Keeps c out t) (command : Command) :
    Keeps c (out ++ c.face.sends [command]) (t.sendCommand command) := by
  refine ⟨by rw [client_sendCommand, h.core], ?_⟩
  unfold Turn.sendCommand
  rw [h.writable_eq]
  split
  · rename_i hw
    rw [toServer_sendServer, h.toServer, Face.sends_of_writable (f := c.face) hw]
    rfl
  · rename_i hw
    rw [h.toServer, Face.sends_of_broken (f := c.face) (eq_false_of_ne_true hw), List.append_nil]

/-- The client stays where it stands. -/
theorem does (h : Keeps c out t) (hc : c.Consistent) (hs : t.client.stand = c.stand)
    (hf : c.core.Fits t.client.status t.client.task) : Does c out t := by
  refine ⟨h.consistent hc hf, h.writable_eq, ?_⟩
  exact ⟨[], by rw [h.toServer, List.append_nil], .still hs h.name_eq (.inr h.peers_eq)⟩

/-- Between two tasks at which a client does not deal with the server. -/
theorem does_of_isPlain (h : Keeps c out t) (hc : c.Consistent) (hp : c.task.isPlain = true)
    (hp' : t.client.task.isPlain = true) (hf : c.core.Fits t.client.status t.client.task) :
    Does c out t := by
  refine h.does hc ?_ hf
  rw [Client.stand_of_isPlain hp, h.stand_eq hp']

end Turn.Keeps

/-! ## After a session -/

/-- A client in a session, or at the key exchange before it. -/
structure Client.Engaged (c : Client) : Prop where
  isPlain : c.task.isPlain = true
  inbox : c.inbox = none
  link : c.link = none
  named : c.settings.anonymous = false → c.core.Named

section Engaged

variable {c : Client} {out : List Effect} {t : Turn}

theorem Client.Engaged.stand (h : c.Engaged) : c.stand = .apart := by
  rw [stand_of_isPlain h.isPlain, h.link]
  rfl

theorem does_afterSession (hk : t.Keeps c out) (hc : c.Consistent) (h : c.Engaged) :
    Does c out t.afterSession := by
  have hclose := hk.closeDirect
  unfold Turn.afterSession
  simp only []
  split
  · rename_i ha
    rw [hclose.settings_eq] at ha
    exact hclose.askEndpoint.does_of_isPlain hc h.isPlain rfl ⟨ha, h.inbox, h.link⟩
  · rename_i ha
    rw [hclose.settings_eq, Bool.not_eq_true] at ha
    have hset := hclose.setStatus .disconnected
    refine ⟨⟨hclose.peers_eq ▸ hc.peers, hclose.link_eq ▸ hc.links, ?_⟩, hclose.writable_eq, ?_⟩
    · have hcore : (t.closeDirect.client).core = c.core := hclose.core
      refine (hcore ▸ ⟨ha, h.inbox, h.link, h.named ha⟩ :
        (t.closeDirect.client).core.Fits .disconnected .returning)
    · have hout : (((t.closeDirect.setStatus .disconnected).emit .connectServer).setTask
          .returning).toServer = out ++ [.connectServer] := by
        rw [Turn.toServer_setTask, Turn.toServer_connectServer, hset.toServer]
      exact ⟨_, hout, .connects h.stand rfl hclose.name_eq⟩

theorem does_failKeyExchange (hk : t.Keeps c out) (hc : c.Consistent) (h : c.Engaged) (remote : String) :
    Does c out (t.failKeyExchange remote) := does_afterSession (hk.printLine _) hc h

theorem Turn.Keeps.openSession_core (hk : t.Keeps c out) (remote : String) (role : Role)
    (keys : SessionKeys) (rest : Bytes) : (t.openSession remote role keys rest).Keeps c out := by
  unfold Turn.openSession
  simp only []
  refine Turn.Keeps.setTask (Turn.Keeps.keepIncoming (Turn.Keeps.printLine ?_ _) _) _
  split
  · exact ((hk.printLine _).printLine _).printLine _
  · exact (hk.printLine _).printLine _

theorem does_openSession (hk : t.Keeps c out) (hc : c.Consistent) (h : c.Engaged) (remote : String)
    (role : Role) (keys : SessionKeys) (rest : Bytes) :
    Does c out (t.openSession remote role keys rest) :=
  (hk.openSession_core remote role keys rest).does_of_isPlain hc h.isPlain rfl
    ⟨h.inbox, h.link, h.named⟩

theorem does_continueChat (hk : t.Keeps c out) (hc : c.Consistent) (h : c.Engaged) (chat : Chat) :
    Does c out (t.continueChat chat) := by
  unfold Turn.continueChat
  split
  · exact (hk.setTask _).does_of_isPlain hc h.isPlain rfl ⟨h.inbox, h.link, h.named⟩
  · exact does_afterSession (hk.printLine _) hc h
  · exact does_afterSession (hk.printLine _) hc h
  · exact does_afterSession hk hc h

theorem does_answerKey (hk : t.Keeps c out) (hc : c.Consistent) (h : c.Engaged) (remote : String)
    (answer : Handshake.Answer) : Does c out (t.answerKey remote answer) := by
  unfold Turn.answerKey
  split
  · exact does_openSession (hk.sendDirect _) hc h _ _ _ _
  · exact does_failKeyExchange hk hc h remote

end Engaged

end PeerChat
