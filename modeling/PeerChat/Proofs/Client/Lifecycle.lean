import Mathlib.Data.List.Induction
import PeerChat.Proofs.Client.Course
import PeerChat.Proofs.Client.Incidents

/-!
# The life of a client

A client signs up under a name, registers once under it (`Turn.Career`), and from then on only leaves and
comes back.
-/

namespace PeerChat

variable {c : Client} {t : Turn}

/-! ## Signing up -/

/-- The tasks of a client that has not sent a registration. -/
def Task.isChoosing : Task → Bool
  | .choosingPort | .binding | .reaching | .choosingName => true
  | _ => false

/-- The tasks of a client that has not signed up. -/
def Task.isEarly : Task → Bool
  | .signingUp _ => true
  | task => task.isChoosing

/-- A client that is signing up for the first time. -/
structure Client.Enrolling (c : Client) : Prop where
  listed : c.settings.anonymous = false
  link : c.link = none
  early : c.task.isEarly = true

/-- A turn of a client that is signing up, which does not have a link yet. -/
structure Turn.Aside (c : Client) (t : Turn) : Prop where
  settings : t.client.settings = c.settings
  link : t.client.link = none

/-- What can become of a client that has not signed up. -/
inductive Turn.Enrolls (c : Client) (t : Turn) : Prop
  | stays (aside : t.Aside c) (task : t.client.task = c.task) (port : t.client.port = c.port)
      (silent : t.toServer = [])
  | chooses (aside : t.Aside c) (task : t.client.task.isChoosing = true)
  | signs {name : String} {earlier : List Effect} (aside : t.Aside c)
      (task : t.client.task = .signingUp name)
      (sent : t.toServer =
        earlier ++ [.sendServer (Line.write (Command.register name t.client.port).line)])
  | succeeds {name : String} (before : c.task = .signingUp name) (orderly : t.client.Orderly)
      (task : t.client.task = .registered) (name : t.client.name = name)
      (port : t.client.port = c.port) (silent : t.toServer = [])
  | fails {result : Except ClientError Unit} (orderly : t.client.Orderly)
      (task : t.client.task = .over result)

namespace Turn

variable (h : t.Aside c) (hc : c.Enrolling)
include h

theorem enrolls_askName : t.askName.Enrolls c := .chooses ⟨h.settings, h.link⟩ rfl

theorem enrolls_bind (port : UInt16) : (t.bind port).Enrolls c := .chooses ⟨h.settings, h.link⟩ rfl

theorem enrolls_offerPort (text : String) : (t.offerPort text).Enrolls c := by
  unfold offerPort
  split
  · exact enrolls_bind h _
  · exact .chooses ⟨h.settings, h.link⟩ rfl

include hc

theorem enrolls_fail (cause : ClientError) : (t.fail cause).Enrolls c := by
  have hclient : (t.fail cause).client =
      { t.client with reception := t.client.reception.close.1, task := .over (.error cause) } := by
    rw [fail, finish, client_setTask, client_receive]
  refine .fails ⟨?_, fun l hl => ?_, ?_⟩ (congrArg Client.task hclient)
  · rw [hclient]
    exact (congrArg Settings.anonymous h.settings).trans hc.listed
  · rw [hclient] at hl
    exact absurd (h.link.symm.trans hl) (by simp)
  · rw [hclient]
    exact h.link

theorem enrolls_offerName (name : String) : (t.offerName name).Enrolls c := by
  unfold offerName
  split
  · unfold sendRegistration
    split
    · rename_i hw
      have hsent : t.sendCommand (.register name t.client.port) =
          t.emit (.sendServer (Line.write (Command.register name t.client.port).line)) := if_pos hw
      rw [hsent]
      exact .signs ⟨h.settings, h.link⟩ rfl (toServer_sendServer t _)
    · exact enrolls_fail (t := t.closeInbox) ⟨h.settings, h.link⟩ hc _
  · exact .chooses ⟨h.settings, h.link⟩ rfl

theorem enrolls_concludeSignUp {name : String} (ht : c.task = .signingUp name)
    (hp : t.client.port = c.port) (hsilent : t.toServer = []) (inbox : Inbox) (outcome : SignUp) :
    (t.concludeSignUp name inbox outcome).Enrolls c := by
  unfold concludeSignUp
  split
  · refine .succeeds ht ⟨?_, fun l hl => ?_, rfl⟩ rfl rfl hp ?_
    · exact (congrArg Settings.anonymous h.settings).trans hc.listed
    · rw [← Option.some.inj hl]
      exact Link.name_ofInbox name inbox
    · exact (toServer_printLine t _).trans hsilent
  · exact .chooses ⟨h.settings, h.link⟩ rfl
  · exact enrolls_fail (t := t.closeInbox) ⟨h.settings, h.link⟩ hc _
  · exact enrolls_fail (t := t.closeInbox) ⟨h.settings, h.link⟩ hc _

end Turn

open Turn

namespace Client.Enrolling

variable (hc : c.Enrolling)
include hc

theorem aside : (Turn.of c).Aside c := ⟨rfl, hc.link⟩

theorem false_of {task : Task} (ht : c.task = task) (he : task.isEarly = false) : False := by
  have hearly := hc.early
  rw [ht, he] at hearly
  exact absurd hearly (by simp)

theorem enrolls_stays : (Turn.of c).Enrolls c := .stays hc.aside rfl rfl rfl

theorem enrolls_onReception (party : Party) (bytes : Bytes) (ended : Bool) :
    (c.onReception party bytes ended).Enrolls c := by
  unfold onReception
  split
  · refine .stays ⟨?_, ?_⟩ ?_ ?_ (toServer_receive _ _) <;> rw [client_receive]
    · rfl
    · exact hc.link
    · rfl
    · rfl
  · exact hc.enrolls_stays

theorem enrolls_onDirect (party : Party) (bytes : Bytes) (ended : Bool) :
    (c.onDirect party bytes ended).Enrolls c := by
  unfold onDirect
  split
  · split
    · exact .stays ⟨rfl, hc.link⟩ rfl rfl rfl
    · exact hc.enrolls_onReception party bytes ended
  · exact hc.enrolls_onReception party bytes ended

/-- A client that signs up takes events down, and goes on as it has its port and its connection. -/
theorem enrolls_event (e : Event) : (c.onEvent e).Enrolls c := by
  cases e with
  | typed line => exact .stays ⟨rfl, hc.link⟩ rfl rfl rfl
  | inputEnded => exact .stays ⟨rfl, hc.link⟩ rfl rfl rfl
  | listening port =>
    unfold onEvent
    simp only []
    split
    · exact .chooses ⟨rfl, hc.link⟩ rfl
    · exact hc.enrolls_stays
  | cannotListen cause =>
    unfold onEvent
    simp only []
    split
    · exact enrolls_fail hc.aside hc _
    · exact hc.enrolls_stays
  | serverConnected =>
    have haside : ((Turn.of { c with inbox := some .empty, serverWritable := true }).setStatus
        .connected).Aside c := ⟨rfl, hc.link⟩
    unfold onEvent onServerConnected
    simp only []
    split
    · split
      · exact enrolls_offerName haside hc _
      · exact enrolls_askName haside
    · rename_i ht
      exact (hc.false_of ht rfl).elim
    · exact hc.enrolls_stays
  | serverUnreachable cause =>
    unfold onEvent onServerUnreachable
    simp only []
    split
    · exact enrolls_fail hc.aside hc _
    · rename_i ht
      exact (hc.false_of ht rfl).elim
    · exact hc.enrolls_stays
  | serverSent bytes => exact .stays ⟨rfl, Option.map_eq_none_iff.mpr hc.link⟩ rfl rfl rfl
  | serverEnded => exact .stays ⟨rfl, Option.map_eq_none_iff.mpr hc.link⟩ rfl rfl rfl
  | serverBroken => exact .stays ⟨rfl, hc.link⟩ rfl rfl rfl
  | dialed =>
    unfold onEvent
    simp only []
    split
    · rename_i ht
      exact (hc.false_of ht rfl).elim
    · exact hc.enrolls_stays
  | dialFailed cause =>
    unfold onEvent
    simp only []
    split
    · rename_i ht
      exact (hc.false_of ht rfl).elim
    · exact hc.enrolls_stays
  | callerConnected id address => exact .stays ⟨rfl, hc.link⟩ rfl rfl rfl
  | sent party bytes => exact hc.enrolls_onDirect party bytes false
  | ended party => exact hc.enrolls_onDirect party [] true
  | broken party => exact .stays ⟨rfl, hc.link⟩ rfl rfl rfl

theorem enrolls_moveKeyboard (hm : c.moveKeyboard = some t) : t.Enrolls c := by
  unfold moveKeyboard at hm
  split at hm
  · split at hm
    · rename_i line typed _
      obtain rfl := Option.some.inj hm
      have haside : (Turn.of { c with typed }).Aside c := ⟨rfl, hc.link⟩
      unfold onLine
      simp only []
      split
      · exact enrolls_offerPort haside _
      · exact enrolls_offerName haside hc _
      · rename_i ht
        exact (hc.false_of ht rfl).elim
      · rename_i ht
        exact (hc.false_of ht rfl).elim
      · rename_i ht
        exact (hc.false_of ht rfl).elim
      · rename_i ht
        exact (hc.false_of ht rfl).elim
      · exact .stays haside rfl rfl rfl
    · split at hm
      · obtain rfl := Option.some.inj hm
        unfold onInputEnd
        simp only []
        split
        · exact enrolls_fail hc.aside hc _
        · exact enrolls_fail (c := c) (t := (Turn.of c).closeInbox) ⟨rfl, hc.link⟩ hc _
        · rename_i ht
          exact (hc.false_of ht rfl).elim
        · rename_i ht
          exact (hc.false_of ht rfl).elim
        · rename_i ht
          exact (hc.false_of ht rfl).elim
        · rename_i ht
          exact (hc.false_of ht rfl).elim
        · exact hc.enrolls_stays
      · exact absurd hm (by simp)
  · exact absurd hm (by simp)

theorem enrolls_moveServer (hm : c.moveServer = some t) : t.Enrolls c := by
  unfold moveServer at hm
  split at hm
  · rename_i name ht
    obtain ⟨inbox, -, hm⟩ := Option.bind_eq_some_iff.mp hm
    split at hm
    · rename_i outcome later _
      obtain rfl := Option.some.inj hm
      have hreply : c.onReply later outcome = (Turn.of c).concludeSignUp name later outcome := by
        rw [onReply, ht]
      rw [hreply]
      exact enrolls_concludeSignUp hc.aside hc ht rfl rfl _ _
    · split at hm
      · exact absurd hm (by simp)
      · obtain rfl := Option.some.inj hm
        exact .stays ⟨rfl, hc.link⟩ rfl rfl rfl
  · rename_i ht
    exact (hc.false_of ht rfl).elim
  · rename_i ht
    exact (hc.false_of ht rfl).elim
  · exact absurd hm (by simp)

/-- Only the user and the server move a client that is signing up. -/
theorem enrolls_move {source : Source} (hm : c.move? source = some t) : t.Enrolls c := by
  cases source with
  | keyboard => exact hc.enrolls_moveKeyboard hm
  | server => exact hc.enrolls_moveServer hm
  | own =>
    unfold move? moveOwn at hm
    simp only [] at hm
    split at hm
    · rename_i ht
      exact (hc.false_of ht rfl).elim
    · exact absurd hm (by simp)
  | calls =>
    unfold move? moveCalls at hm
    simp only [] at hm
    split at hm
    · rename_i ht _
      exact (hc.false_of ht rfl).elim
    · exact absurd hm (by simp)
  | direct =>
    have hnone : c.moveDirect = none := by
      unfold moveDirect
      simp only []
      split
      · rfl
      · split
        iterate 4
          · rename_i ht
            exact (hc.false_of ht rfl).elim
        · rfl
    exact absurd (hm.symm.trans hnone) (by simp)
  | reception =>
    unfold move? moveReception at hm
    simp only [] at hm
    split at hm
    · rename_i ht
      exact (hc.false_of ht rfl).elim
    · exact absurd hm (by simp)

theorem enrolls_act (a : Act) : (c.act a).Enrolls c := by
  cases a with
  | event e => exact hc.enrolls_event e
  | move source =>
    cases hm : c.move? source with
    | none =>
      have hact : c.act (.move source) = Turn.of c := by rw [act, hm]; rfl
      rw [hact]
      exact hc.enrolls_stays
    | some t =>
      have hact : c.act (.move source) = t := by rw [act, hm]; rfl
      rw [hact]
      exact hc.enrolls_move hm

theorem enrolls_meet (x : Incident) : (c.meet x).Enrolls c := by
  cases x with
  | act a => exact hc.enrolls_act a
  | serverFailed => exact .stays ⟨rfl, Option.map_eq_none_iff.mpr hc.link⟩ rfl rfl rfl
  | directFailed cause =>
    rw [meet]
    unfold onDirectFailed
    simp only []
    split
    iterate 4
      · rename_i ht
        exact (hc.false_of ht rfl).elim
    · exact hc.enrolls_stays

end Client.Enrolling

/-! ## From the start on -/

/-- Where the last thing that the server was sent is a registration of this name. -/
def Turn.Registers (t : Turn) (name : String) : Prop :=
  ∃ earlier, t.toServer =
    earlier ++ [.sendServer (Line.write (Command.register name t.client.port).line)]

/-- What a client has been through since it began. -/
inductive Turn.Career (t : Turn) : Prop
  | early (enrolling : t.client.Enrolling)
      (signing : ∀ name, t.client.task = .signingUp name → t.Registers name)
  | signed (orderly : t.client.Orderly)
      (registered : t.client.task = .registered → t.Registers t.client.name)

theorem Turn.career_start {settings : Settings} (hs : settings.anonymous = false) (entropy : Entropy) :
    (Client.start settings entropy).Career := by
  unfold Client.start
  simp only []
  split
  · rename_i ha
    exact absurd (hs.symm.trans ha) (by simp)
  · split
    · exact .early ⟨hs, rfl, rfl⟩ fun name ht => absurd ht (by simp [Turn.bind])
    · exact .early ⟨hs, rfl, rfl⟩ fun name ht => absurd ht (by simp [Turn.askPort])

theorem Turn.Career.meet (h : t.Career) (x : Incident) : (t.meet x).Career := by
  have hout := toServer_meet t x
  cases h with
  | early enrolling signing =>
    have hsettings : (t.client.meet x).Aside t.client →
        (t.client.meet x).client.settings.anonymous = false :=
      fun aside => (congrArg Settings.anonymous aside.settings).trans enrolling.listed
    cases enrolling.enrolls_meet x with
    | stays aside task port silent =>
      refine .early ⟨hsettings aside, aside.link, ?_⟩ fun name ht => ?_
      · rw [client_meet, task]
        exact enrolling.early
      · obtain ⟨earlier, hsent⟩ := signing name (task.symm.trans ht)
        exact ⟨earlier, by rw [hout, silent, List.append_nil, hsent, client_meet, port]⟩
    | chooses aside task =>
      refine .early ⟨hsettings aside, aside.link, ?_⟩ fun name ht => ?_
      · rw [client_meet]
        generalize (t.client.meet x).client.task = next at task
        cases next with
        | signingUp name => rfl
        | _ => exact task
      · rw [client_meet] at ht
        rw [ht] at task
        exact absurd task (by simp [Task.isChoosing])
    | @signs name earlier aside task sent =>
      refine .early ⟨hsettings aside, aside.link, ?_⟩ fun other ht => ?_
      · rw [client_meet, task]
        rfl
      · obtain rfl : name = other := Task.signingUp.inj (task.symm.trans ht)
        exact ⟨t.toServer ++ earlier, by rw [hout, sent, List.append_assoc, client_meet]⟩
    | succeeds before orderly task name port silent =>
      refine .signed orderly fun _ => ?_
      obtain ⟨earlier, hsent⟩ := signing _ before
      exact ⟨earlier, by rw [hout, silent, List.append_nil, hsent, client_meet, port, name]⟩
    | fails orderly task =>
      exact .signed orderly fun ht => absurd (task.symm.trans ht) (by simp)
  | signed orderly registered =>
    have hlives := orderly.lives_meet x
    refine .signed (hlives.orderly orderly) fun ht => ?_
    have hreached := hlives.reached
    rw [show (t.client.meet x).client.task = .registered from ht] at hreached
    obtain ⟨htask, hsilent⟩ := hreached
    obtain ⟨earlier, hsent⟩ := registered htask
    have hnone : (t.client.meet x).toServer = [] := hsilent
    refine ⟨earlier, ?_⟩
    rw [hout, hnone, List.append_nil, hsent, client_meet, hlives.goes.name, hlives.goes.port]

theorem Turn.Career.meetAll (h : t.Career) (world : List Incident) : (t.meetAll world).Career := by
  induction world using List.reverseRecOn with
  | nil => exact h
  | append_singleton world x ih =>
    rw [meetAll_concat]
    exact ih.meet x

/-- Whatever a client meets with once it has signed up, it keeps its name and its port. -/
theorem Client.Orderly.meetAll (hc : c.Orderly) (world : List Incident) :
    ((Turn.of c).meetAll world).client.Orderly ∧
      ((Turn.of c).meetAll world).client.name = c.name ∧
      ((Turn.of c).meetAll world).client.port = c.port ∧
      ∀ bytes, .sendServer bytes ∈ ((Turn.of c).meetAll world).effects →
        ∃ command : Command, command.Carries c.name c.port ∧ bytes = Line.write command.line := by
  induction world using List.reverseRecOn with
  | nil => exact ⟨hc, rfl, rfl, fun bytes hm => absurd hm (by simp [Turn.meetAll, Turn.of])⟩
  | append_singleton world x ih =>
    obtain ⟨horderly, hname, hport, hsent⟩ := ih
    have hlives := horderly.lives_meet x
    rw [meetAll_concat]
    refine ⟨hlives.orderly horderly, hlives.goes.name.trans hname, hlives.goes.port.trans hport, ?_⟩
    intro bytes hm
    rcases List.mem_append.mp hm with hm | hm
    · exact hsent bytes hm
    · obtain ⟨before, after, hsplit⟩ := List.append_of_mem hm
      obtain ⟨command, hcarries, hbytes⟩ := hlives.goes.allows before _ after hsplit
      rw [hname, hport] at hcarries
      exact ⟨command, hcarries, hbytes⟩

/-- What holds of a registered client at any moment, and of whatever it meets with next. -/
structure Client.Proper (c : Client) : Prop where
  /-- A client that waits in its main loop is idle. -/
  waits : c.task = .idle → c.status = .idle
  secluded : c.status = .inSession → c.link = none
  withdraws : ∀ a, c.Accepts a → (c.act a).client.link = none ∧ c.farewell <:+: (c.act a).effects
  /-- All that a client sends to a peer before it has left the list belongs to the negotiation. -/
  ordered : ∀ x before party bytes after, (c.meet x).effects = before ++ .send party bytes :: after →
    Negotiation.Spoken bytes ∨ c.farewell <:+: before
  /-- So no frame goes to a peer before, neither of the key exchange nor of the chat. -/
  framed : ∀ x before party payload rest after, payload.length < 2 ^ 24 →
    (c.meet x).effects = before ++ .send party (Frame.write payload ++ rest) :: after →
      c.farewell <:+: before
  leaves : ∀ x result, c.isOver = false → (c.meet x).client.task = .over result →
    (∃ a, x = .act a ∧ c.Exits a) ∧ result = .ok () ∧ c.farewell <:+: (c.meet x).effects
  gone : c.isOver = true → c.link = none

theorem Client.Orderly.ordered (hc : c.Orderly) {x : Incident} {before after : List Effect}
    {party : Party} {bytes : Bytes} (he : (c.meet x).effects = before ++ .send party bytes :: after) :
    Negotiation.Spoken bytes ∨ c.farewell <:+: before :=
  (hc.lives_meet x).goes.allows before _ after he

theorem Client.Orderly.framed (hc : c.Orderly) {x : Incident} {before after : List Effect}
    {party : Party} {payload rest : Bytes} (hp : payload.length < 2 ^ 24)
    (he : (c.meet x).effects = before ++ .send party (Frame.write payload ++ rest) :: after) :
    c.farewell <:+: before := by
  rcases hc.ordered he with hspoken | hleft
  · exact absurd (Frame.head?_write hp rest) hspoken.head?_ne
  · exact hleft

theorem Client.Orderly.proper (hc : c.Orderly) : c.Proper where
  waits := fun ht => hc.stands_of ht
  secluded := fun hs => by
    have hstands := hc.stands
    rw [hs] at hstands
    generalize c.task = task at hstands
    cases task with
    | registered | idle | dialing _ | asking _ | deciding _ => exact absurd hstands (by simp [Task.Stands])
    | concluding _ _ | responding _ | chatting _ => exact hstands.2
    | returning | rejoining => exact absurd hstands.1 (by simp)
    | «over» result => exact hstands
    | _ => exact absurd hstands id
  withdraws := fun a ha => hc.gone_of_accepts ha
  ordered := fun _ _ _ _ _ he => hc.ordered he
  framed := fun _ _ _ _ _ _ hp he => hc.framed hp he
  leaves := fun x result hover ht => by
    have hreached := (hc.lives_meet x).reached
    rw [ht] at hreached
    rcases hreached with hbefore | hexits
    · rw [isOver, hbefore] at hover
      exact absurd hover (by simp)
    · exact hexits
  gone := fun hover => by
    unfold isOver at hover
    split at hover
    · rename_i ht
      exact hc.stands_of ht
    · exact absurd hover (by simp)

/-- Whatever a registered client meets with and in whatever order, it is proper at any moment, and it
registers and removes nothing but the name and the port of its first registration. -/
theorem Client.lifecycle {settings : Settings} {entropy : Entropy} {before : List Incident}
    (hs : settings.anonymous = false)
    (hr : ((start settings entropy).meetAll before).client.task = .registered)
    (world : List Incident) :
    let first := (start settings entropy).meetAll before
    let now := (Turn.of first.client).meetAll world
    first.Registers first.client.name ∧ now.client.Proper ∧
      ∀ bytes, .sendServer bytes ∈ now.effects →
        ∃ command : Command, command.Carries first.client.name first.client.port ∧
          bytes = Line.write command.line := by
  have hcareer := (Turn.career_start hs entropy).meetAll before
  intro first now
  cases hcareer with
  | early enrolling signing =>
    have hearly := enrolling.early
    rw [hr] at hearly
    exact absurd hearly (by simp [Task.isEarly, Task.isChoosing])
  | signed orderly registered =>
    obtain ⟨hnow, -, -, hsent⟩ := orderly.meetAll world
    exact ⟨registered hr, hnow.proper, hsent⟩

/-! ## A client that is called -/

def Task.isRegistered : Task → Bool
  | registered => true
  | _ => false

theorem Task.eq_registered {task : Task} (h : task.isRegistered = true) : task = .registered := by
  cases task with
  | registered => rfl
  | _ => exact absurd h (by simp [isRegistered])

/-- Alice signs up. -/
def Client.signedUp : Turn :=
  (start { name := some "alice", port := some 6001 } []).meetAll
    [.act (.event (.listening 6001)), .act (.event .serverConnected),
      .act (.event (.serverSent (Utf8.encode "PEER_LIST\n"))), .act (.move .server)]

/-- Bob calls her, and she says yes after the server has become unreadable. -/
def Client.called : List Incident :=
  [.act (.move .own), .act (.event (.callerConnected 0 (.v4 127 0 0 1))), .act (.move .reception),
    .act (.event (.sent (.caller 0) (Utf8.encode "CONNECT_REQUEST bob\n"))), .act (.move .calls),
    .serverFailed, .act (.event (.typed "y")), .act (.move .keyboard)]

theorem Client.lifecycle_called :
    signedUp.client.task = .registered ∧ signedUp.client.link.isSome = true ∧
      ((Turn.of signedUp.client).meetAll called).client.status = .inSession ∧
      ((Turn.of signedUp.client).meetAll called).client.link = none := by
  have hregistered : signedUp.client.task.isRegistered = true := by decide +kernel
  have htask : signedUp.client.task = .registered := Task.eq_registered hregistered
  have hstatus : ((Turn.of signedUp.client).meetAll called).client.status = .inSession := by
    decide +kernel
  exact ⟨htask, by decide +kernel, hstatus, (lifecycle rfl htask called).2.1.secluded hstatus⟩

end PeerChat
