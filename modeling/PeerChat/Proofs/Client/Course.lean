import PeerChat.Client.Incidents
import PeerChat.Proofs.Client.Turn
import PeerChat.Proofs.Session.Negotiation
import PeerChat.Proofs.Stream.Frame

/-!
# The course of a registered client

What a client's status and its link are follows from its task (`Task.Stands`).  Whatever a client meets
with in its main loop, it keeps that up, sends the server only its own name and port, and sends nothing
of a session before the link is given up (`Turn.Lives`).
-/

namespace PeerChat

/-! ## What a client sends -/

/-- Whether bytes ask for a session, or answer such a request. -/
def Negotiation.Spoken (bytes : Bytes) : Prop :=
  (∃ name, bytes = request name) ∨ ∃ accept, bytes = answer accept

theorem Negotiation.head?_request (name : String) : (request name).head? = some 67 := by
  have hword : (Utf8.encode "CONNECT_REQUEST ").head? = some 67 := by decide
  rw [request_eq, CallMessage.text, Utf8.encode_append, Utf8.encode_append, List.append_assoc,
    List.head?_append, hword, Option.some_or]

/-- Nothing that is said in a negotiation begins as a frame does. -/
theorem Negotiation.Spoken.head?_ne {bytes : Bytes} (h : Spoken bytes) : bytes.head? ≠ some 0 := by
  obtain ⟨name, hb⟩ | ⟨accept, hb⟩ := h
  · rw [hb, head?_request]
    decide
  · rw [hb]
    cases accept <;> decide

/-- A command speaks of nobody's own entry but that of this name and port. -/
def Command.Carries (name : String) (port : UInt16) : Command → Prop
  | .register n p => n = name ∧ p = port
  | .remove n => n = name
  | .listPeers | .reportGone _ => True

namespace Client

/-- What a client can do after `before`: all of a session comes behind the farewell. -/
def Allows (c : Client) (before : List Effect) : Effect → Prop
  | .sendServer bytes => ∃ command : Command, command.Carries c.name c.port ∧
      bytes = Line.write command.line
  | .send _ bytes => Negotiation.Spoken bytes ∨ c.farewell <:+: before
  | _ => True

/-- Everything in its place. -/
def AllowsAll (c : Client) (effects : List Effect) : Prop :=
  ∀ before e after, effects = before ++ e :: after → c.Allows before e

variable {c : Client} {effects : List Effect}

theorem allowsAll_nil (c : Client) : c.AllowsAll [] := by
  intro before e after h
  exact absurd h (by simp)

theorem AllowsAll.concat (h : c.AllowsAll effects) {e : Effect} (he : c.Allows effects e) :
    c.AllowsAll (effects ++ [e]) := by
  intro before f after hf
  rcases List.eq_nil_or_concat after with rfl | ⟨after', g, rfl⟩
  · obtain ⟨rfl, hl⟩ := List.append_inj' hf rfl
    obtain rfl := (List.cons.inj hl).1
    exact he
  · have hsplit : effects ++ [e] = (before ++ f :: after') ++ [g] := by
      rw [hf, List.concat_eq_append, List.append_assoc, List.cons_append]
    obtain ⟨heffects, -⟩ := List.append_inj' hsplit rfl
    exact h before f after' heffects

theorem farewell_of_none (h : c.link = none) : c.farewell = [] := by
  rw [farewell, if_neg (by rw [h]; simp)]

end Client

/-! ## Turns -/

/-- A turn of a client so far.  Once the client is `away`, its link is given up with a farewell. -/
structure Turn.Goes (c : Client) (away : Bool) (t : Turn) : Prop where
  settings : t.client.settings = c.settings
  name : t.client.name = c.name
  port : t.client.port = c.port
  links : ∀ l, t.client.link = some l → l.name = c.name
  allows : c.AllowsAll t.effects
  gone : away = true → t.client.link = none ∧ c.farewell <:+: t.effects

namespace Turn.Goes

variable {c : Client} {away : Bool} {t t' : Turn}

theorem of_same (h : t.Goes c away) (hs : t'.client.settings = t.client.settings)
    (hn : t'.client.name = t.client.name) (hp : t'.client.port = t.client.port)
    (hl : t'.client.link = t.client.link) (he : t'.effects = t.effects) : t'.Goes c away where
  settings := hs.trans h.settings
  name := hn.trans h.name
  port := hp.trans h.port
  links := hl ▸ h.links
  allows := he ▸ h.allows
  gone := by rw [hl, he]; exact h.gone

theorem emit (h : t.Goes c away) {e : Effect} (he : c.Allows t.effects e) :
    (t.emit e).Goes c away where
  settings := h.settings
  name := h.name
  port := h.port
  links := h.links
  allows := h.allows.concat he
  gone := fun ha => ⟨(h.gone ha).1, (h.gone ha).2.trans (List.prefix_append ..).isInfix⟩

theorem foldl {α : Type} {f : Turn → α → Turn} (hf : ∀ t a, t.Goes c away → (f t a).Goes c away)
    (h : t.Goes c away) (items : List α) : (items.foldl f t).Goes c away := by
  induction items generalizing t with
  | nil => exact h
  | cons a items ih => exact ih (hf t a h)

theorem print (h : t.Goes c away) (text : String) : (t.print text).Goes c away := h.emit trivial

theorem printLine (h : t.Goes c away) (text : String) : (t.printLine text).Goes c away := h.print _

theorem printPeers (h : t.Goes c away) (peers : List Peer) : (t.printPeers peers).Goes c away := by
  unfold Turn.printPeers
  split
  · exact h.printLine _
  · exact foldl (fun _ p ht => ht.printLine (Texts.peerItem p)) (h.printLine _) _

theorem printEvents (h : t.Goes c away) (events : List ChatEvent) :
    (t.printEvents events).Goes c away :=
  foldl (fun _ e ht => ht.printLine (Texts.chatEvent e)) h _

theorem setStatus (h : t.Goes c away) (status : Status) : (t.setStatus status).Goes c away :=
  h.of_same rfl rfl rfl rfl rfl

theorem setTask (h : t.Goes c away) (task : Task) : (t.setTask task).Goes c away :=
  h.of_same rfl rfl rfl rfl rfl

theorem setInbox (h : t.Goes c away) (inbox : Option Inbox) : (t.setInbox inbox).Goes c away :=
  h.of_same rfl rfl rfl rfl rfl

theorem setDirect (h : t.Goes c away) (direct : Option Direct) : (t.setDirect direct).Goes c away :=
  h.of_same rfl rfl rfl rfl rfl

theorem keepIncoming (h : t.Goes c away) (rest : Bytes) : (t.keepIncoming rest).Goes c away :=
  h.of_same rfl rfl rfl rfl rfl

theorem setEntropy (h : t.Goes c away) (entropy : Entropy) :
    (t.update fun c => { c with entropy }).Goes c away := h.of_same rfl rfl rfl rfl rfl

theorem receive (h : t.Goes c away) (outcome : Reception × List Reception.Effect) :
    (t.receive outcome).Goes c away := by
  have hupdate : (t.update fun c => { c with reception := outcome.1 }).Goes c away :=
    h.of_same rfl rfl rfl rfl rfl
  refine foldl (fun t e ht => ?_) hupdate outcome.2
  cases e with
  | deny id => exact (ht.emit (e := .send _ _) (.inl (.inr ⟨false, rfl⟩))).emit (e := .close _) trivial
  | drop id => exact ht.emit (e := .close _) trivial

theorem closeDirect (h : t.Goes c away) : t.closeDirect.Goes c away := by
  unfold Turn.closeDirect
  split
  · exact (h.emit (e := .close _) trivial).setDirect none
  · exact h

theorem closeInbox (h : t.Goes c away) : t.closeInbox.Goes c away := 
  (h.emit (e := .closeServer) trivial).setInbox none

/-- What is said before a session can be said at any time. -/
theorem negotiate (h : t.Goes c away) {bytes : Bytes} (hb : Negotiation.Spoken bytes) :
    (t.sendDirect bytes).Goes c away := by
  unfold Turn.sendDirect
  split
  · split
    · exact h.emit (e := .send _ _) (.inl hb)
    · exact h
  · exact h

/-- A client that is away sends what it wants. -/
theorem sendDirect (h : t.Goes c true) (bytes : Bytes) : (t.sendDirect bytes).Goes c true := by
  unfold Turn.sendDirect
  split
  · split
    · exact h.emit (e := .send _ _) (.inr (h.gone rfl).2)
    · exact h
  · exact h

theorem sendCommand (h : t.Goes c away) (command : Command) (hc : command.Carries c.name c.port) :
    (t.sendCommand command).Goes c away := by
  unfold Turn.sendCommand
  split
  · exact h.emit (e := .sendServer _) ⟨command, hc, rfl⟩
  · exact h

theorem setLink (h : t.Goes c false) (link : Option Link) (hl : ∀ l, link = some l → l.name = c.name) :
    (t.setLink link).Goes c false where
  settings := h.settings
  name := h.name
  port := h.port
  links := hl
  allows := h.allows
  gone := fun ha => absurd ha (by simp)

theorem loseLink (h : t.Goes c false) : t.loseLink.Goes c false :=
  ((h.printLine _).emit (e := .closeServer) trivial).setLink none fun l hl => absurd hl (by simp)

/-- A client that has its link as it was goes away. -/
theorem withdraw (h : t.Goes c false) (hl : t.client.link = c.link)
    (hw : t.client.serverWritable = c.serverWritable) : t.withdraw.Goes c true := by
  cases hlink : c.link with
  | none =>
    have hsame : t.withdraw = t := by rw [Turn.withdraw, hl, hlink]
    rw [hsame]
    refine { h with gone := fun _ => ⟨hl.trans hlink, ?_⟩ }
    rw [Client.farewell_of_none hlink]
    exact List.nil_infix
  | some l =>
    have hname : l.name = c.name := h.links l (hl.trans hlink)
    have hturn : t.withdraw = ((t.sendCommand (.remove l.name)).emit .closeServer).setLink none := by
      rw [Turn.withdraw, hl, hlink]
    have hclosed : ((t.sendCommand (.remove l.name)).emit .closeServer).Goes c false :=
      (h.sendCommand (.remove l.name) hname).emit (e := .closeServer) trivial
    rw [hturn]
    refine { hclosed.setLink none (fun l hl => absurd hl (by simp)) with
      gone := fun _ => ⟨rfl, ?_⟩ }
    have heffects : (((t.sendCommand (.remove l.name)).emit .closeServer).setLink none).effects =
        t.effects ++ c.farewell := by
      rw [Client.farewell, if_pos (by rw [hlink]; rfl), hname, Turn.setLink, Turn.update, Turn.emit,
        Turn.sendCommand, hw]
      cases c.serverWritable with
      | true => exact List.append_assoc ..
      | false => rfl
    rw [heffects]
    exact (List.suffix_append ..).isInfix

theorem refreshPeers (h : t.Goes c false) : t.refreshPeers.Goes c false := by
  unfold Turn.refreshPeers
  split
  · split
    · exact h.sendCommand .listPeers trivial
    · exact h.loseLink
  · exact (h.printPeers _).printLine _

theorem reportGone (h : t.Goes c false) (name : String) : (t.reportGone name).Goes c false := by
  have hpeers : (t.update fun c => { c with
      peers := c.peers.filter fun p => p.name ≠ name }).Goes c false := h.of_same rfl rfl rfl rfl rfl
  unfold Turn.reportGone
  simp only []
  split
  · exact (hpeers.sendCommand (.reportGone name) trivial).sendCommand
      .listPeers trivial
  · exact hpeers

end Turn.Goes

/-! ## Where a client is in its life -/

/-- What a client's task tells about its status and its link, once the client has signed up. -/
def Task.Stands (status : Status) (link : Option Link) : Task → Prop
  | .registered => status = .registered
  | .idle => status = .idle
  | .dialing _ | .asking _ | .deciding _ => status = .negotiating
  | .concluding _ _ | .responding _ | .chatting _ => status = .inSession ∧ link = none
  | .returning => status = .disconnected ∧ link = none
  | .rejoining => status = .connected ∧ link = none
  | .over _ => link = none
  | .choosingPort | .binding | .reaching | .choosingName | .signingUp _ | .choosingEndpoint => False

/-- A client that has signed up. -/
structure Client.Orderly (c : Client) : Prop where
  listed : c.settings.anonymous = false
  links : ∀ l, c.link = some l → l.name = c.name
  stands : c.task.Stands c.status c.link

/-- How a client can come to a task by what it has brought about. -/
def Task.Reached (c : Client) (exits : Prop) (effects : List Effect) : Task → Prop
  | .registered => c.task = .registered ∧ effects.filter Effect.isServer = []
  | .over result => c.task = .over result ∨
      (exits ∧ result = .ok () ∧ c.farewell <:+: effects)
  | _ => True

/-- A whole turn of a client that has signed up; `exits` tells whether it can be the client's last. -/
structure Turn.Lives (c : Client) (away : Bool) (exits : Prop) (t : Turn) : Prop where
  goes : t.Goes c away
  stands : t.client.task.Stands t.client.status t.client.link
  reached : t.client.task.Reached c exits t.effects

variable {c : Client} {away : Bool} {exits : Prop} {t : Turn}

namespace Turn

theorem Goes.weaken (h : t.Goes c away) : t.Goes c false :=
  { h with gone := fun ha => absurd ha (by simp) }

/-- A client goes on with what it was at. -/
theorem Goes.stays (h : t.Goes c away) (hc : c.Orderly) (ht : t.client.task = c.task)
    (hs : t.client.status = c.status) (hl : c.link = none → t.client.link = none)
    (he : t.effects.filter Effect.isServer = []) : t.Lives c away exits := by
  have hstands := hc.stands
  refine ⟨h, ?_, ?_⟩
  · rw [ht, hs]
    generalize c.task = task at hstands
    cases task with
    | concluding remote key => exact ⟨hstands.1, hl hstands.2⟩
    | responding remote => exact ⟨hstands.1, hl hstands.2⟩
    | chatting chat => exact ⟨hstands.1, hl hstands.2⟩
    | returning => exact ⟨hstands.1, hl hstands.2⟩
    | rejoining => exact ⟨hstands.1, hl hstands.2⟩
    | «over» result => exact hl hstands
    | _ => exact hstands
  · rw [ht]
    generalize htask : c.task = task
    cases task with
    | registered => exact ⟨htask, he⟩
    | «over» result => exact .inl htask
    | _ => trivial

theorem lives_toIdle (h : t.Goes c away) : t.toIdle.Lives c away exits :=
  ⟨(h.setStatus .idle).setTask .idle, rfl, trivial⟩

theorem Lives.weaken (h : t.Lives c away exits) : t.Lives c false exits :=
  ⟨h.goes.weaken, h.stands, h.reached⟩

theorem Lives.imp (h : t.Lives c away exits) {exits' : Prop} (hx : exits → exits') :
    t.Lives c away exits' := by
  refine ⟨h.goes, h.stands, ?_⟩
  have hreached := h.reached
  generalize t.client.task = task at hreached
  cases task with
  | «over» result => exact hreached.imp_right fun ⟨hexits, hrest⟩ => ⟨hx hexits, hrest⟩
  | _ => exact hreached

/-! ## Sessions -/

section Session

variable (h : t.Goes c true) (hc : c.Orderly)
include h hc

theorem lives_afterSession : t.afterSession.Lives c true exits := by
  have hclose := h.closeDirect
  have hlisted : t.closeDirect.client.settings.anonymous = false := by
    rw [hclose.settings]
    exact hc.listed
  unfold afterSession
  simp only [hlisted]
  exact ⟨((hclose.setStatus .disconnected).emit (e := .connectServer) trivial).setTask
    .returning, ⟨rfl, (hclose.gone rfl).1⟩, trivial⟩

theorem lives_failKeyExchange (remote : String) : (t.failKeyExchange remote).Lives c true exits :=
  lives_afterSession (h.printLine _) hc

variable (hs : t.client.status = .inSession)
include hs

theorem lives_continueChat (chat : Chat) : (t.continueChat chat).Lives c true exits := by
  unfold continueChat
  split
  · exact ⟨h.setTask _, ⟨hs, (h.gone rfl).1⟩, trivial⟩
  · exact lives_afterSession (h.printLine _) hc
  · exact lives_afterSession (h.printLine _) hc
  · exact lives_afterSession h hc

omit hc in
theorem lives_openSession (remote : String) (role : Role) (keys : SessionKeys) (rest : Bytes) :
    (t.openSession remote role keys rest).Lives c true exits := by
  have hopen := (h.printLine (Texts.sessionOpen remote)).printLine (Texts.fingerprint keys remote)
  unfold openSession
  simp only []
  split
  · exact ⟨(((hopen.printLine _).printLine _).keepIncoming rest).setTask _, ⟨hs, (h.gone rfl).1⟩,
      trivial⟩
  · exact ⟨((hopen.printLine _).keepIncoming rest).setTask _, ⟨hs, (h.gone rfl).1⟩, trivial⟩

theorem lives_offerKey (remote : String) : (t.offerKey remote).Lives c true exits := by
  unfold offerKey
  split
  · exact lives_failKeyExchange (h.setEntropy _) hc remote
  · rename_i key sent pool _
    simp only []
    split
    · refine ⟨((h.setEntropy pool).sendDirect sent).setTask _, ?_, trivial⟩
      rw [client_setTask, client_sendDirect]
      exact ⟨hs, (h.gone rfl).1⟩
    · exact lives_failKeyExchange (h.setEntropy _) hc remote

theorem lives_answerKey (remote : String) (answer : Handshake.Answer) :
    (t.answerKey remote answer).Lives c true exits := by
  unfold answerKey
  split
  · refine lives_openSession (h.sendDirect _) ?_ _ _ _ _
    rw [client_sendDirect]
    exact hs
  · exact lives_failKeyExchange h hc remote

theorem lives_typeInChat (chat : Chat) (line : String) : (t.typeInChat chat line).Lives c true exits := by
  unfold typeInChat
  simp only []
  have hprint := h.printEvents (chat.typeLine t.client.canSend line).2.events
  have hstatus : (t.printEvents (chat.typeLine t.client.canSend line).2.events).client.status =
      .inSession := by
    rw [client_printEvents]
    exact hs
  split
  · exact lives_continueChat hprint hc hstatus _
  · refine lives_continueChat (hprint.sendDirect _) hc ?_ _
    rw [client_sendDirect]
    exact hstatus

end Session

/-! ## Calls -/

section Calls

variable (h : t.Goes c false) (hc : c.Orderly)
include h

theorem Goes.enterSession (hc : c.Orderly) (hl : t.client.link = c.link)
    (hw : t.client.serverWritable = c.serverWritable) :
    t.enterSession.Goes c true ∧ t.enterSession.client.status = .inSession := by
  have hlisted : t.client.settings.anonymous = false := by
    rw [h.settings]
    exact hc.listed
  have henter : t.enterSession = t.withdraw.setStatus .inSession := by
    rw [Turn.enterSession, hlisted]
    rfl
  rw [henter]
  exact ⟨(h.withdraw hl hw).setStatus _, rfl⟩

include hc

theorem lives_giveUpCall : t.giveUpCall.Lives c false exits := by
  have hlisted : t.closeDirect.client.settings.anonymous = false := by
    rw [h.closeDirect.settings]
    exact hc.listed
  unfold giveUpCall
  simp only [hlisted]
  exact lives_toIdle h.closeDirect

theorem lives_accepted (hl : t.client.link = c.link)
    (hw : t.client.serverWritable = c.serverWritable) (target : String) (rest : Bytes) :
    (t.concludeAsking target (.ok (.accepted rest))).Lives c true exits := by
  obtain ⟨henter, hstatus⟩ :=
    ((h.printLine (Texts.accepted target)).keepIncoming rest).enterSession hc hl hw
  exact lives_offerKey henter hc hstatus target

theorem lives_concludeAsking (hl : t.client.link = c.link)
    (hw : t.client.serverWritable = c.serverWritable) (target : String)
    (verdict : Except Failure Negotiation.Verdict) :
    (t.concludeAsking target verdict).Lives c false exits := by
  match verdict with
  | .ok (.accepted rest) => exact (lives_accepted h hc hl hw target rest).weaken
  | .ok .denied => exact lives_giveUpCall (h.printLine _) hc
  | .error cause => exact lives_giveUpCall (h.printLine _) hc

/-- A call that can be answered is accepted. -/
theorem lives_answered (hl : t.client.link = c.link)
    (hw : t.client.serverWritable = c.serverWritable) (name : String)
    (hs : t.client.canSend = true) : (t.acceptCall name).Lives c true exits := by
  obtain ⟨henter, hstatus⟩ := (h.negotiate (.inr ⟨true, rfl⟩)).enterSession hc
    ((congrArg Client.link (client_sendDirect t _)).trans hl)
    ((congrArg Client.serverWritable (client_sendDirect t _)).trans hw)
  rw [acceptCall, if_pos hs]
  exact ⟨henter.setTask _, ⟨hstatus, (henter.gone rfl).1⟩, trivial⟩

theorem lives_acceptCall (hl : t.client.link = c.link)
    (hw : t.client.serverWritable = c.serverWritable) (name : String) :
    (t.acceptCall name).Lives c false exits := by
  by_cases hs : t.client.canSend = true
  · exact (lives_answered h hc hl hw name hs).weaken
  · rw [acceptCall, if_neg hs]
    exact lives_toIdle (h.printLine _).closeDirect

omit hc in
theorem lives_denyCall (name : String) : (t.denyCall name).Lives c false exits :=
  lives_toIdle ((h.printLine _).negotiate (.inr ⟨false, rfl⟩)).closeDirect

theorem lives_decideCall (hl : t.client.link = c.link)
    (hw : t.client.serverWritable = c.serverWritable) {name : String}
    (ht : t.client.task = .deciding name) (hs : t.client.status = .negotiating) (line : String) :
    (t.decideCall name line).Lives c false exits := by
  unfold decideCall
  simp only []
  split
  · exact lives_acceptCall h hc hl hw name
  · split
    · exact lives_denyCall h name
    · refine ⟨h.print _, ?_, ?_⟩ <;> rw [client_print, ht]
      · exact hs
      · trivial

theorem lives_failDial (target : String) (cause : TransportError) :
    (t.failDial target cause).Lives c false exits := by
  have hlisted : t.client.settings.anonymous = false := by
    rw [h.settings]
    exact hc.listed
  unfold failDial
  simp only [hlisted]
  exact lives_toIdle ((h.printLine _).reportGone target)

omit hc in
theorem lives_startAsking (hs : t.client.status = .negotiating) (target : String) :
    (t.startAsking target).Lives c false exits := by
  unfold startAsking
  simp only []
  refine ⟨((h.setDirect _).negotiate (.inl ⟨_, rfl⟩)).setTask _, ?_, trivial⟩
  rw [client_setTask, client_sendDirect]
  exact hs

end Calls

/-! ## The main loop -/

section Loop

variable (h : t.Goes c false)
include h

/-- In the main loop a turn comes to an end where it began. -/
theorem Goes.idles (ht : t.client.task = .idle) (hs : t.client.status = .idle) : t.Lives c false exits := by
  refine ⟨h, ?_, ?_⟩ <;> rw [ht]
  · exact hs
  · trivial

theorem lives_refreshPeers (ht : t.client.task = .idle) (hs : t.client.status = .idle) :
    t.refreshPeers.Lives c false exits := by
  have hsame : t.refreshPeers.client.task = t.client.task ∧
      t.refreshPeers.client.status = t.client.status := by
    unfold refreshPeers
    split
    · split
      · rw [client_sendCommand]
        exact ⟨rfl, rfl⟩
      · exact ⟨rfl, rfl⟩
    · rw [client_printLine, client_printPeers]
      exact ⟨rfl, rfl⟩
  exact h.refreshPeers.idles (hsame.1.trans ht) (hsame.2.trans hs)

theorem lives_handleUpdate (ht : t.client.task = .idle) (hs : t.client.status = .idle)
    (update : Update) : (t.handleUpdate update).Lives c false exits := by
  unfold handleUpdate
  split
  · rename_i peers
    have hpeers : (t.update fun c => { c with peers }).Goes c false := h.of_same rfl rfl rfl rfl rfl
    refine (hpeers.printPeers peers).idles ?_ ?_ <;> rw [client_printPeers]
    · exact ht
    · exact hs
  · simp only []
    split
    · exact lives_refreshPeers (h.printLine _) ht hs
    · exact (h.printLine _).idles ht hs
  · exact (h.printLine _).idles ht hs

theorem lives_dial (ht : t.client.task = .idle) (hs : t.client.status = .idle) (target : String) :
    (t.dial target).Lives c false exits := by
  unfold dial
  split
  · exact (h.printLine _).idles ht hs
  · exact (h.printLine _).idles ht hs
  · exact ⟨((h.setStatus _).emit (e := .dial _) trivial).setTask _, rfl, trivial⟩

theorem lives_askUser (call : Call) (reception : Reception) :
    (t.askUser call reception).Lives c false exits := by
  refine ⟨((((h.setStatus _).receive _).setDirect _).print _).setTask _, ?_, trivial⟩
  unfold askUser
  simp only [client_setTask, client_print, client_setDirect, client_receive, client_setStatus]
  rfl

omit h in
/-- A client that is away is through. -/
theorem lives_finish (h : t.Goes c true) (hx : exits) : (t.finish (.ok ())).Lives c false exits := by
  have hlast := (h.receive t.client.reception.close).setTask (.over (.ok ()))
  exact ⟨hlast.weaken, (hlast.gone rfl).1, .inr ⟨hx, rfl, (hlast.gone rfl).2⟩⟩

theorem lives_obey (hl : t.client.link = c.link) (hw : t.client.serverWritable = c.serverWritable)
    (ht : t.client.task = .idle) (hs : t.client.status = .idle) {line : String}
    (hx : Text.trim line = "exit" → exits) : (t.obey line).Lives c false exits := by
  unfold obey
  split
  · exact h.idles ht hs
  · rename_i hexit
    exact lives_finish ((h.withdraw hl hw).printLine _) (hx hexit)
  · exact lives_refreshPeers h ht hs
  · exact (h.printLine _).idles ht hs
  · exact lives_dial h ht hs _

/-- An attempt to sign up again leads back to the main loop, whatever comes of it. -/
theorem lives_concludeReturn (inbox : Inbox) (outcome : SignUp) :
    (t.concludeReturn inbox outcome).Lives c false exits := by
  unfold concludeReturn
  simp only []
  split
  · refine lives_toIdle ((((h.printLine _).setInbox none).setLink _ fun l hl => ?_).setStatus _)
    rw [← Option.some.inj hl, Link.name_ofInbox]
    exact h.name
  · exact lives_toIdle (h.closeInbox.printLine _)
  · exact lives_toIdle (h.closeInbox.printLine _)
  · exact lives_toIdle (h.closeInbox.printLine _)

end Loop

end Turn

/-! ## Moves -/

open Turn

namespace Client.Orderly

variable (hc : c.Orderly)
include hc

theorem goes : (Turn.of c).Goes c false :=
  ⟨rfl, rfl, rfl, hc.links, c.allowsAll_nil, fun ha => absurd ha (by simp)⟩

/-- A client without a link is away. -/
theorem goes_of_none (hl : c.link = none) : (Turn.of c).Goes c true := by
  refine { hc.goes with gone := fun _ => ⟨hl, ?_⟩ }
  rw [farewell_of_none hl]
  exact List.nil_infix

theorem stands_of {task : Task} (ht : c.task = task) : task.Stands c.status c.link := ht ▸ hc.stands

theorem lives_onLine {line : String} {typed : List String} (hx : c.task = .idle →
    Text.trim line = "exit" → exits) : (onLine { c with typed } line).Lives c false exits := by
  have hgoes : (Turn.of { c with typed }).Goes c false := hc.goes.of_same rfl rfl rfl rfl rfl
  unfold onLine
  simp only []
  split
  · rename_i ht
    exact absurd (hc.stands_of ht) id
  · rename_i ht
    exact absurd (hc.stands_of ht) id
  · rename_i ht
    exact lives_obey hgoes rfl rfl ht (hc.stands_of ht) (hx ht)
  · rename_i ht
    exact absurd (hc.stands_of ht) id
  · rename_i name ht
    exact lives_decideCall hgoes hc rfl rfl ht (hc.stands_of ht) line
  · rename_i chat ht
    obtain ⟨hs, hl⟩ := hc.stands_of ht
    have haway : (Turn.of { c with typed }).Goes c true :=
      (hc.goes_of_none hl).of_same rfl rfl rfl rfl rfl
    exact (lives_typeInChat haway hc hs chat line).weaken
  · exact hgoes.stays hc rfl rfl id rfl

theorem lives_onInputEnd (hx : c.task = .idle → exits) : c.onInputEnd.Lives c false exits := by
  unfold onInputEnd
  simp only []
  split
  · rename_i ht
    exact absurd (hc.stands_of ht) id
  · rename_i ht
    exact absurd (hc.stands_of ht) id
  · rename_i ht
    exact lives_finish (hc.goes.withdraw rfl rfl) (hx ht)
  · rename_i ht
    exact absurd (hc.stands_of ht) id
  · exact lives_denyCall hc.goes _
  · rename_i chat ht
    obtain ⟨hs, hl⟩ := hc.stands_of ht
    exact (lives_continueChat (hc.goes_of_none hl) hc hs _).weaken
  · exact hc.goes.stays hc rfl rfl id rfl

theorem lives_moveServer (hm : c.moveServer = some t) : t.Lives c false exits := by
  unfold moveServer at hm
  split at hm
  · rename_i ht
    exact absurd (hc.stands_of ht) id
  · rename_i ht
    obtain ⟨inbox, -, hm⟩ := Option.bind_eq_some_iff.mp hm
    split at hm
    · rename_i outcome later _
      obtain rfl := Option.some.inj hm
      have hreply : c.onReply later outcome = (Turn.of c).concludeReturn later outcome := by
        rw [onReply, ht]
      rw [hreply]
      exact lives_concludeReturn hc.goes _ _
    · split at hm
      · exact absurd hm (by simp)
      · obtain rfl := Option.some.inj hm
        exact (hc.goes.setInbox _).stays hc rfl rfl id rfl
  · rename_i ht
    split at hm
    · rename_i link hlink
      split at hm
      · rename_i update updates _
        obtain rfl := Option.some.inj hm
        have hgoes : (Turn.of { c with link := some { link with updates } }).Goes c false :=
          hc.goes.setLink (some { link with updates }) fun l hl => by
            rw [← Option.some.inj hl]
            exact hc.links link hlink
        exact lives_handleUpdate hgoes ht (hc.stands_of ht) update
      · split at hm
        · obtain rfl := Option.some.inj hm
          exact hc.goes.loseLink.idles ht (hc.stands_of ht)
        · exact absurd hm (by simp)
    · exact absurd hm (by simp)
  · exact absurd hm (by simp)

theorem lives_moveDirect (hm : c.moveDirect = some t) : t.Lives c false exits := by
  unfold moveDirect at hm
  simp only [] at hm
  split at hm
  · exact absurd hm (by simp)
  · split at hm
    · split at hm
      · exact absurd hm (by simp)
      · obtain rfl := Option.some.inj hm
        exact lives_concludeAsking hc.goes hc rfl rfl _ _
      · obtain rfl := Option.some.inj hm
        exact lives_concludeAsking hc.goes hc rfl rfl _ _
    · rename_i ht
      obtain ⟨hs, hl⟩ := hc.stands_of ht
      split at hm
      · exact absurd hm (by simp)
      · obtain rfl := Option.some.inj hm
        exact (lives_failKeyExchange (hc.goes_of_none hl) hc _).weaken
      · obtain rfl := Option.some.inj hm
        exact (lives_openSession (hc.goes_of_none hl) hs _ _ _ _).weaken
    · rename_i ht
      obtain ⟨hs, hl⟩ := hc.stands_of ht
      split at hm
      · exact absurd hm (by simp)
      · rename_i pool _
        obtain rfl := Option.some.inj hm
        exact (lives_failKeyExchange ((hc.goes_of_none hl).setEntropy pool) hc _).weaken
      · rename_i pool _
        obtain rfl := Option.some.inj hm
        exact (lives_answerKey ((hc.goes_of_none hl).setEntropy pool) hc hs _ _).weaken
    · rename_i ht
      obtain ⟨hs, hl⟩ := hc.stands_of ht
      split at hm
      · exact absurd hm (by simp)
      · obtain rfl := Option.some.inj hm
        refine (lives_continueChat (((hc.goes_of_none hl).keepIncoming []).printEvents _) hc ?_
          _).weaken
        rw [client_printEvents]
        exact hs
    · exact absurd hm (by simp)

theorem lives_move {source : Source} (hm : c.move? source = some t) :
    t.Lives c false (c.Exits (.move source)) := by
  cases source with
  | own =>
    unfold move? moveOwn at hm
    simp only [] at hm
    split at hm
    · obtain rfl := Option.some.inj hm
      exact ⟨((hc.goes.setStatus _).printLine _).setTask _, rfl, trivial⟩
    · exact absurd hm (by simp)
  | keyboard =>
    unfold move? moveKeyboard at hm
    simp only [] at hm
    split at hm
    · split at hm
      · rename_i line typed htyped
        obtain rfl := Option.some.inj hm
        exact hc.lives_onLine fun ht hexit => ⟨ht, .inl ⟨line, typed, htyped, hexit⟩⟩
      · rename_i htyped
        split at hm
        · rename_i hended
          obtain rfl := Option.some.inj hm
          exact hc.lives_onInputEnd fun ht => ⟨ht, .inr ⟨htyped, hended⟩⟩
        · exact absurd hm (by simp)
    · exact absurd hm (by simp)
  | calls =>
    unfold move? moveCalls at hm
    simp only [] at hm
    split at hm
    · obtain rfl := Option.some.inj hm
      exact lives_askUser hc.goes _ _
    · exact absurd hm (by simp)
  | server => exact hc.lives_moveServer hm
  | direct => exact hc.lives_moveDirect hm
  | reception =>
    unfold move? moveReception at hm
    simp only [] at hm
    split at hm
    · rename_i ht
      split at hm
      · exact absurd hm (by simp)
      · obtain rfl := Option.some.inj hm
        refine (hc.goes.receive _).idles ?_ ?_ <;> rw [client_receive]
        · exact ht
        · exact hc.stands_of ht
    · exact absurd hm (by simp)

/-! ## Events -/

theorem lives_onReception (party : Party) (bytes : Bytes) (ended : Bool) :
    (c.onReception party bytes ended).Lives c false exits := by
  unfold onReception
  split
  · rename_i caller
    have hgoes := hc.goes.receive (c.reception.receive c.status.isBusy caller bytes ended)
    refine hgoes.stays hc ?_ ?_ ?_ (toServer_receive _ _) <;> rw [client_receive]
    · rfl
    · rfl
    · exact id
  · exact hc.goes.stays hc rfl rfl id rfl

theorem lives_onDirect (party : Party) (bytes : Bytes) (ended : Bool) :
    (c.onDirect party bytes ended).Lives c false exits := by
  unfold onDirect
  split
  · split
    · exact (hc.goes.setDirect _).stays hc rfl rfl id rfl
    · exact hc.lives_onReception party bytes ended
  · exact hc.lives_onReception party bytes ended

theorem lives_onServerConnected : c.onServerConnected.Lives c false exits := by
  have hconnected : ((Turn.of { c with inbox := some .empty, serverWritable := true }).setStatus
      .connected).Goes c false := hc.goes.of_same rfl rfl rfl rfl rfl
  unfold onServerConnected
  simp only []
  split
  · rename_i ht
    exact absurd (hc.stands_of ht) id
  · rename_i ht
    obtain ⟨-, hl⟩ := hc.stands_of ht
    have hsent := (hconnected.sendCommand (.register c.name c.port) ⟨rfl, rfl⟩).setTask .rejoining
    exact ⟨hsent, ⟨rfl, hl⟩, trivial⟩
  · exact hc.goes.stays hc rfl rfl id rfl

theorem lives_onServerUnreachable (cause : TransportError) :
    (c.onServerUnreachable cause).Lives c false exits := by
  unfold onServerUnreachable
  split
  · rename_i ht
    exact absurd (hc.stands_of ht) id
  · exact lives_toIdle (hc.goes.printLine _)
  · exact hc.goes.stays hc rfl rfl id rfl

/-- A client only takes something down. -/
theorem lives_of_noted {c' : Client} (hs : c'.settings = c.settings) (hn : c'.name = c.name)
    (hp : c'.port = c.port) (hl : ∀ l, c'.link = some l → l.name = c.name)
    (hnone : c.link = none → c'.link = none) (ht : c'.task = c.task) (hstatus : c'.status = c.status) :
    (Turn.of c').Lives c false exits := by
  have hgoes : (Turn.of c').Goes c false :=
    ⟨hs, hn, hp, hl, c.allowsAll_nil, fun ha => absurd ha (by simp)⟩
  exact hgoes.stays hc ht hstatus hnone rfl

/-- Whatever a client hears on its link, or learns of it, the link goes by the same name. -/
theorem lives_of_heard {inbox : Option Inbox} {f : Link → Link} (hf : ∀ l, (f l).name = l.name) :
    (Turn.of { c with inbox, link := c.link.map f }).Lives c false exits := by
  refine hc.lives_of_noted rfl rfl rfl (fun l hl => ?_) (fun hl => ?_) rfl rfl
  · obtain ⟨link, hlink, rfl⟩ := Option.map_eq_some_iff.mp hl
    exact (hf link).trans (hc.links link hlink)
  · exact Option.map_eq_none_iff.mpr hl

theorem lives_event (e : Event) : (c.onEvent e).Lives c false exits := by
  cases e with
  | typed line => exact hc.lives_of_noted rfl rfl rfl hc.links (fun hl => hl) rfl rfl
  | inputEnded => exact hc.lives_of_noted rfl rfl rfl hc.links (fun hl => hl) rfl rfl
  | listening port =>
    unfold onEvent
    simp only []
    split
    · rename_i ht
      exact absurd (hc.stands_of ht) id
    · exact hc.goes.stays hc rfl rfl id rfl
  | cannotListen cause =>
    unfold onEvent
    simp only []
    split
    · rename_i ht
      exact absurd (hc.stands_of ht) id
    · exact hc.goes.stays hc rfl rfl id rfl
  | serverConnected => exact hc.lives_onServerConnected
  | serverUnreachable cause => exact hc.lives_onServerUnreachable cause
  | serverSent bytes => exact hc.lives_of_heard fun l => l.name_receive bytes
  | serverEnded => exact hc.lives_of_heard fun _ => rfl
  | serverBroken => exact hc.lives_of_noted rfl rfl rfl hc.links (fun hl => hl) rfl rfl
  | dialed =>
    unfold onEvent
    simp only []
    split
    · rename_i ht
      exact lives_startAsking hc.goes (hc.stands_of ht) _
    · exact hc.goes.stays hc rfl rfl id rfl
  | dialFailed cause =>
    unfold onEvent
    simp only []
    split
    · exact lives_failDial hc.goes hc _ cause
    · exact hc.goes.stays hc rfl rfl id rfl
  | callerConnected id address => exact hc.lives_of_noted rfl rfl rfl hc.links (fun hl => hl) rfl rfl
  | sent party bytes => exact hc.lives_onDirect party bytes false
  | ended party => exact hc.lives_onDirect party [] true
  | broken party => exact hc.lives_of_noted rfl rfl rfl hc.links (fun hl => hl) rfl rfl

/-! ## Acts -/

theorem lives_act (a : Act) : (c.act a).Lives c false (c.Exits a) := by
  cases a with
  | event e => exact hc.lives_event e
  | move source =>
    cases hm : c.move? source with
    | none =>
      have hact : c.act (.move source) = Turn.of c := by rw [act, hm]; rfl
      rw [hact]
      exact hc.goes.stays hc rfl rfl id rfl
    | some t =>
      have hact : c.act (.move source) = t := by rw [act, hm]; rfl
      rw [hact]
      exact hc.lives_move hm

/-! ## Incidents -/

/-- Whoever cannot be read any more is given up, as if there had come an end. -/
theorem lives_onDirectFailed (cause : TransportError) :
    (c.onDirectFailed cause).Lives c false exits := by
  unfold onDirectFailed
  simp only []
  split
  · exact lives_concludeAsking hc.goes hc rfl rfl _ _
  · rename_i ht
    exact (lives_failKeyExchange (hc.goes_of_none (hc.stands_of ht).2) hc _).weaken
  · rename_i ht
    exact (lives_failKeyExchange (hc.goes_of_none (hc.stands_of ht).2) hc _).weaken
  · rename_i ht
    obtain ⟨hs, hl⟩ := hc.stands_of ht
    refine (lives_continueChat ((hc.goes_of_none hl).printEvents _) hc ?_ _).weaken
    rw [client_printEvents]
    exact hs
  · exact hc.goes.stays hc rfl rfl id rfl

/-- A failure never ends a client. -/
theorem lives_meet (x : Incident) : (c.meet x).Lives c false (∃ a, x = .act a ∧ c.Exits a) := by
  cases x with
  | act a => exact (hc.lives_act a).imp fun hx => ⟨a, rfl, hx⟩
  | serverFailed => exact hc.lives_of_heard fun _ => rfl
  | directFailed cause => exact hc.lives_onDirectFailed cause

theorem gone_of_accepts {a : Act} (ha : c.Accepts a) :
    (c.act a).client.link = none ∧ c.farewell <:+: (c.act a).effects := by
  unfold Accepts at ha
  split at ha
  · obtain ⟨target, d, rest, ht, hd, hv⟩ := ha
    have hact : c.act (.move .direct) = (Turn.of c).concludeAsking target (.ok (.accepted rest)) := by
      simp only [act, move?, moveDirect, hd, ht, hv, Option.getD_some]
    rw [hact]
    have hlives : Turn.Lives c true True _ := lives_accepted hc.goes hc rfl rfl target rest
    exact hlives.goes.gone rfl
  · obtain ⟨name, line, typed, ht, htyped, hyes, hs⟩ := ha
    have hact : c.act (.move .keyboard) = (Turn.of { c with typed }).acceptCall name := by
      simp only [act, move?, moveKeyboard, awaitsLine, onLine, ht, htyped, Turn.decideCall, hyes,
        if_true, Option.getD_some]
    have hgoes : (Turn.of { c with typed }).Goes c false := hc.goes.of_same rfl rfl rfl rfl rfl
    rw [hact]
    have hlives : Turn.Lives c true True _ := lives_answered hgoes hc rfl rfl name hs
    exact hlives.goes.gone rfl
  · exact absurd ha id

end Client.Orderly

theorem Turn.Lives.orderly (h : t.Lives c away exits) (hc : c.Orderly) : t.client.Orderly where
  listed := by rw [h.goes.settings]; exact hc.listed
  links := fun l hl => (h.goes.links l hl).trans h.goes.name.symm
  stands := h.stands

end PeerChat
