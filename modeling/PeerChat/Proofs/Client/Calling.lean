import PeerChat.Proofs.Client.Turn

/-!
# A client and its calls

A client that calls somebody from its main loop is busy, from the moment it begins to dial to the
moment it has its answer.  Whatever it does next, it goes on as before, or calls nobody, or begins to
dial and is busy (`leads_of_move`, `leads_of_event`), and nobody comes into its queue by that.
-/

namespace PeerChat

/-! ## The reception -/

namespace Reception

/-- Nobody is in the reception but in its queue, as it is where callers have attendants. -/
structure Bare (r : Reception) : Prop where
  callers : r.callers = []
  waiting : r.waiting = []

/-- Nobody has come into the queue. -/
structure Within (r s : Reception) : Prop extends r.Bare where
  queue : r.queue.map Call.caller ⊆ s.queue.map Call.caller

variable {r s : Reception}

theorem Bare.refl (h : r.Bare) : r.Within r := ⟨h, List.Subset.refl _⟩

theorem Within.trans {q : Reception} (h : q.Within r) (g : r.Within s) : q.Within s :=
  ⟨h.toBare, List.Subset.trans h.queue g.queue⟩

theorem Bare.forward (h : r.Bare) : r.forward = (r, []) := by
  obtain ⟨capacity, isOpen, isClosed, callers, waiting, queue⟩ := r
  obtain rfl : waiting = [] := h.waiting
  unfold Reception.forward
  split
  · rfl
  · simp only [List.take_nil, List.append_nil, List.drop_nil]

theorem Bare.denyQueued (h : r.Bare) : r.denyQueued.1.Within r := by
  have hbare : Bare { r with queue := [] } := ⟨h.callers, h.waiting⟩
  have hforward : r.denyQueued.1 = { r with queue := [] } := by
    rw [Reception.denyQueued, hbare.forward]
  rw [hforward]
  exact ⟨hbare, List.nil_subset _⟩

theorem Bare.close (h : r.Bare) : r.close.1.Within r := by
  have hcallers : (if r.isOpen then r.callers else []) = [] := by
    rw [h.callers, ite_self]
  have hbare : Bare { r with callers := [], queue := [], isClosed := true } := ⟨rfl, h.waiting⟩
  have hforward : r.close.1 = { r with callers := [], queue := [], isClosed := true } := by
    simp only [Reception.close, hcallers, hbare.forward]
  rw [hforward]
  exact ⟨hbare, List.nil_subset _⟩

theorem Bare.openUp (h : r.Bare) (busy : Bool) : (r.openUp busy).1.Within r := by
  have hopen : (r.openUp busy).1 = { r with isOpen := true } := by
    rw [Reception.openUp, h.callers]
    rfl
  rw [hopen]
  exact ⟨⟨h.callers, h.waiting⟩, List.Subset.refl _⟩

theorem Bare.take? (h : r.Bare) {call : Call} (ht : r.take? = some (call, s)) : s.Within r := by
  unfold Reception.take? at ht
  split at ht
  · exact absurd ht (by simp)
  · rename_i first queue hq
    obtain ⟨rfl, rfl⟩ := Prod.mk.inj (Option.some.inj ht)
    refine ⟨⟨h.callers, h.waiting⟩, ?_⟩
    rw [hq]
    exact List.subset_cons_self ..

theorem Bare.store (h : r.Bare) (id : CallerId) (bytes : Bytes) (ended : Bool) :
    (r.store id bytes ended).Within r := by
  refine ⟨⟨?_, ?_⟩, ?_⟩
  · rw [Reception.store, h.callers]
    rfl
  · simp only [Reception.store, h.waiting, List.map_nil]
  · intro k hk
    simp only [Reception.store, List.map_map, List.mem_map, Function.comp_apply] at hk
    obtain ⟨call, hcall, rfl⟩ := hk
    refine List.mem_map.mpr ⟨call, hcall, ?_⟩
    split <;> rfl

theorem Bare.receive (h : r.Bare) (busy : Bool) (id : CallerId) (bytes : Bytes) (ended : Bool) :
    (r.receive busy id bytes ended).1.Within r := by
  have hstore := h.store id bytes ended
  have hattend : (r.store id bytes ended).attend busy id = (r.store id bytes ended, []) := by
    rw [attend, caller?, hstore.callers]
    rfl
  have hreceive : (r.receive busy id bytes ended).1 = r.store id bytes ended := by
    unfold Reception.receive
    simp only [hattend, ite_self]
  rw [hreceive]
  exact hstore

end Reception

/-! ## Tasks -/

/-- A client at this task calls somebody. -/
def Task.isCalling : Task → Bool
  | .dialing _ | .asking _ => true
  | _ => false

/-- A task at which nobody is called, and that fits the settings. -/
def Task.Calm (s : Settings) : Task → Prop
  | .dialing _ | .asking _ => False
  | .choosingEndpoint => s.anonymous = true
  | _ => True

theorem Task.Calm.not_isCalling {s : Settings} {task : Task} (h : task.Calm s) :
    task.isCalling = false := by
  cases task with
  | dialing target => exact absurd h id
  | asking target => exact absurd h id
  | _ => rfl

/-- What holds of every client whose callers have attendants. -/
structure Client.Poised (c : Client) : Prop where
  bare : c.reception.Bare
  byAddress : c.task = .choosingEndpoint → c.settings.anonymous = true
  busy : c.task.isCalling = true → c.settings.anonymous = false → c.status = .negotiating

/-! ## Turns -/

/-- A turn so far: the settings are as they were, and nobody has come into the queue. -/
structure Turn.Holds (c : Client) (t : Turn) : Prop where
  settings : t.client.settings = c.settings
  reception : t.client.reception.Within c.reception

/-- All that a turn can come to. -/
inductive Turn.Leads (c : Client) (t : Turn) : Prop
  /-- The client goes on with what it was at. -/
  | stays (holds : t.Holds c) (task : t.client.task = c.task) (status : t.client.status = c.status)
  | calms (holds : t.Holds c) (calm : t.client.task.Calm c.settings)
  | dials {target : String} (holds : t.Holds c) (calm : c.task.Calm c.settings)
      (task : t.client.task = .dialing target)
      (busy : c.settings.anonymous = false → t.client.status = .negotiating)

variable {c : Client} {t t' : Turn}

namespace Turn

namespace Holds

theorem of (h : c.reception.Bare) : (Turn.of c).Holds c := ⟨rfl, h.refl⟩

theorem step (h : t.Holds c) (hs : t'.client.settings = t.client.settings)
    (hr : t'.client.reception = t.client.reception) : t'.Holds c := by
  refine ⟨hs.trans h.settings, ?_⟩
  rw [hr]
  exact h.reception

theorem receive (h : t.Holds c) {outcome : Reception × List Reception.Effect}
    (ho : outcome.1.Within c.reception) : (t.receive outcome).Holds c := by
  refine ⟨?_, ?_⟩
  · rw [client_receive]
    exact h.settings
  · rw [client_receive]
    exact ho

end Holds

/-- Only the connections, the lists and the output have changed. -/
structure Same (t t' : Turn) : Prop where
  settings : t'.client.settings = t.client.settings
  reception : t'.client.reception = t.client.reception
  task : t'.client.task = t.client.task

namespace Same

theorem of_client (h : t'.client = t.client) : Same t t' := ⟨by rw [h], by rw [h], by rw [h]⟩

theorem trans {u : Turn} (h : Same t t') (g : Same t' u) : Same t u :=
  ⟨g.settings.trans h.settings, g.reception.trans h.reception, g.task.trans h.task⟩

theorem holds (h : Same t t') (hh : t.Holds c) : t'.Holds c := hh.step h.settings h.reception

end Same

theorem same_print (t : Turn) (text : String) : Same t (t.print text) := .of_client rfl

theorem same_printLine (t : Turn) (text : String) : Same t (t.printLine text) := .of_client rfl

theorem same_printPeers (t : Turn) (peers : List Peer) : Same t (t.printPeers peers) :=
  .of_client (client_printPeers t peers)

theorem same_printEvents (t : Turn) (events : List ChatEvent) : Same t (t.printEvents events) :=
  .of_client (client_printEvents t events)

theorem same_sendDirect (t : Turn) (bytes : Bytes) : Same t (t.sendDirect bytes) :=
  .of_client (client_sendDirect t bytes)

theorem same_sendCommand (t : Turn) (command : Command) : Same t (t.sendCommand command) :=
  .of_client (client_sendCommand t command)

theorem same_closeDirect (t : Turn) : Same t t.closeDirect := by
  refine ⟨?_, ?_, ?_⟩ <;> rw [client_closeDirect]

theorem same_closeInbox (t : Turn) : Same t t.closeInbox := ⟨rfl, rfl, rfl⟩

theorem same_withdraw (t : Turn) : Same t t.withdraw := by
  unfold withdraw
  split
  · rename_i link _
    have hlast : Same (t.sendCommand (.remove link.name))
        (((t.sendCommand (.remove link.name)).emit .closeServer).setLink none) := ⟨rfl, rfl, rfl⟩
    exact (same_sendCommand t _).trans hlast
  · exact .of_client rfl

theorem same_loseLink (t : Turn) : Same t t.loseLink := ⟨rfl, rfl, rfl⟩

theorem same_refreshPeers (t : Turn) : Same t t.refreshPeers := by
  unfold refreshPeers
  split
  · split
    · exact same_sendCommand t _
    · exact same_loseLink t
  · exact (same_printPeers t _).trans (same_printLine _ _)

theorem same_reportGone (t : Turn) (name : String) : Same t (t.reportGone name) := by
  have hpeers : Same t (t.update fun c => { c with peers := c.peers.filter fun p => p.name ≠ name }) :=
    ⟨rfl, rfl, rfl⟩
  unfold reportGone
  simp only []
  split
  · exact hpeers.trans ((same_sendCommand _ _).trans (same_sendCommand _ _))
  · exact hpeers

theorem same_handleUpdate (t : Turn) (update : Update) : Same t (t.handleUpdate update) := by
  unfold handleUpdate
  split
  · rename_i peers
    have hpeers : Same t (t.update fun c => { c with peers }) := ⟨rfl, rfl, rfl⟩
    exact hpeers.trans (same_printPeers _ _)
  · simp only []
    split
    · exact (same_printLine t _).trans (same_refreshPeers _)
    · exact same_printLine t _
  · exact same_printLine t _

theorem same_enterSession (t : Turn) : Same t t.enterSession := by
  unfold enterSession
  split
  · exact .of_client rfl
  · have hstatus : Same t.withdraw (t.withdraw.setStatus .inSession) := ⟨rfl, rfl, rfl⟩
    exact (same_withdraw t).trans hstatus

/-! ## Where turns lead -/

section Leads

variable (h : t.Holds c)
include h

theorem Holds.calms {task : Task} (ht : task.Calm c.settings) : (t.setTask task).Leads c :=
  .calms (h.step rfl rfl) ht

theorem Holds.calms_of_eq {task : Task} (ht : t.client.task = task) (hc : task.Calm c.settings) :
    t.Leads c := .calms h (by rw [ht]; exact hc)

theorem leads_finish (result : Except ClientError Unit) : (t.finish result).Leads c :=
  (h.receive (h.reception.toBare.close.trans h.reception)).calms trivial

theorem leads_toIdle : t.toIdle.Leads c := Holds.calms (h.step rfl rfl : (t.setStatus .idle).Holds c) trivial

theorem leads_askEndpoint (ha : c.settings.anonymous = true) : t.askEndpoint.Leads c :=
  ((same_print t _).holds h).calms ha

theorem leads_askName : t.askName.Leads c := ((same_print t _).holds h).calms trivial

theorem leads_askPort : t.askPort.Leads c := ((same_print t _).holds h).calms trivial

theorem leads_bind (port : UInt16) : (t.bind port).Leads c :=
  Holds.calms (h.step rfl rfl : ((t.update fun c => { c with port }).emit (.listen port)).Holds c) trivial

theorem leads_offerPort (text : String) : (t.offerPort text).Leads c := by
  unfold offerPort
  split
  · exact leads_bind h _
  · exact leads_askPort ((same_printLine t _).holds h)

theorem leads_sendRegistration (name : String) {task : Task} {failed : Turn → Turn}
    (hf : (failed t).Leads c) (ht : task.Calm c.settings) :
    (t.sendRegistration name task failed).Leads c := by
  unfold sendRegistration
  split
  · exact ((same_sendCommand t _).holds h).calms ht
  · exact hf

theorem leads_offerName (name : String) : (t.offerName name).Leads c := by
  unfold offerName
  split
  · exact leads_sendRegistration h name (leads_finish ((same_closeInbox t).holds h) _) trivial
  · exact leads_askName ((same_printLine t _).holds h)

theorem leads_concludeSignUp (name : String) (inbox : Inbox) (outcome : SignUp) :
    (t.concludeSignUp name inbox outcome).Leads c := by
  unfold concludeSignUp
  split
  · exact .calms (h.step rfl rfl) trivial
  · have hinbox : ((t.setInbox (some inbox)).printLine Texts.nameTaken).Holds c := h.step rfl rfl
    exact leads_askName hinbox
  · exact leads_finish ((same_closeInbox t).holds h) _
  · exact leads_finish ((same_closeInbox t).holds h) _

theorem leads_concludeReturn (inbox : Inbox) (outcome : SignUp) :
    (t.concludeReturn inbox outcome).Leads c := by
  unfold concludeReturn
  simp only []
  split
  · exact .calms (h.step rfl rfl) trivial
  · exact .calms (h.step rfl rfl) trivial
  · exact .calms (h.step rfl rfl) trivial
  · exact .calms (h.step rfl rfl) trivial

theorem leads_afterSession : t.afterSession.Leads c := by
  have hclose := (same_closeDirect t).holds h
  unfold afterSession
  simp only []
  split
  · rename_i ha
    rw [hclose.settings] at ha
    exact leads_askEndpoint hclose ha
  · exact .calms (hclose.step rfl rfl) trivial

theorem leads_failKeyExchange (remote : String) : (t.failKeyExchange remote).Leads c :=
  leads_afterSession ((same_printLine t _).holds h)

theorem leads_openSession (remote : String) (role : Role) (keys : SessionKeys) (rest : Bytes) :
    (t.openSession remote role keys rest).Leads c := by
  have hopen := (same_printLine _ (Texts.fingerprint keys remote)).holds
    ((same_printLine t (Texts.sessionOpen remote)).holds h)
  unfold openSession
  simp only []
  split
  · exact .calms (hopen.step rfl rfl) trivial
  · exact .calms (hopen.step rfl rfl) trivial

theorem leads_offerKey (remote : String) : (t.offerKey remote).Leads c := by
  unfold offerKey
  split
  · rename_i pool _
    have hpool : (t.update fun c => { c with entropy := pool }).Holds c := h.step rfl rfl
    exact leads_failKeyExchange hpool remote
  · rename_i pool _
    have hpool : (t.update fun c => { c with entropy := pool }).Holds c := h.step rfl rfl
    simp only []
    split
    · exact ((same_sendDirect _ _).holds hpool).calms trivial
    · exact leads_failKeyExchange hpool remote

theorem leads_answerKey (remote : String) (answer : Handshake.Answer) :
    (t.answerKey remote answer).Leads c := by
  unfold answerKey
  split
  · exact leads_openSession ((same_sendDirect t _).holds h) _ _ _ _
  · exact leads_failKeyExchange h remote

theorem leads_continueChat (chat : Chat) : (t.continueChat chat).Leads c := by
  unfold continueChat
  split
  · exact h.calms trivial
  · exact leads_afterSession ((same_printLine t _).holds h)
  · exact leads_afterSession ((same_printLine t _).holds h)
  · exact leads_afterSession h

theorem leads_giveUpCall : t.giveUpCall.Leads c := by
  have hclose := (same_closeDirect t).holds h
  unfold giveUpCall
  simp only []
  split
  · rename_i ha
    rw [hclose.settings] at ha
    exact leads_askEndpoint hclose ha
  · exact leads_toIdle hclose

theorem leads_failDial (target : String) (cause : TransportError) :
    (t.failDial target cause).Leads c := by
  unfold failDial
  split
  · rename_i ha
    rw [h.settings] at ha
    exact leads_askEndpoint ((same_printLine t _).holds h) ha
  · exact leads_toIdle (((same_printLine t _).trans (same_reportGone _ target)).holds h)

theorem leads_concludeAsking (target : String) (verdict : Except Failure Negotiation.Verdict) :
    (t.concludeAsking target verdict).Leads c := by
  unfold concludeAsking
  split
  · rename_i rest
    have hkeep : ((t.printLine (Texts.accepted target)).keepIncoming rest).Holds c := h.step rfl rfl
    exact leads_offerKey ((same_enterSession _).holds hkeep) target
  · exact leads_giveUpCall ((same_printLine t _).holds h)
  · exact leads_giveUpCall ((same_printLine t _).holds h)

theorem leads_askUser (call : Call) {reception : Reception} (hr : reception.Within c.reception) :
    (t.askUser call reception).Leads c := by
  have hstatus : (t.setStatus .negotiating).Holds c := h.step rfl rfl
  have hdeny := hstatus.receive (hr.toBare.denyQueued.trans hr)
  exact .calms (hdeny.step rfl rfl) trivial

theorem leads_denyCall (name : String) : (t.denyCall name).Leads c :=
  leads_toIdle (((same_printLine t _).trans
    ((same_sendDirect _ _).trans (same_closeDirect _))).holds h)

theorem leads_acceptCall (name : String) : (t.acceptCall name).Leads c := by
  unfold acceptCall
  split
  · exact (((same_sendDirect t _).trans (same_enterSession _)).holds h).calms trivial
  · exact leads_toIdle (((same_printLine t _).trans (same_closeDirect _)).holds h)

theorem leads_decideCall {name : String} (ht : t.client.task = .deciding name) (line : String) :
    (t.decideCall name line).Leads c := by
  unfold decideCall
  simp only []
  split
  · exact leads_acceptCall h name
  · split
    · exact leads_denyCall h name
    · exact ((same_print t _).holds h).calms_of_eq ht trivial

/-! ## Dialing -/

theorem leads_dial (hidle : c.task = .idle) (ht : t.client.task = .idle) (target : String) :
    (t.dial target).Leads c := by
  unfold dial
  split
  · exact ((same_printLine t _).holds h).calms_of_eq ht trivial
  · exact ((same_printLine t _).holds h).calms_of_eq ht trivial
  · exact .dials (h.step rfl rfl) (by rw [hidle]; trivial) rfl fun _ => rfl

theorem leads_obey (hidle : c.task = .idle) (ht : t.client.task = .idle) (line : String) :
    (t.obey line).Leads c := by
  unfold obey
  split
  · exact h.calms_of_eq ht trivial
  · exact leads_finish (((same_withdraw t).trans (same_printLine _ _)).holds h) _
  · exact ((same_refreshPeers t).holds h).calms_of_eq ((same_refreshPeers t).task.trans ht) trivial
  · exact ((same_printLine t _).holds h).calms_of_eq ht trivial
  · exact leads_dial h hidle ht _

theorem leads_obeyAnonymous (hc : c.task = .choosingEndpoint) (ha : c.settings.anonymous = true)
    (line : String) : (t.obeyAnonymous line).Leads c := by
  unfold obeyAnonymous
  split
  · exact leads_askEndpoint h ha
  · exact leads_finish ((same_printLine t _).holds h) _
  · split
    · refine .dials (h.step rfl rfl) (by rw [hc]; exact ha) rfl fun hn => ?_
      exact absurd (ha.symm.trans hn) (by simp)
    · exact leads_askEndpoint ((same_printLine t _).holds h) ha

theorem leads_typeInChat (chat : Chat) (line : String) : (t.typeInChat chat line).Leads c := by
  unfold typeInChat
  simp only []
  have hprint := fun events => (same_printEvents t events).holds h
  split
  · exact leads_continueChat (hprint _) _
  · exact leads_continueChat ((same_sendDirect _ _).holds (hprint _)) _

end Leads

end Turn

/-! ## Moves -/

open Turn

theorem leads_onLine (h : c.Poised) (line : String) : (c.onLine line).Leads c := by
  have hof := Holds.of h.bare
  unfold Client.onLine
  simp only []
  split
  · exact leads_offerPort hof _
  · exact leads_offerName hof _
  · rename_i ht
    exact leads_obey hof ht ht line
  · rename_i ht
    exact leads_obeyAnonymous hof ht (h.byAddress ht) line
  · rename_i ht
    exact leads_decideCall hof ht line
  · exact leads_typeInChat hof _ line
  · exact .stays hof rfl rfl

theorem leads_onInputEnd (h : c.Poised) : c.onInputEnd.Leads c := by
  have hof := Holds.of h.bare
  unfold Client.onInputEnd
  simp only []
  split
  · exact leads_finish hof _
  · exact leads_finish ((same_closeInbox _).holds hof) _
  · exact leads_finish ((same_withdraw _).holds hof) _
  · exact leads_finish ((same_printLine _ _).holds hof) _
  · exact leads_denyCall hof _
  · exact leads_continueChat hof _
  · exact .stays hof rfl rfl

theorem leads_moveServer (h : c.Poised) (hm : c.moveServer = some t) : t.Leads c := by
  have hof := Holds.of h.bare
  have hreply : ∀ later outcome, (c.onReply later outcome).Leads c := by
    intro later outcome
    unfold Client.onReply
    split
    · exact leads_concludeSignUp hof _ _ _
    · exact leads_concludeReturn hof _ _
  unfold Client.moveServer at hm
  split at hm
  -- Signing up and signing in again wait for a reply in the same way.
  iterate 2
    · obtain ⟨inbox, -, hm⟩ := Option.bind_eq_some_iff.mp hm
      split at hm
      · obtain rfl := Option.some.inj hm
        exact hreply _ _
      · split at hm
        · exact absurd hm (by simp)
        · obtain rfl := Option.some.inj hm
          exact .stays (hof.step rfl rfl) rfl rfl
  · rename_i ht
    split at hm
    · rename_i link _
      split at hm
      · rename_i update updates _
        obtain rfl := Option.some.inj hm
        have hlink : (Turn.of { c with link := some { link with updates } }).Holds c := hof.step rfl rfl
        have hsame := same_handleUpdate (Turn.of { c with link := some { link with updates } }) update
        exact (hsame.holds hlink).calms_of_eq (hsame.task.trans ht) trivial
      · split at hm
        · obtain rfl := Option.some.inj hm
          exact ((same_loseLink _).holds hof).calms_of_eq ht trivial
        · exact absurd hm (by simp)
    · exact absurd hm (by simp)
  · exact absurd hm (by simp)

theorem leads_moveDirect (h : c.Poised) (hm : c.moveDirect = some t) : t.Leads c := by
  have hof := Holds.of h.bare
  unfold Client.moveDirect at hm
  simp only [] at hm
  split at hm
  · exact absurd hm (by simp)
  · split at hm
    · split at hm
      · exact absurd hm (by simp)
      · obtain rfl := Option.some.inj hm
        exact leads_concludeAsking hof _ _
      · obtain rfl := Option.some.inj hm
        exact leads_concludeAsking hof _ _
    · split at hm
      · exact absurd hm (by simp)
      · obtain rfl := Option.some.inj hm
        exact leads_failKeyExchange hof _
      · obtain rfl := Option.some.inj hm
        exact leads_openSession hof _ _ _ _
    · split at hm
      · exact absurd hm (by simp)
      · rename_i pool _
        obtain rfl := Option.some.inj hm
        have hpool : (Turn.of { c with entropy := pool }).Holds c := hof.step rfl rfl
        exact leads_failKeyExchange hpool _
      · rename_i pool _
        obtain rfl := Option.some.inj hm
        have hpool : (Turn.of { c with entropy := pool }).Holds c := hof.step rfl rfl
        exact leads_answerKey hpool _ _
    · split at hm
      · exact absurd hm (by simp)
      · obtain rfl := Option.some.inj hm
        have hkeep : ((Turn.of c).keepIncoming []).Holds c := hof.step rfl rfl
        exact leads_continueChat ((same_printEvents _ _).holds hkeep) _
    · exact absurd hm (by simp)

theorem leads_of_move (h : c.Poised) {source : Source} (hm : c.move? source = some t) :
    t.Leads c := by
  have hof := Holds.of h.bare
  cases source with
  | own =>
    unfold Client.move? Client.moveOwn at hm
    simp only [] at hm
    split at hm
    · obtain rfl := Option.some.inj hm
      exact .calms (hof.step rfl rfl) trivial
    · exact absurd hm (by simp)
  | keyboard =>
    unfold Client.move? Client.moveKeyboard at hm
    simp only [] at hm
    split at hm
    · split at hm
      · rename_i line typed _
        obtain rfl := Option.some.inj hm
        have h' : Client.Poised { c with typed } := ⟨h.bare, h.byAddress, h.busy⟩
        have hline := leads_onLine h' line
        cases hline with
        | stays holds task status => exact .stays ⟨holds.settings, holds.reception⟩ task status
        | calms holds calm => exact .calms ⟨holds.settings, holds.reception⟩ calm
        | dials holds calm task busy => exact .dials ⟨holds.settings, holds.reception⟩ calm task busy
      · split at hm
        · obtain rfl := Option.some.inj hm
          exact leads_onInputEnd h
        · exact absurd hm (by simp)
    · exact absurd hm (by simp)
  | calls =>
    unfold Client.move? Client.moveCalls at hm
    simp only [] at hm
    split at hm
    · rename_i call reception _ htake
      obtain rfl := Option.some.inj hm
      exact leads_askUser hof call (h.bare.take? htake)
    · exact absurd hm (by simp)
  | server => exact leads_moveServer h hm
  | direct => exact leads_moveDirect h hm
  | reception =>
    unfold Client.move? Client.moveReception at hm
    simp only [] at hm
    split at hm
    · rename_i ht
      split at hm
      · exact absurd hm (by simp)
      · obtain rfl := Option.some.inj hm
        have htask : (Turn.of c).openReception.client.task = .idle := by
          rw [openReception, client_receive]
          exact ht
        exact Holds.calms_of_eq (hof.receive (h.bare.openUp _)) htask trivial
    · exact absurd hm (by simp)

/-! ## Events -/

theorem leads_onReception (h : c.Poised) (party : Party) (bytes : Bytes) (ended : Bool) :
    (c.onReception party bytes ended).Leads c := by
  have hof := Holds.of h.bare
  unfold Client.onReception
  split
  · refine .stays (hof.receive (h.bare.receive _ _ _ _)) ?_ ?_ <;> rw [client_receive] <;> rfl
  · exact .stays hof rfl rfl

theorem leads_onDirect (h : c.Poised) (party : Party) (bytes : Bytes) (ended : Bool) :
    (c.onDirect party bytes ended).Leads c := by
  unfold Client.onDirect
  split
  · split
    · exact .stays ((Holds.of h.bare).step rfl rfl) rfl rfl
    · exact leads_onReception h party bytes ended
  · exact leads_onReception h party bytes ended

theorem leads_onServerConnected (h : c.Poised) : c.onServerConnected.Leads c := by
  have hof := Holds.of h.bare
  have hconnected : ((Turn.of { c with inbox := some .empty, serverWritable := true }).setStatus
      .connected).Holds c := hof.step rfl rfl
  unfold Client.onServerConnected
  simp only []
  split
  · split
    · exact leads_offerName hconnected _
    · exact leads_askName hconnected
  · refine leads_sendRegistration hconnected _ ?_ trivial
    exact leads_toIdle (((same_closeInbox _).trans (same_printLine _ _)).holds hconnected)
  · exact .stays hof rfl rfl

theorem leads_onServerUnreachable (h : c.Poised) (cause : TransportError) :
    (c.onServerUnreachable cause).Leads c := by
  have hof := Holds.of h.bare
  unfold Client.onServerUnreachable
  split
  · exact leads_finish hof _
  · exact leads_toIdle ((same_printLine _ _).holds hof)
  · exact .stays hof rfl rfl

/-- What a client does on an event other than a connection that it has dialed, or one to it. -/
theorem leads_of_event (h : c.Poised) {e : Event} (hd : e ≠ .dialed)
    (hc : ∀ id address, e ≠ .callerConnected id address) : (c.onEvent e).Leads c := by
  have hof := Holds.of h.bare
  cases e with
  | typed line => exact .stays (hof.step rfl rfl) rfl rfl
  | inputEnded => exact .stays (hof.step rfl rfl) rfl rfl
  | listening port =>
    unfold Client.onEvent
    simp only []
    split
    · exact .calms (hof.step rfl rfl) trivial
    · exact .stays hof rfl rfl
  | cannotListen cause =>
    unfold Client.onEvent
    simp only []
    split
    · exact leads_finish hof _
    · exact .stays hof rfl rfl
  | serverConnected => exact leads_onServerConnected h
  | serverUnreachable cause => exact leads_onServerUnreachable h cause
  | serverSent bytes => exact .stays (hof.step rfl rfl) rfl rfl
  | serverEnded => exact .stays (hof.step rfl rfl) rfl rfl
  | serverBroken => exact .stays (hof.step rfl rfl) rfl rfl
  | dialed => exact absurd rfl hd
  | dialFailed cause =>
    unfold Client.onEvent
    simp only []
    split
    · exact leads_failDial hof _ cause
    · exact .stays hof rfl rfl
  | callerConnected id address => exact absurd rfl (hc id address)
  | sent party bytes => exact leads_onDirect h party bytes false
  | ended party => exact leads_onDirect h party [] true
  | broken party => exact .stays (hof.step rfl rfl) rfl rfl

/-- A client whose call has got through asks, and is as busy as it was. -/
theorem dialed_spec (h : c.Poised) : (c.onEvent .dialed).Holds c ∧
    (c.onEvent .dialed).client.Poised ∧
    ((c.onEvent .dialed).client.task.isCalling = true → c.task.isCalling = true) := by
  have hof := Holds.of h.bare
  unfold Client.onEvent
  simp only []
  split
  · rename_i target ht
    have hcalling : c.task.isCalling = true := by rw [ht]; rfl
    have hclient : ((Turn.of c).startAsking target).client =
        { c with direct := some ⟨.dialed, [], false, true⟩, task := .asking target } := by
      rw [startAsking, client_setTask, client_sendDirect]
      rfl
    have hask : ((Turn.of c).startAsking target).Holds c := by
      refine hof.step ?_ ?_ <;> rw [hclient] <;> rfl
    refine ⟨hask, ?_, fun _ => hcalling⟩
    rw [hclient]
    exact ⟨h.bare, fun he => absurd he (by simp), fun _ ha => h.busy hcalling ha⟩
  · exact ⟨hof, h, id⟩

/-! ## Clients stay poised -/

theorem Turn.Leads.holds (h : t.Leads c) : t.Holds c := by
  cases h with
  | stays holds task status => exact holds
  | calms holds calm => exact holds
  | dials holds calm task busy => exact holds

theorem Turn.Leads.poised (h : t.Leads c) (hc : c.Poised) : t.client.Poised := by
  have hs := h.holds.settings
  refine ⟨h.holds.reception.toBare, ?_, ?_⟩
  · rw [hs]
    intro he
    cases h with
    | stays holds task status => exact hc.byAddress (task.symm.trans he)
    | calms holds calm =>
      rw [he] at calm
      exact calm
    | dials holds calm task busy => exact absurd (task.symm.trans he) (by simp)
  · rw [hs]
    intro hcalling ha
    cases h with
    | stays holds task status =>
      rw [task] at hcalling
      rw [status]
      exact hc.busy hcalling ha
    | calms holds calm => exact absurd (hcalling.symm.trans calm.not_isCalling) (by simp)
    | dials holds calm task busy => exact busy ha

theorem poised_start (settings : Settings) (entropy : Entropy) :
    (Client.start settings entropy).client.Poised := by
  unfold Client.start
  simp only []
  generalize hc : Client.mk settings _ _ _ _ _ _ _ _ _ _ _ _ _ = c
  have hbare : c.reception.Bare := by
    rw [← hc]
    exact ⟨rfl, rfl⟩
  have hpoised : c.Poised := by
    refine ⟨hbare, ?_, ?_⟩
    · rw [← hc]
      exact fun he => absurd he (by simp)
    · rw [← hc]
      exact fun he => absurd he (by simp [Task.isCalling])
  have hsettings : c.settings = settings := by rw [← hc]
  have hof := Holds.of hbare
  split
  · rename_i ha
    rw [← hsettings] at ha
    exact (leads_askEndpoint ((same_printLine _ _).holds hof) ha).poised hpoised
  · split
    · exact (leads_bind hof _).poised hpoised
    · exact (leads_askPort hof).poised hpoised

theorem isCalling_start (settings : Settings) (entropy : Entropy) :
    (Client.start settings entropy).client.task.isCalling = false := by
  unfold Client.start
  simp only []
  split
  · rfl
  · split <;> rfl

theorem queue_start (settings : Settings) (entropy : Entropy) :
    (Client.start settings entropy).client.reception.queue = [] := by
  unfold Client.start
  simp only []
  split
  · rfl
  · split <;> rfl

end PeerChat
