import PeerChat.Lobby
import PeerChat.Proofs.Client.Calling
import PeerChat.Proofs.Session.Negotiation
import PeerChat.Proofs.Session.Sealed

/-!
# A turn as callers see it

Of all that a client does, its callers see what is sent to them and when they are hung up on.  Where the
user is not asked about a caller, a turn goes on with the caller on the direct connection, or lets go of
it, or hangs up on everyone in the queue and is the last (`Turn.Deals`).
-/

namespace PeerChat

namespace Reception

variable {r : Reception}

theorem Bare.denyQueued_eq (h : r.Bare) :
    r.denyQueued = ({ r with queue := [] }, r.queue.map fun call => .deny call.caller) := by
  have hbare : Bare { r with queue := [] } := ⟨h.callers, h.waiting⟩
  rw [Reception.denyQueued, hbare.forward]
  simp only [List.append_nil]

theorem Bare.close_eq (h : r.Bare) : r.close = ({ r with queue := [], isClosed := true },
    r.queue.map fun call => .drop call.caller) := by
  obtain ⟨capacity, isOpen, isClosed, callers, waiting, queue⟩ := r
  obtain rfl : callers = [] := h.callers
  have hbare : Bare ⟨capacity, isOpen, true, [], waiting, []⟩ := ⟨rfl, h.waiting⟩
  simp only [Reception.close, ite_self, hbare.forward, List.map_nil, List.nil_append, List.append_nil]

end Reception

/-! ## What callers see -/

namespace Effect

/-- A caller is denied. -/
def refusal (id : CallerId) : List Effect :=
  [.send (.caller id) (Negotiation.answer false), .close (.caller id)]

/-- Something is said in a session; it is longer than any answer to a request. -/
def IsTalk (guest : Option CallerId) (e : Effect) : Prop :=
  ∃ id bytes, guest = some id ∧ e = .send (.caller id) bytes ∧ 8 ≤ bytes.length

theorem length_answer_lt (accept : Bool) : (Negotiation.answer accept).length < 8 := by
  cases accept <;> decide +kernel

theorem IsTalk.ne_answer {guest : Option CallerId} {e : Effect} (h : e.IsTalk guest) (id : CallerId)
    (accept : Bool) : e ≠ .send (.caller id) (Negotiation.answer accept) := by
  rintro rfl
  obtain ⟨id', bytes, -, he, hlong⟩ := h
  obtain ⟨-, rfl⟩ := Effect.send.inj he
  have := length_answer_lt accept
  omega

end Effect

/-- What a caller sees of what the reception does. -/
def Reception.Effect.told : Reception.Effect → List PeerChat.Effect
  | .deny id => Effect.refusal id
  | .drop id => [.close (.caller id)]

/-- What a client whose guest this is does when it lets go of the guest. -/
def Effect.farewell (guest : Option CallerId) : List Effect :=
  guest.toList.map fun id => .close (.caller id)

namespace Turn

/-- What a turn does to callers. -/
def toCallers (t : Turn) : List Effect := t.effects.filter fun e => e.caller?.isSome

section

variable (t : Turn)

@[simp] theorem toCallers_of (c : Client) : (of c).toCallers = [] := rfl

theorem toCallers_emit (e : Effect) :
    (t.emit e).toCallers = t.toCallers ++ [e].filter fun e => e.caller?.isSome :=
  List.filter_append ..

theorem toCallers_emit_of_none {e : Effect} (h : e.caller? = none) :
    (t.emit e).toCallers = t.toCallers := by
  rw [toCallers_emit, List.filter_cons_of_neg (by rw [h]; simp), List.filter_nil, List.append_nil]

theorem toCallers_emit_of_some {e : Effect} (h : e.caller?.isSome = true) :
    (t.emit e).toCallers = t.toCallers ++ [e] := by
  have hkept : [e].filter (fun e => e.caller?.isSome) = [e] := List.filter_cons_of_pos h
  rw [toCallers_emit, hkept]

theorem toCallers_receive (outcome : Reception × List Reception.Effect) :
    (t.receive outcome).toCallers = t.toCallers ++ outcome.2.flatMap Reception.Effect.told := by
  obtain ⟨reception, effects⟩ := outcome
  unfold receive
  generalize hu : (t.update fun c => { c with reception }) = u
  have htold : t.toCallers = u.toCallers := by
    rw [← hu]
    rfl
  simp only [htold]
  clear hu htold
  induction effects generalizing u with
  | nil => exact (List.append_nil _).symm
  | cons e effects ih =>
    rw [List.foldl_cons, ih, List.flatMap_cons, ← List.append_assoc]
    congr 1
    cases e with
    | deny id =>
      simp only [Reception.Effect.told, Effect.refusal]
      rw [toCallers_emit_of_some _ rfl, toCallers_emit_of_some _ rfl,
        List.append_assoc]
      rfl
    | drop id => exact toCallers_emit_of_some _ rfl

end

/-! ## Going on with a guest -/

variable {t t' u : Turn}

/-- The client keeps its guest and its reception, and talks to none but the guest. -/
structure Speaks (t t' : Turn) : Prop where
  reception : t'.client.reception = t.client.reception
  guest : t'.client.guest = t.client.guest
  toCallers : ∃ talk, t'.toCallers = t.toCallers ++ talk ∧ ∀ e ∈ talk, e.IsTalk t.client.guest

/-- The client has let go of its guest. -/
structure Parts (t t' : Turn) : Prop where
  reception : t'.client.reception = t.client.reception
  guest : t'.client.guest = none
  toCallers : ∃ talk, t'.toCallers = t.toCallers ++ talk ++ Effect.farewell t.client.guest ∧
    ∀ e ∈ talk, e.IsTalk t.client.guest

/-- Nobody takes calls any more, and everyone in the queue is hung up on. -/
structure Closes (t t' : Turn) : Prop where
  alone : t.client.guest = none
  bare : t'.client.reception.Bare
  queue : t'.client.reception.queue = []
  guest : t'.client.guest = none
  toCallers : t'.toCallers = t.toCallers ++
    t.client.reception.queue.map fun call => .close (.caller call.caller)

namespace Speaks

theorem mute (hr : t'.client.reception = t.client.reception)
    (hg : t'.client.guest = t.client.guest) (ht : t'.toCallers = t.toCallers) : Speaks t t' :=
  ⟨hr, hg, [], by rw [ht, List.append_nil], fun _ he => absurd he List.not_mem_nil⟩

theorem of_client (hc : t'.client = t.client) (ht : t'.toCallers = t.toCallers) : Speaks t t' :=
  mute (by rw [hc]) (by rw [hc]) ht

theorem refl (t : Turn) : Speaks t t := of_client rfl rfl

theorem trans (h : Speaks t t') (g : Speaks t' u) : Speaks t u := by
  obtain ⟨talk, ht, hs⟩ := h.toCallers
  obtain ⟨later, ht', hs'⟩ := g.toCallers
  refine ⟨g.reception.trans h.reception, g.guest.trans h.guest, talk ++ later, ?_, ?_⟩
  · rw [ht', ht, List.append_assoc]
  · intro e he
    rcases List.mem_append.mp he with he | he
    · exact hs e he
    · exact h.guest ▸ hs' e he

/-- With no guest there is nobody to talk to. -/
theorem quiet (h : Speaks t t') (ha : t.client.guest = none) : t'.toCallers = t.toCallers := by
  obtain ⟨talk, ht, hs⟩ := h.toCallers
  cases talk with
  | nil => rw [ht, List.append_nil]
  | cons e talk =>
    obtain ⟨id, -, hid, -⟩ := hs e List.mem_cons_self
    exact absurd (hid.symm.trans ha) (by simp)

theorem parts (h : Speaks t t') (g : Parts t' u) : Parts t u := by
  obtain ⟨talk, ht, hs⟩ := h.toCallers
  obtain ⟨later, ht', hs'⟩ := g.toCallers
  refine ⟨g.reception.trans h.reception, g.guest, talk ++ later, ?_, ?_⟩
  · rw [ht', ht, h.guest, List.append_assoc t.toCallers]
  · intro e he
    rcases List.mem_append.mp he with he | he
    · exact hs e he
    · exact h.guest ▸ hs' e he

theorem parts_of_alone (h : Speaks t t') (ha : t.client.guest = none) : Parts t t' :=
  ⟨h.reception, h.guest.trans ha, [], by rw [h.quiet ha, ha, Effect.farewell]; simp,
    fun _ he => absurd he List.not_mem_nil⟩

theorem closes (h : Speaks t t') (g : Closes t' u) : Closes t u := by
  have ha : t.client.guest = none := h.guest.symm.trans g.alone
  exact ⟨ha, g.bare, g.queue, g.guest, by rw [g.toCallers, h.quiet ha, h.reception]⟩

end Speaks

theorem Parts.speaks (h : Parts t t') (g : Speaks t' u) : Parts t u := by
  obtain ⟨talk, ht, hs⟩ := h.toCallers
  exact ⟨g.reception.trans h.reception, g.guest.trans h.guest, talk,
    by rw [g.quiet h.guest, ht], hs⟩

end Turn

/-! ## Tasks -/

namespace Task

def isSession : Task → Bool
  | .responding _ | .chatting _ => true
  | _ => false

def isDeciding : Task → Bool
  | .deciding _ => true
  | _ => false

/-- Whether somebody who called can be on the direct connection. -/
def isHosting (task : Task) : Bool := task.isDeciding || task.isSession

theorem not_isDeciding_of_isSession {task : Task} (h : task.isSession = true) :
    task.isDeciding = false := by
  cases task <;> simp_all [isDeciding, isSession]

theorem exists_of_isDeciding {task : Task} (h : task.isDeciding = true) :
    ∃ name, task = .deciding name := by
  cases task <;> simp_all [isDeciding]

end Task

namespace Turn

/-- All that can come to callers where the user is not asked about one. -/
inductive Deals (t t' : Turn) : Prop
  | on (speaks : Speaks t t') (session : t'.client.task.isSession = true)
  | off (parts : Parts t t') (calm : t'.client.task.isDeciding = false)
  | closes (closes : Closes t t') (calm : t'.client.task.isDeciding = false)

variable {t t' u : Turn}

theorem Speaks.deals (h : Speaks t t') (g : Deals t' u) : Deals t u := by
  cases g with
  | on speaks session => exact .on (h.trans speaks) session
  | off parts calm => exact .off (h.parts parts) calm
  | closes closes calm => exact .closes (h.closes closes) calm

theorem Speaks.deals_of_alone (h : Speaks t t') (ha : t.client.guest = none)
    (hc : t'.client.task.isDeciding = false) : Deals t t' := .off (h.parts_of_alone ha) hc

/-! ## Moves that no caller sees -/

section

variable (t : Turn)

theorem speaks_emit {e : Effect} (h : e.caller? = none) : Speaks t (t.emit e) :=
  .of_client rfl (toCallers_emit_of_none t h)

theorem speaks_print (text : String) : Speaks t (t.print text) := speaks_emit t rfl

theorem speaks_printLine (text : String) : Speaks t (t.printLine text) := speaks_emit t rfl

theorem speaks_setTask (task : Task) : Speaks t (t.setTask task) := .mute rfl rfl rfl

theorem speaks_setStatus (status : Status) : Speaks t (t.setStatus status) := .mute rfl rfl rfl

theorem speaks_setLink (link : Option Link) : Speaks t (t.setLink link) := .mute rfl rfl rfl

theorem speaks_setInbox (inbox : Option Inbox) : Speaks t (t.setInbox inbox) := .mute rfl rfl rfl

theorem speaks_foldl_printLine {α : Type} (text : α → String) (items : List α) :
    Speaks t (items.foldl (fun t item => t.printLine (text item)) t) := by
  induction items generalizing t with
  | nil => exact .refl t
  | cons item items ih => exact (speaks_printLine t _).trans (ih _)

theorem speaks_printPeers (peers : List Peer) : Speaks t (t.printPeers peers) := by
  unfold printPeers
  split
  · exact speaks_printLine t _
  · exact (speaks_printLine t _).trans (speaks_foldl_printLine _ _ _)

theorem speaks_printEvents (events : List ChatEvent) : Speaks t (t.printEvents events) :=
  speaks_foldl_printLine t _ _

theorem speaks_sendCommand (command : Command) : Speaks t (t.sendCommand command) := by
  unfold sendCommand
  split
  · exact speaks_emit t rfl
  · exact .refl t

theorem speaks_closeInbox : Speaks t t.closeInbox :=
  (speaks_emit t rfl).trans (speaks_setInbox _ none)

theorem speaks_withdraw : Speaks t t.withdraw := by
  unfold withdraw
  split
  · exact (speaks_sendCommand t _).trans ((speaks_emit _ rfl).trans (speaks_setLink _ none))
  · exact .refl t

theorem speaks_loseLink : Speaks t t.loseLink :=
  (speaks_printLine t _).trans ((speaks_emit _ rfl).trans (speaks_setLink _ none))

theorem speaks_refreshPeers : Speaks t t.refreshPeers := by
  unfold refreshPeers
  split
  · split
    · exact speaks_sendCommand t _
    · exact speaks_loseLink t
  · exact (speaks_printPeers t _).trans (speaks_printLine _ _)

theorem speaks_reportGone (name : String) : Speaks t (t.reportGone name) := by
  have hpeers : Speaks t
      (t.update fun c => { c with peers := c.peers.filter fun p => p.name ≠ name }) :=
    .mute rfl rfl rfl
  unfold reportGone
  simp only []
  split
  · exact hpeers.trans ((speaks_sendCommand _ _).trans (speaks_sendCommand _ _))
  · exact hpeers

theorem speaks_handleUpdate (update : Update) : Speaks t (t.handleUpdate update) := by
  unfold handleUpdate
  split
  · rename_i peers
    have hpeers : Speaks t (t.update fun c => { c with peers }) := .mute rfl rfl rfl
    exact hpeers.trans (speaks_printPeers _ _)
  · simp only []
    split
    · exact (speaks_printLine t _).trans (speaks_refreshPeers _)
    · exact speaks_printLine t _
  · exact speaks_printLine t _

theorem speaks_enterSession : Speaks t t.enterSession := by
  unfold enterSession
  split
  · exact .refl t
  · exact (speaks_withdraw t).trans (speaks_setStatus _ _)

theorem speaks_keepIncoming (rest : Bytes) : Speaks t (t.keepIncoming rest) := by
  refine .mute rfl ?_ rfl
  rw [client_keepIncoming, Client.guest, Client.guest, Option.bind_map]
  rfl

/-- What is sent on the direct connection is seen by the guest, if there is one. -/
theorem toCallers_sendDirect (bytes : Bytes) : (t.sendDirect bytes).toCallers = t.toCallers ++
    if t.client.canSend then t.client.guest.toList.map fun id => .send (.caller id) bytes else [] := by
  unfold sendDirect Client.canSend Client.guest
  cases t.client.direct with
  | none => exact (List.append_nil _).symm
  | some d =>
    obtain ⟨party, incoming, ended, writable⟩ := d
    cases writable with
    | false => exact (List.append_nil _).symm
    | true =>
      cases party with
      | dialed => exact (toCallers_emit_of_none t rfl).trans (List.append_nil _).symm
      | caller id => exact toCallers_emit_of_some t rfl

theorem speaks_sendDirect {bytes : Bytes} (h : t.client.guest = none ∨ 8 ≤ bytes.length) :
    Speaks t (t.sendDirect bytes) := by
  refine ⟨by rw [client_sendDirect], by rw [client_sendDirect], _, toCallers_sendDirect t bytes, ?_⟩
  intro e he
  split at he
  · obtain ⟨id, hid, rfl⟩ := List.mem_map.mp he
    have hid : t.client.guest = some id := Option.mem_toList.mp hid
    rcases h with h | h
    · exact absurd (hid.symm.trans h) (by simp)
    · exact ⟨id, bytes, hid, rfl, h⟩
  · exact absurd he List.not_mem_nil

theorem toCallers_sendCommand (command : Command) :
    (t.sendCommand command).toCallers = t.toCallers := by
  unfold sendCommand
  split
  · exact toCallers_emit_of_none t rfl
  · rfl

theorem toCallers_enterSession : t.enterSession.toCallers = t.toCallers := by
  have hwithdraw : t.withdraw.toCallers = t.toCallers := by
    unfold withdraw
    split
    · exact (toCallers_emit_of_none _ rfl).trans (toCallers_sendCommand t _)
    · rfl
  unfold enterSession
  split
  · rfl
  · exact hwithdraw

theorem toCallers_closeDirect :
    t.closeDirect.toCallers = t.toCallers ++ Effect.farewell t.client.guest := by
  unfold closeDirect Effect.farewell Client.guest
  cases t.client.direct with
  | none => exact (List.append_nil _).symm
  | some d =>
    obtain ⟨party, incoming, ended, writable⟩ := d
    cases party with
    | dialed => exact (toCallers_emit_of_none t rfl).trans (List.append_nil _).symm
    | caller id => exact toCallers_emit_of_some t rfl

theorem parts_closeDirect : Parts t t.closeDirect :=
  ⟨by rw [client_closeDirect], by rw [client_closeDirect]; rfl, [],
    by rw [List.append_nil, toCallers_closeDirect], fun _ he => absurd he List.not_mem_nil⟩

end

/-! ## Sessions -/

theorem deals_afterSession (t : Turn) : Deals t t.afterSession := by
  have hclose := parts_closeDirect t
  unfold afterSession
  simp only []
  split
  · exact .off (hclose.speaks ((speaks_print _ _).trans (speaks_setTask _ _))) rfl
  · exact .off (hclose.speaks ((speaks_setStatus _ _).trans
      ((speaks_emit _ rfl).trans (speaks_setTask _ _)))) rfl

theorem deals_failKeyExchange (t : Turn) (remote : String) : Deals t (t.failKeyExchange remote) :=
  (speaks_printLine t _).deals (deals_afterSession _)

theorem deals_openSession (t : Turn) (remote : String) (role : Role) (keys : SessionKeys)
    (rest : Bytes) : Deals t (t.openSession remote role keys rest) := by
  have hopen := (speaks_printLine t (Texts.sessionOpen remote)).trans
    (speaks_printLine _ (Texts.fingerprint keys remote))
  have hchat : ∀ u : Turn, Speaks u (((u.printLine Texts.howToChat).keepIncoming rest).setTask
      (.chatting (.start remote role t.client.settings.mode keys []))) := fun u =>
    (speaks_printLine u _).trans ((speaks_keepIncoming _ _).trans (speaks_setTask _ _))
  unfold openSession
  simp only []
  split
  · exact .on (hopen.trans ((speaks_printLine _ _).trans (hchat _))) rfl
  · exact .on (hopen.trans (hchat _)) rfl

theorem deals_offerKey (t : Turn) (remote : String) (ha : t.client.guest = none) :
    Deals t (t.offerKey remote) := by
  have hpool : ∀ pool, Speaks t (t.update fun c => { c with entropy := pool }) :=
    fun pool => .mute rfl rfl rfl
  unfold offerKey
  split
  · exact (hpool _).deals (deals_failKeyExchange _ remote)
  · rename_i key sent pool _
    simp only []
    split
    · have hsend : Speaks _ ((t.update fun c => { c with entropy := pool }).sendDirect sent) :=
        speaks_sendDirect _ (.inl ha)
      exact ((hpool pool).trans (hsend.trans (speaks_setTask _ _))).deals_of_alone ha rfl
    · exact (hpool pool).deals (deals_failKeyExchange _ remote)

theorem deals_answerKey (t : Turn) (remote : String) {answer : Handshake.Answer}
    (hlong : 8 ≤ answer.sent.length) : Deals t (t.answerKey remote answer) := by
  unfold answerKey
  split
  · exact (speaks_sendDirect t (.inr hlong)).deals (deals_openSession _ _ _ _ _)
  · exact deals_failKeyExchange t remote

theorem deals_continueChat (t : Turn) (chat : Chat) : Deals t (t.continueChat chat) := by
  unfold continueChat
  split
  · exact .on (speaks_setTask t _) rfl
  · exact (speaks_printLine t _).deals (deals_afterSession _)
  · exact (speaks_printLine t _).deals (deals_afterSession _)
  · exact deals_afterSession t

/-- Whatever a chat sends is longer than an answer. -/
theorem sent_typeLine (chat : Chat) (writable : Bool) (line : String) :
    (chat.typeLine writable line).2.sent = [] ∨ 8 ≤ (chat.typeLine writable line).2.sent.length := by
  unfold Chat.typeLine
  split
  · exact .inl rfl
  · simp only []
    split
    · exact .inl rfl
    · split
      · exact .inl rfl
      · split
        · exact .inl rfl
        · split
          · exact .inl rfl
          · rename_i sealed outbound hsealed
            split
            · have hlen := SessionKeys.length_of_encrypt hsealed
              rw [Frame.write, List.length_append, hlen, Aead.tagSize]
              omega
            · exact .inl rfl

theorem deals_typeInChat (t : Turn) (chat : Chat) (line : String) :
    Deals t (t.typeInChat chat line) := by
  have hsent := sent_typeLine chat t.client.canSend line
  unfold typeInChat
  simp only []
  have hprint := speaks_printEvents t (chat.typeLine t.client.canSend line).2.events
  split
  · exact hprint.deals (deals_continueChat _ _)
  · rename_i hne
    have hlong := hsent.resolve_left fun h => hne (by rw [h]; rfl)
    exact (hprint.trans (speaks_sendDirect _ (.inr hlong))).deals (deals_continueChat _ _)

/-! ## Where nobody who called is on the direct connection -/

/-- A client with no guest is done. -/
theorem Speaks.finish (h : Speaks t t') (ha : t.client.guest = none) (hb : t.client.reception.Bare)
    (result : Except ClientError Unit) : Deals t (t'.finish result) := by
  rw [← h.reception] at hb
  have hguest : t'.client.guest = none := h.guest.trans ha
  have hclient : (t'.finish result).client =
      { t'.client with reception := t'.client.reception.close.1, task := .over result } := by
    rw [Turn.finish, client_setTask, client_receive]
  refine h.deals (.closes ⟨hguest, ?_, ?_, ?_, ?_⟩ ?_)
  · rw [hclient]
    exact hb.close.toBare
  · rw [hclient, hb.close_eq]
  · rw [hclient]
    exact hguest
  · refine (toCallers_receive t' _).trans ?_
    rw [hb.close_eq, List.flatMap_map]
    exact congrArg _ (List.map_eq_flatMap).symm
  · rw [hclient]
    rfl

section Alone

variable (h : Speaks t t') (ha : t.client.guest = none)
include h ha

theorem Speaks.task {task : Task} (hd : task.isDeciding = false) : Deals t (t'.setTask task) :=
  (h.trans (speaks_setTask t' task)).deals_of_alone ha hd

theorem Speaks.toIdle : Deals t t'.toIdle := (h.trans (speaks_setStatus t' _)).task ha rfl

theorem Speaks.askEndpoint : Deals t t'.askEndpoint := (h.trans (speaks_print t' _)).task ha rfl

theorem Speaks.askName : Deals t t'.askName := (h.trans (speaks_print t' _)).task ha rfl

theorem Speaks.askPort : Deals t t'.askPort := (h.trans (speaks_print t' _)).task ha rfl

theorem Speaks.offerPort (text : String) : Deals t (t'.offerPort text) := by
  unfold Turn.offerPort
  split
  · rename_i port _
    have hport : Speaks t' (t'.update fun c => { c with port }) := .mute rfl rfl rfl
    exact (h.trans (hport.trans (speaks_emit _ rfl))).task ha rfl
  · exact (h.trans (speaks_printLine t' _)).askPort ha

theorem Speaks.sendRegistration (name : String) {task : Task} {failed : Turn → Turn}
    (hf : Deals t (failed t')) (ht : task.isDeciding = false) :
    Deals t (t'.sendRegistration name task failed) := by
  unfold Turn.sendRegistration
  split
  · exact (h.trans (speaks_sendCommand t' _)).task ha ht
  · exact hf

theorem Speaks.offerName (hb : t.client.reception.Bare) (name : String) :
    Deals t (t'.offerName name) := by
  unfold Turn.offerName
  split
  · exact h.sendRegistration ha name ((h.trans (speaks_closeInbox t')).finish ha hb _) rfl
  · exact (h.trans (speaks_printLine t' _)).askName ha

theorem Speaks.concludeSignUp (hb : t.client.reception.Bare) (name : String) (inbox : Inbox)
    (outcome : SignUp) : Deals t (t'.concludeSignUp name inbox outcome) := by
  unfold Turn.concludeSignUp
  split
  · have hname : ∀ u : Turn, Speaks u (u.update fun c => { c with name }) :=
      fun _ => .mute rfl rfl rfl
    exact (h.trans ((speaks_printLine t' _).trans ((hname _).trans ((speaks_setInbox _ _).trans
      ((speaks_setLink _ _).trans (speaks_setStatus _ _)))))).task ha rfl
  · exact (h.trans ((speaks_setInbox t' _).trans (speaks_printLine _ _))).askName ha
  · exact (h.trans (speaks_closeInbox t')).finish ha hb _
  · exact (h.trans (speaks_closeInbox t')).finish ha hb _

theorem Speaks.concludeReturn (inbox : Inbox) (outcome : SignUp) :
    Deals t (t'.concludeReturn inbox outcome) := by
  have hclosed : ∀ text, Speaks t (t'.closeInbox.printLine text) := fun _ =>
    h.trans ((speaks_closeInbox t').trans (speaks_printLine _ _))
  unfold Turn.concludeReturn
  simp only []
  split
  · exact (h.trans ((speaks_printLine t' _).trans ((speaks_setInbox _ _).trans
      ((speaks_setLink _ _).trans (speaks_setStatus _ _))))).toIdle ha
  · exact (hclosed _).toIdle ha
  · exact (hclosed _).toIdle ha
  · exact (hclosed _).toIdle ha

theorem Speaks.giveUpCall : Deals t t'.giveUpCall := by
  have hclose : Speaks t t'.closeDirect := by
    have hparts := h.parts (parts_closeDirect t')
    obtain ⟨talk, ht, hs⟩ := hparts.toCallers
    rw [ha, Effect.farewell] at ht
    exact ⟨hparts.reception, hparts.guest.trans ha.symm, talk, ht.trans (List.append_nil _), hs⟩
  unfold Turn.giveUpCall
  simp only []
  split
  · exact hclose.askEndpoint ha
  · exact hclose.toIdle ha

theorem Speaks.failDial (target : String) (cause : TransportError) :
    Deals t (t'.failDial target cause) := by
  unfold Turn.failDial
  split
  · exact (h.trans (speaks_printLine t' _)).askEndpoint ha
  · exact (h.trans ((speaks_printLine t' _).trans (speaks_reportGone _ _))).toIdle ha

theorem Speaks.startAsking (target : String) : Deals t (t'.startAsking target) := by
  have hdirect : Speaks t (t'.setDirect (some ⟨.dialed, [], false, true⟩)) :=
    h.trans (.mute rfl (h.guest.trans ha).symm rfl)
  exact (hdirect.trans (speaks_sendDirect _ (.inl rfl))).task ha rfl

theorem Speaks.concludeAsking (target : String) (verdict : Except Failure Negotiation.Verdict) :
    Deals t (t'.concludeAsking target verdict) := by
  unfold Turn.concludeAsking
  split
  · rename_i rest
    have henter : Speaks t (((t'.printLine (Texts.accepted target)).keepIncoming rest).enterSession) :=
      h.trans ((speaks_printLine t' _).trans ((speaks_keepIncoming _ _).trans
        (speaks_enterSession _)))
    exact henter.deals (deals_offerKey _ target (henter.guest.trans ha))
  · exact (h.trans (speaks_printLine t' _)).giveUpCall ha
  · exact (h.trans (speaks_printLine t' _)).giveUpCall ha

theorem Speaks.dial (ht : t'.client.task = .idle) (target : String) : Deals t (t'.dial target) := by
  unfold Turn.dial
  split
  · exact (h.trans (speaks_printLine t' _)).deals_of_alone ha (by rw [client_printLine, ht]; rfl)
  · exact (h.trans (speaks_printLine t' _)).deals_of_alone ha (by rw [client_printLine, ht]; rfl)
  · exact (h.trans ((speaks_setStatus t' _).trans (speaks_emit _ rfl))).task ha rfl

theorem Speaks.obey (hb : t.client.reception.Bare) (ht : t'.client.task = .idle) (line : String) :
    Deals t (t'.obey line) := by
  unfold Turn.obey
  split
  · exact h.deals_of_alone ha (by rw [ht]; rfl)
  · exact (h.trans ((speaks_withdraw t').trans (speaks_printLine _ _))).finish ha hb _
  · exact (h.trans (speaks_refreshPeers t')).deals_of_alone ha
      (by rw [(same_refreshPeers t').task, ht]; rfl)
  · exact (h.trans (speaks_printLine t' _)).deals_of_alone ha (by rw [client_printLine, ht]; rfl)
  · exact h.dial ha ht _

theorem Speaks.obeyAnonymous (hb : t.client.reception.Bare) (line : String) :
    Deals t (t'.obeyAnonymous line) := by
  unfold Turn.obeyAnonymous
  split
  · exact h.askEndpoint ha
  · exact (h.trans (speaks_printLine t' _)).finish ha hb _
  · split
    · exact (h.trans (speaks_emit t' rfl)).task ha rfl
    · exact (h.trans (speaks_printLine t' _)).askEndpoint ha

end Alone

end Turn

end PeerChat
