import PeerChat.Proofs.Client.Hosting

/-!
# What an incident means to callers

A client puts the first request of its queue to the user and denies the others, or takes the user's answer
to that question, or goes on without either (`Client.receives`).
-/

namespace PeerChat

namespace Reception

/-- Who is in the queue, and what names they have given. -/
def requests (r : Reception) : List (CallerId × String) :=
  r.queue.map fun call => (call.caller, call.name)

/-- The same requests are in the queue, and nobody is elsewhere. -/
structure Keeps (r s : Reception) : Prop where
  bare : s.Bare
  requests : s.requests = r.requests

variable {r : Reception}

theorem Bare.keeps (h : r.Bare) : r.Keeps r := ⟨h, rfl⟩

theorem Bare.openUp_eq (h : r.Bare) (busy : Bool) : r.openUp busy = ({ r with isOpen := true }, []) := by
  rw [Reception.openUp, h.callers]
  rfl

/-- Nothing that comes from callers is read by the reception itself. -/
theorem Bare.receive_keeps (h : r.Bare) (busy : Bool) (id : CallerId) (bytes : Bytes)
    (ended : Bool) : r.Keeps (r.receive busy id bytes ended).1 ∧
      (r.receive busy id bytes ended).2 = [] := by
  have hstore := h.store id bytes ended
  have hattend : (r.store id bytes ended).attend busy id = (r.store id bytes ended, []) := by
    rw [attend, caller?, hstore.callers]
    rfl
  have hreceive : r.receive busy id bytes ended = (r.store id bytes ended, []) := by
    unfold Reception.receive
    simp only [hattend, ite_self]
  rw [hreceive]
  refine ⟨⟨hstore.toBare, ?_⟩, rfl⟩
  simp only [requests, Reception.store, List.map_map]
  refine List.map_congr_left fun call _ => ?_
  simp only [Function.comp_apply]
  split <;> rfl

end Reception

namespace Client

/-- What holds of every client whose callers have attendants. -/
structure Hosts (c : Client) : Prop where
  bare : c.reception.Bare
  hosting : c.guest.isSome = true → c.task.isHosting = true
  asked : c.task.isDeciding = true → c.guest.isSome = true

theorem Hosts.alone {c : Client} (h : c.Hosts) (ht : c.task.isHosting = false) : c.guest = none := by
  cases hg : c.guest with
  | none => rfl
  | some id => exact absurd (h.hosting (by rw [hg]; rfl)) (by simp [ht])

/-- All that an incident can mean to callers. -/
inductive Receives (c : Client) (x : Incident) (t : Turn) : Prop
  | waits (keeps : c.reception.Keeps t.client.reception) (guest : t.client.guest = c.guest)
      (task : t.client.task = c.task) (quiet : t.toCallers = [])
      (unclear : ∀ line, c.answer? x = some line → Turn.readAnswer line = none)
      (puts : c.puts? x = none)
  | goes (calm : c.task.isDeciding = false) (deals : (Turn.of c).Deals t) (puts : c.puts? x = none)
  | asks {call : Call} {later : List Call} (alone : c.guest = none)
      (queue : c.reception.queue = call :: later) (puts : c.puts? x = some call)
      (bare : t.client.reception.Bare) (rest : t.client.reception.queue = [])
      (guest : t.client.guest = some call.caller) (task : t.client.task = .deciding call.name)
      (toCallers : t.toCallers = later.flatMap fun call => Effect.refusal call.caller)
  | accepts {id : CallerId} {name line : String} (deciding : c.task = .deciding name)
      (asked : c.guest = some id) (answer : c.answer? x = some line)
      (yes : Turn.readAnswer line = some true) (keeps : c.reception.Keeps t.client.reception)
      (guest : t.client.guest = some id) (task : t.client.task = .responding name)
      (toCallers : t.toCallers = [.send (.caller id) (Negotiation.answer true)])
      (puts : c.puts? x = none)
  | refuses {id : CallerId} (deciding : c.task.isDeciding = true) (asked : c.guest = some id)
      (keeps : c.reception.Keeps t.client.reception) (guest : t.client.guest = none)
      (calm : t.client.task.isDeciding = false)
      (toCallers : t.toCallers = Effect.refusal id ∨ t.toCallers = [.close (.caller id)])
      (puts : c.puts? x = none)

variable {c : Client} {x : Incident} {t : Turn}

theorem Receives.hosts (h : c.Receives x t) (hc : c.Hosts) : t.client.Hosts := by
  have hparted : t.client.reception.Bare → t.client.guest = none →
      t.client.task.isDeciding = false → t.client.Hosts := by
    intro hb hg ht
    exact ⟨hb, fun hs => absurd hs (by simp [hg]), fun hd => absurd hd (by simp [ht])⟩
  cases h with
  | waits keeps guest task =>
    exact ⟨keeps.bare, fun hg => task ▸ hc.hosting (guest ▸ hg), fun ht => guest ▸ hc.asked (task ▸ ht)⟩
  | goes calm goes =>
    cases goes with
    | on speaks session =>
      refine ⟨speaks.reception ▸ hc.bare, fun _ => by rw [Task.isHosting, session, Bool.or_true], ?_⟩
      intro hd
      exact absurd (hd.symm.trans (Task.not_isDeciding_of_isSession session)) (by simp)
    | off parts calm => exact hparted (parts.reception ▸ hc.bare) parts.guest calm
    | closes closes calm => exact hparted closes.bare closes.guest calm
  | asks alone queue puts bare rest guest task =>
    exact ⟨bare, fun _ => by rw [task]; rfl, fun _ => by rw [guest]; rfl⟩
  | accepts deciding asked answer yes keeps guest task =>
    exact ⟨keeps.bare, fun _ => by rw [task]; rfl, fun _ => by rw [guest]; rfl⟩
  | refuses deciding asked keeps guest calm => exact hparted keeps.bare guest calm

/-! ### Moves -/

/-- A turn that lets go of a guest that was asked about, with a denial or without one. -/
structure Dismisses (c : Client) (id : CallerId) (t : Turn) : Prop where
  reception : t.client.reception = c.reception
  guest : t.client.guest = none
  calm : t.client.task.isDeciding = false
  toCallers : t.toCallers = Effect.refusal id ∨ t.toCallers = [.close (.caller id)]

theorem Dismisses.keeps {id : CallerId} (h : c.Dismisses id t) (hb : c.reception.Bare) :
    c.reception.Keeps t.client.reception := by
  rw [h.reception]
  exact hb.keeps

theorem dismisses_denyCall {id : CallerId} (hg : c.guest = some id) (name : String) :
    c.Dismisses id ((Turn.of c).denyCall name) := by
  have hclient : ((Turn.of c).denyCall name).client =
      { c with direct := none, status := .idle, task := .idle } := by
    rw [Turn.denyCall, Turn.toIdle, Turn.client_setTask, Turn.client_setStatus,
      Turn.client_closeDirect, Turn.client_sendDirect]
    rfl
  refine ⟨by rw [hclient], by rw [hclient]; rfl, by rw [hclient]; rfl, ?_⟩
  have hprint : ((Turn.of c).printLine (Texts.deniedCall name)).toCallers = [] :=
    Turn.toCallers_emit_of_none _ rfl
  have hclose := Turn.toCallers_closeDirect
    (((Turn.of c).printLine (Texts.deniedCall name)).sendDirect (Negotiation.answer false))
  rw [Turn.toCallers_sendDirect, hprint, Turn.client_sendDirect, Turn.client_printLine,
    Turn.client_of, hg, List.nil_append] at hclose
  split at hclose
  · exact .inl hclose
  · exact .inr hclose

/-- The caller is gone before the user's yes. -/
theorem dismisses_callerLost {id : CallerId} (hg : c.guest = some id) (text : String) :
    c.Dismisses id ((Turn.of c).printLine text).closeDirect.toIdle := by
  have hclient : ((Turn.of c).printLine text).closeDirect.toIdle.client =
      { c with direct := none, status := .idle, task := .idle } := by
    rw [Turn.toIdle, Turn.client_setTask, Turn.client_setStatus, Turn.client_closeDirect]
    rfl
  refine ⟨by rw [hclient], by rw [hclient]; rfl, by rw [hclient]; rfl, .inr ?_⟩
  have hclose := Turn.toCallers_closeDirect ((Turn.of c).printLine text)
  have hprint : ((Turn.of c).printLine text).toCallers = [] := Turn.toCallers_emit_of_none _ rfl
  rw [hprint, Turn.client_printLine, Turn.client_of, hg] at hclose
  exact hclose

/-- An answer to the question about a call. -/
theorem receives_decideCall (h : c.Hosts) {name line : String} {typed : List String}
    (ht : c.task = .deciding name) (hl : c.typed = line :: typed) :
    c.Receives (.act (.move .keyboard)) ((Turn.of { c with typed }).decideCall name line) := by
  obtain ⟨id, hid⟩ := Option.isSome_iff_exists.mp (h.asked (by rw [ht]; rfl))
  have hanswer : c.answer? (.act (.move .keyboard)) = some line := by
    simp only [answer?, ht, hl, List.head?_cons]
  have hguest : (Turn.of { c with typed }).client.guest = some id := hid
  have hdeciding : c.task.isDeciding = true := by rw [ht]; rfl
  have hc : Hosts { c with typed } := ⟨h.bare, h.hosting, h.asked⟩
  unfold Turn.decideCall
  simp only []
  split
  · rename_i hyes
    have hread : Turn.readAnswer line = some true := if_pos hyes
    unfold Turn.acceptCall
    split
    · rename_i hsend
      refine .accepts ht hid hanswer hread ?_ ?_ rfl ?_ rfl
      · rw [Turn.client_setTask, (Turn.same_enterSession _).reception, Turn.client_sendDirect]
        exact h.bare.keeps
      · have henter := (Turn.speaks_enterSession
          ((Turn.of { c with typed }).sendDirect (Negotiation.answer true))).guest
        rw [Turn.client_sendDirect] at henter
        exact henter.trans hguest
      · have hsent := Turn.toCallers_sendDirect (Turn.of { c with typed }) (Negotiation.answer true)
        rw [if_pos hsend, hguest] at hsent
        exact (Turn.toCallers_enterSession _).trans hsent
    · have hlost := dismisses_callerLost hguest (Texts.callerLost name (.transport .brokenPipe))
      exact .refuses hdeciding hid (hlost.keeps h.bare) hlost.guest hlost.calm
        hlost.toCallers rfl
  · rename_i hyes
    split
    · have hdeny := dismisses_denyCall hguest name
      exact .refuses hdeciding hid (hdeny.keeps h.bare) hdeny.guest hdeny.calm
        hdeny.toCallers rfl
    · rename_i hno
      refine .waits h.bare.keeps rfl rfl (Turn.toCallers_emit_of_none _ rfl) ?_ rfl
      intro line' hline'
      obtain rfl := Option.some.inj (hanswer.symm.trans hline')
      exact (if_neg hyes).trans (if_neg hno)

theorem receives_onLine (h : c.Hosts) {line : String} {typed : List String}
    (hl : c.typed = line :: typed) :
    c.Receives (.act (.move .keyboard)) (onLine { c with typed } line) := by
  have htyped : (Turn.of c).Speaks (Turn.of { c with typed }) := .mute rfl rfl rfl
  have halone : c.task.isHosting = false → (Turn.of c).client.guest = none := h.alone
  unfold onLine
  simp only []
  split
  · rename_i ht
    exact .goes (by rw [ht]; rfl) (htyped.offerPort (halone (by rw [ht]; rfl)) _) rfl
  · rename_i ht
    exact .goes (by rw [ht]; rfl) (htyped.offerName (halone (by rw [ht]; rfl)) h.bare _) rfl
  · rename_i ht
    exact .goes (by rw [ht]; rfl) (htyped.obey (halone (by rw [ht]; rfl)) h.bare ht line) rfl
  · rename_i ht
    exact .goes (by rw [ht]; rfl) (htyped.obeyAnonymous (halone (by rw [ht]; rfl)) h.bare line) rfl
  · rename_i name ht
    exact receives_decideCall h ht hl
  · rename_i chat ht
    exact .goes (by rw [ht]; rfl) (htyped.deals (Turn.deals_typeInChat _ chat line)) rfl
  · exact .waits h.bare.keeps rfl rfl rfl (fun _ hline => absurd hline (by simp [answer?])) rfl

theorem receives_onInputEnd (h : c.Hosts) :
    c.Receives (.act (.move .keyboard)) c.onInputEnd := by
  have hrefl := Turn.Speaks.refl (Turn.of c)
  have halone : c.task.isHosting = false → (Turn.of c).client.guest = none := h.alone
  unfold onInputEnd
  simp only []
  split
  · rename_i ht
    exact .goes (by rw [ht]; rfl) (hrefl.finish (halone (by rw [ht]; rfl)) h.bare _) rfl
  · rename_i ht
    exact .goes (by rw [ht]; rfl)
      ((Turn.speaks_closeInbox _).finish (halone (by rw [ht]; rfl)) h.bare _) rfl
  · rename_i ht
    exact .goes (by rw [ht]; rfl)
      ((Turn.speaks_withdraw _).finish (halone (by rw [ht]; rfl)) h.bare _) rfl
  · rename_i ht
    exact .goes (by rw [ht]; rfl)
      ((Turn.speaks_printLine _ _).finish (halone (by rw [ht]; rfl)) h.bare _) rfl
  · rename_i name ht
    have hdeciding : c.task.isDeciding = true := by rw [ht]; rfl
    obtain ⟨id, hid⟩ := Option.isSome_iff_exists.mp (h.asked hdeciding)
    have hdeny := dismisses_denyCall hid name
    exact .refuses hdeciding hid (hdeny.keeps h.bare) hdeny.guest hdeny.calm hdeny.toCallers rfl
  · rename_i chat ht
    exact .goes (by rw [ht]; rfl) (Turn.deals_continueChat _ _) rfl
  · exact .waits h.bare.keeps rfl rfl rfl (fun _ hline => absurd hline (by simp [answer?])) rfl

theorem receives_moveCalls (h : c.Hosts) (hm : c.moveCalls = some t) :
    c.Receives (.act (.move .calls)) t := by
  unfold moveCalls at hm
  split at hm
  · rename_i call reception ht htake
    obtain rfl := Option.some.inj hm
    have halone := h.alone (by rw [ht]; rfl)
    unfold Reception.take? at htake
    split at htake
    · exact absurd htake (by simp)
    · rename_i first later hq
      obtain ⟨rfl, rfl⟩ := Prod.mk.inj (Option.some.inj htake)
      have hbare : Reception.Bare { c.reception with queue := later } :=
        ⟨h.bare.callers, h.bare.waiting⟩
      have hputs : c.puts? (.act (.move .calls)) = some first := by
        simp only [puts?, ht, hq, List.head?_cons]
      have hreception : ((Turn.of c).askUser first { c.reception with queue := later }).client.reception
          = { c.reception with queue := [] } := by
        rw [Turn.askUser, hbare.denyQueued_eq]
        simp only [Turn.client_setTask, Turn.client_print, Turn.client_setDirect,
          Turn.client_receive]
      refine .asks halone hq hputs ?_ (by rw [hreception]) rfl rfl ?_
      · rw [hreception]
        exact ⟨h.bare.callers, h.bare.waiting⟩
      · refine (Turn.toCallers_emit_of_none _ rfl).trans ((Turn.toCallers_receive _ _).trans ?_)
        rw [hbare.denyQueued_eq, List.flatMap_map]
        rfl
  · exact absurd hm (by simp)

theorem receives_moveServer (h : c.Hosts) (hm : c.moveServer = some t) :
    c.Receives (.act (.move .server)) t := by
  have hreply : c.task.isHosting = false → ∀ later outcome,
      (Turn.of c).Deals (c.onReply later outcome) := by
    intro ht later outcome
    unfold onReply
    split
    · exact (Turn.Speaks.refl _).concludeSignUp (h.alone ht) h.bare _ _ _
    · exact (Turn.Speaks.refl _).concludeReturn (h.alone ht) _ _
  have hunclear : ∀ line, c.answer? (.act (.move .server)) = some line →
      Turn.readAnswer line = none := fun _ hline => absurd hline (by simp [answer?])
  unfold moveServer at hm
  split at hm
  -- Signing up and signing in again wait for a reply in the same way.
  iterate 2
    · rename_i ht
      obtain ⟨inbox, -, hm⟩ := Option.bind_eq_some_iff.mp hm
      split at hm
      · obtain rfl := Option.some.inj hm
        exact .goes (by rw [ht]; rfl) (hreply (by rw [ht]; rfl) _ _) rfl
      · split at hm
        · exact absurd hm (by simp)
        · obtain rfl := Option.some.inj hm
          exact .waits h.bare.keeps rfl rfl rfl hunclear rfl
  · rename_i ht
    have halone := h.alone (by rw [ht]; rfl)
    split at hm
    · rename_i link _
      split at hm
      · rename_i update updates _
        obtain rfl := Option.some.inj hm
        have hlink : (Turn.of c).Speaks (Turn.of { c with link := some { link with updates } }) :=
          .mute rfl rfl rfl
        refine .goes (by rw [ht]; rfl)
          ((hlink.trans (Turn.speaks_handleUpdate _ update)).deals_of_alone halone ?_) rfl
        rw [(Turn.same_handleUpdate _ update).task, Turn.client_of, ht]
        rfl
      · split at hm
        · obtain rfl := Option.some.inj hm
          exact .goes (by rw [ht]; rfl) ((Turn.speaks_loseLink _).deals_of_alone halone
            (by rw [(Turn.same_loseLink _).task, Turn.client_of, ht]; rfl)) rfl
        · exact absurd hm (by simp)
    · exact absurd hm (by simp)
  · exact absurd hm (by simp)

/-- What the callee sends in the key exchange ends with twelve bytes of its own. -/
theorem length_sent_of_respond {kem : Kem} {pool later : Entropy} {ended : Bool} {incoming : Bytes}
    {answer : Handshake.Answer}
    (ha : Handshake.respond kem pool ended incoming = (.done answer, later)) :
    8 ≤ answer.sent.length := by
  unfold Handshake.respond at ha
  split at ha
  · exact absurd (Prod.mk.inj ha).1 (by simp)
  · exact absurd (Prod.mk.inj ha).1 (by simp)
  · split at ha
    · exact absurd (Prod.mk.inj ha).1 (by simp)
    · split at ha
      · exact absurd (Prod.mk.inj ha).1 (by simp)
      · obtain rfl := Progress.done.inj (Prod.mk.inj ha).1
        simp only [Frame.write, List.length_append, Bytes.length_bigEndian, Vector.length_toList]
        omega

theorem receives_moveDirect (h : c.Hosts) (hm : c.moveDirect = some t) :
    c.Receives (.act (.move .direct)) t := by
  unfold moveDirect at hm
  simp only [] at hm
  split at hm
  · exact absurd hm (by simp)
  · split at hm
    · rename_i ht
      have halone : (Turn.of c).client.guest = none := h.alone (by rw [ht]; rfl)
      split at hm
      · exact absurd hm (by simp)
      · obtain rfl := Option.some.inj hm
        exact .goes (by rw [ht]; rfl) ((Turn.Speaks.refl _).concludeAsking halone _ _) rfl
      · obtain rfl := Option.some.inj hm
        exact .goes (by rw [ht]; rfl) ((Turn.Speaks.refl _).concludeAsking halone _ _) rfl
    · rename_i ht
      split at hm
      · exact absurd hm (by simp)
      · obtain rfl := Option.some.inj hm
        exact .goes (by rw [ht]; rfl) (Turn.deals_failKeyExchange _ _) rfl
      · obtain rfl := Option.some.inj hm
        exact .goes (by rw [ht]; rfl) (Turn.deals_openSession _ _ _ _ _) rfl
    · rename_i ht
      split at hm
      · exact absurd hm (by simp)
      · rename_i pool _
        obtain rfl := Option.some.inj hm
        have hpool : (Turn.of c).Speaks (Turn.of { c with entropy := pool }) := .mute rfl rfl rfl
        exact .goes (by rw [ht]; rfl) (hpool.deals (Turn.deals_failKeyExchange _ _)) rfl
      · rename_i pool hrespond
        obtain rfl := Option.some.inj hm
        have hpool : (Turn.of c).Speaks (Turn.of { c with entropy := pool }) := .mute rfl rfl rfl
        exact .goes (by rw [ht]; rfl)
          (hpool.deals (Turn.deals_answerKey _ _ (length_sent_of_respond hrespond))) rfl
    · rename_i ht
      split at hm
      · exact absurd hm (by simp)
      · obtain rfl := Option.some.inj hm
        exact .goes (by rw [ht]; rfl) (((Turn.speaks_keepIncoming _ _).trans
          (Turn.speaks_printEvents _ _)).deals (Turn.deals_continueChat _ _)) rfl
    · exact absurd hm (by simp)

theorem receives_move (h : c.Hosts) {source : Source} (hm : c.move? source = some t) :
    c.Receives (.act (.move source)) t := by
  cases source with
  | own =>
    simp only [move?, moveOwn] at hm
    split at hm
    · rename_i ht
      obtain rfl := Option.some.inj hm
      exact .goes (by rw [ht]; rfl) (((Turn.speaks_setStatus _ _).trans
        (Turn.speaks_printLine _ _)).task (h.alone (by rw [ht]; rfl)) rfl) rfl
    · exact absurd hm (by simp)
  | keyboard =>
    simp only [move?, moveKeyboard] at hm
    split at hm
    · split at hm
      · rename_i line typed hl
        obtain rfl := Option.some.inj hm
        exact receives_onLine h hl
      · split at hm
        · obtain rfl := Option.some.inj hm
          exact receives_onInputEnd h
        · exact absurd hm (by simp)
    · exact absurd hm (by simp)
  | calls => exact receives_moveCalls h hm
  | server => exact receives_moveServer h hm
  | direct => exact receives_moveDirect h hm
  | reception =>
    simp only [move?, moveReception] at hm
    split at hm
    · rename_i ht
      split at hm
      · exact absurd hm (by simp)
      · obtain rfl := Option.some.inj hm
        have hopen := h.bare.openUp_eq c.status.isBusy
        refine .waits ?_ ?_ ?_ ?_ (fun _ hline => absurd hline (by simp [answer?])) rfl
        · rw [Turn.openReception, Turn.client_receive, Turn.client_of, hopen]
          exact ⟨⟨h.bare.callers, h.bare.waiting⟩, rfl⟩
        · rw [Turn.openReception, Turn.client_receive]
          rfl
        · rw [Turn.openReception, Turn.client_receive]
          rfl
        · rw [Turn.openReception, Turn.toCallers_receive, Turn.client_of, hopen]
          rfl
    · exact absurd hm (by simp)

/-! ### Events -/

/-- What comes on a direct connection waits there, or in the queue. -/
theorem receives_onDirect (h : c.Hosts) (party : Party) (bytes : Bytes) (ended : Bool)
    (ha : c.answer? x = none) (hp : c.puts? x = none) :
    c.Receives x (c.onDirect party bytes ended) := by
  have hunclear : ∀ line, c.answer? x = some line → Turn.readAnswer line = none :=
    fun _ hline => absurd (ha.symm.trans hline) (by simp)
  have hreception : c.Receives x (c.onReception party bytes ended) := by
    unfold onReception
    split
    · rename_i id
      obtain ⟨hkeeps, hnone⟩ := h.bare.receive_keeps c.status.isBusy id bytes ended
      refine .waits ?_ ?_ ?_ ?_ hunclear hp
      · rw [Turn.client_receive]
        exact hkeeps
      · rw [Turn.client_receive]
        rfl
      · rw [Turn.client_receive]
        rfl
      · rw [Turn.toCallers_receive, hnone]
        rfl
    · exact .waits h.bare.keeps rfl rfl rfl hunclear hp
  unfold onDirect
  split
  · rename_i d hd
    split
    · refine .waits h.bare.keeps ?_ rfl rfl hunclear hp
      rw [Turn.client_setDirect, guest, guest, Turn.client_of, hd]
      rfl
    · exact hreception
  · exact hreception

theorem guest_onBroken (c : Client) (party : Party) : (c.onBroken party).guest = c.guest := by
  unfold onBroken guest
  cases c.direct with
  | none => rfl
  | some d =>
    simp only [Option.map_some, Option.bind_some]
    by_cases hp : d.party = party
    · rw [if_pos hp]
    · rw [if_neg hp]

theorem receives_event (h : c.Hosts) {e : Event}
    (hc : ∀ id address, e ≠ .callerConnected id address) :
    c.Receives (.act (.event e)) (c.onEvent e) := by
  have hrefl := Turn.Speaks.refl (Turn.of c)
  have halone : c.task.isHosting = false → (Turn.of c).client.guest = none := h.alone
  have hunclear : ∀ line, c.answer? (.act (.event e)) = some line → Turn.readAnswer line = none :=
    fun _ hline => absurd hline (by simp [answer?])
  have hstill : c.Receives (.act (.event e)) (Turn.of c) :=
    .waits h.bare.keeps rfl rfl rfl hunclear rfl
  cases e with
  | typed line => exact .waits h.bare.keeps rfl rfl rfl hunclear rfl
  | inputEnded => exact .waits h.bare.keeps rfl rfl rfl hunclear rfl
  | serverSent bytes => exact .waits h.bare.keeps rfl rfl rfl hunclear rfl
  | serverEnded => exact .waits h.bare.keeps rfl rfl rfl hunclear rfl
  | serverBroken => exact .waits h.bare.keeps rfl rfl rfl hunclear rfl
  | broken party => exact .waits h.bare.keeps (guest_onBroken c party) rfl rfl hunclear rfl
  | sent party bytes => exact receives_onDirect h party bytes false rfl rfl
  | ended party => exact receives_onDirect h party [] true rfl rfl
  | callerConnected id address => exact absurd rfl (hc id address)
  | listening port =>
    unfold onEvent
    simp only []
    split
    · rename_i ht
      have hport : (Turn.of c).Speaks (Turn.of { c with port }) := .mute rfl rfl rfl
      exact .goes (by rw [ht]; rfl)
        ((hport.trans (Turn.speaks_emit _ rfl)).task (halone (by rw [ht]; rfl)) rfl) rfl
    · exact hstill
  | cannotListen cause =>
    unfold onEvent
    simp only []
    split
    · rename_i ht
      exact .goes (by rw [ht]; rfl) (hrefl.finish (halone (by rw [ht]; rfl)) h.bare _) rfl
    · exact hstill
  | dialed =>
    unfold onEvent
    simp only []
    split
    · rename_i ht
      exact .goes (by rw [ht]; rfl) (hrefl.startAsking (halone (by rw [ht]; rfl)) _) rfl
    · exact hstill
  | dialFailed cause =>
    unfold onEvent
    simp only []
    split
    · rename_i ht
      exact .goes (by rw [ht]; rfl) (hrefl.failDial (halone (by rw [ht]; rfl)) _ cause) rfl
    · exact hstill
  | serverConnected =>
    have hinbox : (Turn.of c).Speaks (Turn.of { c with inbox := some .empty, serverWritable := true }) :=
      .mute rfl rfl rfl
    have hconnected := hinbox.trans (Turn.speaks_setStatus _ .connected)
    unfold onEvent onServerConnected
    simp only []
    split
    · rename_i ht
      have halone := halone (by rw [ht]; rfl)
      split
      · exact .goes (by rw [ht]; rfl) (hconnected.offerName halone h.bare _) rfl
      · exact .goes (by rw [ht]; rfl) (hconnected.askName halone) rfl
    · rename_i ht
      have halone := halone (by rw [ht]; rfl)
      refine .goes (by rw [ht]; rfl) (hconnected.sendRegistration halone _ ?_ rfl) rfl
      exact (hconnected.trans ((Turn.speaks_closeInbox _).trans
        (Turn.speaks_printLine _ _))).toIdle halone
    · exact hstill
  | serverUnreachable cause =>
    unfold onEvent onServerUnreachable
    simp only []
    split
    · rename_i ht
      exact .goes (by rw [ht]; rfl) (hrefl.finish (halone (by rw [ht]; rfl)) h.bare _) rfl
    · rename_i ht
      exact .goes (by rw [ht]; rfl)
        ((hrefl.trans (Turn.speaks_printLine _ _)).toIdle (halone (by rw [ht]; rfl))) rfl
    · exact hstill

theorem receives_directFailed (h : c.Hosts) (cause : TransportError) :
    c.Receives (.directFailed cause) (c.onDirectFailed cause) := by
  unfold onDirectFailed
  simp only []
  split
  · rename_i ht
    exact .goes (by rw [ht]; rfl)
      ((Turn.Speaks.refl _).concludeAsking (h.alone (by rw [ht]; rfl)) _ _) rfl
  · rename_i ht
    exact .goes (by rw [ht]; rfl) (Turn.deals_failKeyExchange _ _) rfl
  · rename_i ht
    exact .goes (by rw [ht]; rfl) (Turn.deals_failKeyExchange _ _) rfl
  · rename_i ht
    exact .goes (by rw [ht]; rfl)
      ((Turn.speaks_printEvents _ _).deals (Turn.deals_continueChat _ _)) rfl
  · exact .waits h.bare.keeps rfl rfl rfl (fun _ hline => absurd hline (by simp [answer?])) rfl

/-- A source that has nothing gives no answer and no request. -/
theorem asked_of_stuck {source : Source} (hm : c.move? source = none) :
    c.answer? (.act (.move source)) = none ∧ c.puts? (.act (.move source)) = none := by
  cases source with
  | own => exact ⟨rfl, rfl⟩
  | server => exact ⟨rfl, rfl⟩
  | direct => exact ⟨rfl, rfl⟩
  | reception => exact ⟨rfl, rfl⟩
  | keyboard =>
    refine ⟨?_, rfl⟩
    simp only [answer?]
    split
    · rename_i name ht
      cases hl : c.typed with
      | nil => rfl
      | cons line typed => exact absurd hm (by simp [move?, moveKeyboard, awaitsLine, ht, hl])
    · rfl
  | calls =>
    refine ⟨rfl, ?_⟩
    simp only [puts?]
    split
    · rename_i ht
      cases hq : c.reception.queue with
      | nil => rfl
      | cons call later => exact absurd hm (by simp [move?, moveCalls, Reception.take?, ht, hq])
    · rfl

/-- What an incident means to callers that is not a connection to the client. -/
theorem receives (h : c.Hosts) (hx : ∀ id address, x ≠ .act (.event (.callerConnected id address))) :
    c.Receives x (c.meet x) := by
  cases x with
  | serverFailed =>
    exact .waits h.bare.keeps rfl rfl rfl (fun _ hline => absurd hline (by simp [answer?])) rfl
  | directFailed cause => exact receives_directFailed h cause
  | act a =>
    cases a with
    | event e =>
      exact receives_event h fun id address he => hx id address (by rw [he])
    | move source =>
      cases hm : c.move? source with
      | some t =>
        have hturn : c.meet (.act (.move source)) = t := by
          rw [meet, act, hm]
          rfl
        exact hturn ▸ receives_move h hm
      | none =>
        have hturn : c.meet (.act (.move source)) = Turn.of c := by
          rw [meet, act, hm]
          rfl
        rw [hturn]
        obtain ⟨hanswer, hputs⟩ := asked_of_stuck hm
        exact .waits h.bare.keeps rfl rfl rfl
          (fun _ hline => absurd (hanswer.symm.trans hline) (by simp)) hputs

end Client

end PeerChat
