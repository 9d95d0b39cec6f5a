import PeerChat.Proofs.Client.Deed
import PeerChat.Proofs.Client.Target

/-!
# Every move is a deed

Whatever a client does next, from whichever source, is one deed (`Client.does_of_move`), and so is
what it does on a local event (`Client.does_of_event`).
-/

namespace PeerChat

variable {c : Client} {out : List Effect} {t : Turn}

/-! ## Leaving the list -/

namespace Client

def unlinked (c : Client) : Client := { c with link := none }

theorem stand_unlinked (hp : c.task.isPlain = true) : c.unlinked.stand = .apart :=
  stand_of_isPlain hp

theorem Consistent.unlinked (hc : c.Consistent) (hp : c.task.isPlain = true) :
    c.unlinked.Consistent := by
  refine ⟨hc.peers, fun l hl => absurd hl (by simp [Client.unlinked]), ?_⟩
  have hgoes : c.core.GoesBy → c.unlinked.core.GoesBy :=
    fun h => ⟨h.1, fun l hl => absurd hl (by simp [Client.unlinked, core])⟩
  have hfits := hc.fits
  show c.unlinked.core.Fits c.status c.task
  generalize c.task = task at hfits hp
  cases task with
  | choosingPort => exact ⟨hfits.1, hfits.2.1, rfl⟩
  | binding => exact ⟨hfits.1, hfits.2.1, rfl⟩
  | reaching => exact absurd hp (by simp [Task.isPlain])
  | choosingName => exact absurd hp (by simp [Task.isPlain])
  | signingUp name => exact absurd hp (by simp [Task.isPlain])
  | registered => exact ⟨hfits.1, hfits.2.1, hgoes hfits.2.2⟩
  | idle => exact ⟨hfits.1, hfits.2.1, hfits.2.2.1, hgoes hfits.2.2.2⟩
  | choosingEndpoint => exact ⟨hfits.1, hfits.2.1, rfl⟩
  | dialing target =>
    exact ⟨hfits.1, fun _ => rfl, fun ha => ⟨(hfits.2.2 ha).1, hgoes (hfits.2.2 ha).2⟩⟩
  | asking target => exact ⟨hfits.1, fun _ => rfl, fun ha => hgoes (hfits.2.2 ha)⟩
  | deciding name => exact ⟨hfits.1, hfits.2.1, hgoes hfits.2.2⟩
  | concluding remote key => exact ⟨hfits.1, rfl, hfits.2.2⟩
  | responding remote => exact ⟨hfits.1, rfl, hfits.2.2⟩
  | chatting chat => exact ⟨hfits.1, rfl, hfits.2.2⟩
  | returning => exact absurd hp (by simp [Task.isPlain])
  | rejoining => exact absurd hp (by simp [Task.isPlain])
  | «over» result => exact ⟨hfits.1, rfl⟩

end Client

/-- What is done by a client that has just given its link up, as a deed of the client before. -/
theorem Does.of_unlinked {l : Link} (hp : c.task.isPlain = true) (hl : c.link = some l)
    (h : Does c.unlinked (out ++ (c.face.sends [.remove l.name] ++ [.closeServer])) t) :
    Does c out t := by
  have hlinked : c.stand = .linked l := by rw [Client.stand_of_isPlain hp, hl]; rfl
  have hapart : c.unlinked.face.stand = .apart := Client.stand_unlinked hp
  obtain ⟨done, hout, hdeed⟩ := h.deed
  rw [List.append_assoc, List.append_assoc] at hout
  refine ⟨h.consistent, h.writable, _, hout, ?_⟩
  cases hdeed with
  | still stand name peers =>
    rw [List.append_nil]
    exact .withdraws hlinked (stand.trans hapart) name
  | connects before after name => exact .returns hlinked after name
  | offers before writable valid named after => exact absurd (hapart.symm.trans before) (by simp)
  | leaves before after => exact absurd (hapart.symm.trans before) (by simp)
  | waits before reply after peers => exact absurd (hapart.symm.trans before) (by simp)
  | admitted before reply after peers => exact absurd (hapart.symm.trans before) (by simp)
  | refused before reply after => exact absurd (hapart.symm.trans before) (by simp)
  | rejected before reply failed after => exact absurd (hapart.symm.trans before) (by simp)
  | asks before writable after peers name => exact absurd (hapart.symm.trans before) (by simp)
  | attends before next able after peers name => exact absurd (hapart.symm.trans before) (by simp)
  | reports before valid after peers name => exact absurd (hapart.symm.trans before) (by simp)
  | withdraws before after name => exact absurd (hapart.symm.trans before) (by simp)
  | returns before after name => exact absurd (hapart.symm.trans before) (by simp)
  | loses before finished after => exact absurd (hapart.symm.trans before) (by simp)

/-- Once a link is given up, the client goes on as one that had none. -/
theorem Turn.Keeps.withdraw (hk : t.Keeps c out) (hp : c.task.isPlain = true) :
    ∃ out', t.withdraw.Keeps c.unlinked out' ∧ ∀ t', Does c.unlinked out' t' → Does c out t' := by
  cases hl : c.link with
  | none =>
    have hw : t.withdraw = t := by rw [Turn.withdraw, hk.link_eq, hl]
    have hu : c.unlinked = c := by rw [Client.unlinked, ← hl]
    rw [hw, hu]
    exact ⟨out, hk, fun t' h => h⟩
  | some l =>
    have hw : t.withdraw =
        ((t.sendCommand (.remove l.name)).emit .closeServer).setLink none := by
      rw [Turn.withdraw, hk.link_eq, hl]
    have hsent := hk.sendCommand (.remove l.name)
    refine ⟨_, ⟨?_, ?_⟩, fun t' h => h.of_unlinked hp hl⟩
    · have hcore : t.withdraw.client.core = { (t.sendCommand (.remove l.name)).client.core with
          link := none } := by rw [hw]; rfl
      rw [hcore, hsent.core]
      rfl
    · rw [hw, toServer_setLink, toServer_closeServer, hsent.toServer, List.append_assoc]

/-! ## Calls -/

/-- What a client has that may enter a session. -/
structure Client.Courting (c : Client) : Prop where
  isPlain : c.task.isPlain = true
  inbox : c.inbox = none
  unlinked : c.settings.anonymous = true → c.link = none
  goesBy : c.settings.anonymous = false → c.core.GoesBy

namespace Client.Courting

variable (h : c.Courting)
include h

theorem engaged (hl : c.link = none) : c.Engaged :=
  ⟨h.isPlain, h.inbox, hl, fun ha => (h.goesBy ha).1⟩

theorem engaged_unlinked : c.unlinked.Engaged :=
  ⟨h.isPlain, h.inbox, rfl, fun ha => (h.goesBy ha).1⟩

end Client.Courting

/-- Entering a session leaves a client that is engaged. -/
theorem Turn.Keeps.enterSession (hk : t.Keeps c out) (hc : c.Consistent) (h : c.Courting) :
    ∃ c' out', t.enterSession.Keeps c' out' ∧ c'.Consistent ∧ c'.Engaged ∧
      ∀ t', Does c' out' t' → Does c out t' := by
  unfold Turn.enterSession
  split
  · rename_i ha
    rw [hk.settings_eq] at ha
    exact ⟨c, out, hk, hc, h.engaged (h.unlinked ha), fun t' h => h⟩
  · obtain ⟨out', hw, hdoes⟩ := hk.withdraw h.isPlain
    exact ⟨_, out', hw.setStatus _, hc.unlinked h.isPlain, h.engaged_unlinked, hdoes⟩

theorem does_offerKey (hk : t.Keeps c out) (hc : c.Consistent) (h : c.Engaged) (remote : String) :
    Does c out (t.offerKey remote) := by
  unfold Turn.offerKey
  split
  · exact does_failKeyExchange (hk.update rfl) hc h remote
  · simp only []
    split
    · exact (((hk.update rfl).sendDirect _).setTask _).does_of_isPlain hc h.isPlain rfl
        ⟨h.inbox, h.link, h.named⟩
    · exact does_failKeyExchange (hk.update rfl) hc h remote

/-- What a client goes back to when a call comes to nothing. -/
theorem does_giveUpCall (hk : t.Keeps c out) (hc : c.Consistent) (h : c.Courting) :
    Does c out t.giveUpCall := by
  have hclose := hk.closeDirect
  unfold Turn.giveUpCall
  simp only []
  split
  · rename_i ha
    rw [hclose.settings_eq] at ha
    exact hclose.askEndpoint.does_of_isPlain hc h.isPlain rfl ⟨ha, h.inbox, h.unlinked ha⟩
  · rename_i ha
    rw [hclose.settings_eq, Bool.not_eq_true] at ha
    exact hclose.toIdle.does_of_isPlain hc h.isPlain rfl ⟨ha, rfl, h.inbox, h.goesBy ha⟩

theorem does_concludeAsking (hk : t.Keeps c out) (hc : c.Consistent) (h : c.Courting)
    (target : String) (verdict : Except Failure Negotiation.Verdict) :
    Does c out (t.concludeAsking target verdict) := by
  unfold Turn.concludeAsking
  split
  · obtain ⟨c', out', hw, hc', he, hdoes⟩ :=
      ((hk.printLine (Texts.accepted target)).keepIncoming _).enterSession hc h
    exact hdoes _ (does_offerKey hw hc' he target)
  · exact does_giveUpCall (hk.printLine _) hc h
  · exact does_giveUpCall (hk.printLine _) hc h

/-- A call that is refused or lost leads back to the main loop. -/
theorem does_toIdle (hk : t.Keeps c out) (hc : c.Consistent) (h : c.Courting)
    (ha : c.settings.anonymous = false) : Does c out t.toIdle :=
  hk.toIdle.does_of_isPlain hc h.isPlain rfl ⟨ha, rfl, h.inbox, h.goesBy ha⟩

theorem does_denyCall (hk : t.Keeps c out) (hc : c.Consistent) (h : c.Courting)
    (ha : c.settings.anonymous = false) (name : String) : Does c out (t.denyCall name) :=
  does_toIdle ((hk.printLine _).sendDirect _).closeDirect hc h ha

theorem does_acceptCall (hk : t.Keeps c out) (hc : c.Consistent) (h : c.Courting)
    (ha : c.settings.anonymous = false) (name : String) : Does c out (t.acceptCall name) := by
  unfold Turn.acceptCall
  split
  · obtain ⟨c', out', hw, hc', he, hdoes⟩ := (hk.sendDirect _).enterSession hc h
    exact hdoes _ ((hw.setTask _).does_of_isPlain hc' he.isPlain rfl ⟨he.inbox, he.link, he.named⟩)
  · exact does_toIdle (hk.printLine _).closeDirect hc h ha

theorem does_decideCall (hk : t.Keeps c out) (hc : c.Consistent) (h : c.Courting)
    (ha : c.settings.anonymous = false) (ht : t.client.task = c.task)
    (hs : t.client.status = c.status) (name line : String) :
    Does c out (t.decideCall name line) := by
  unfold Turn.decideCall
  simp only []
  split
  · exact does_acceptCall hk hc h ha name
  · split
    · exact does_denyCall hk hc h ha name
    · refine (hk.print _).does_of_isPlain hc h.isPlain ?_ ?_
      · exact (congrArg Task.isPlain ht).trans h.isPlain
      · show c.core.Fits t.client.status t.client.task
        rw [ht, hs]
        exact hc.fits

theorem does_startAsking (hk : t.Keeps c out) (hc : c.Consistent) {target : String}
    (h : c.task = .dialing target) : Does c out (t.startAsking target) := by
  have hf := hc.fits
  rw [h] at hf
  unfold Turn.startAsking
  simp only []
  exact (((hk.setDirect _).sendDirect _).setTask _).does_of_isPlain hc (by rw [h]; rfl) rfl
    ⟨hf.1, hf.2.1, fun ha => (hf.2.2 ha).2⟩

/-! ## The list of peers -/

/-- A peer that cannot be reached is struck off the list, at the server only by a linked client. -/
theorem does_failDial (hk : t.Keeps c out) (hc : c.Consistent) {target : String}
    (h : c.task = .dialing target) (cause : TransportError) :
    Does c out (t.failDial target cause) := by
  have hp : c.task.isPlain = true := by rw [h]; rfl
  have hf := hc.fits
  rw [h] at hf
  unfold Turn.failDial
  split
  · rename_i ha
    rw [hk.settings_eq] at ha
    exact (hk.printLine _).askEndpoint.does_of_isPlain hc hp rfl ⟨ha, hf.1, hf.2.1 ha⟩
  · rename_i ha
    rw [hk.settings_eq, Bool.not_eq_true] at ha
    have hc' : Client.Consistent { c with peers := c.peers.filter fun p => p.name ≠ target } := by
      refine ⟨fun p hm => hc.peers p (List.mem_of_mem_filter hm), hc.links, ?_⟩
      show Core.Fits _ c.status c.task
      rw [h]
      exact hf
    have hk' : ((t.printLine (Texts.unreachable target)).update fun c =>
        { c with peers := c.peers.filter fun p => p.name ≠ target }).Keeps
        { c with peers := c.peers.filter fun p => p.name ≠ target } out := by
      refine ⟨?_, (hk.printLine _).toServer⟩
      have hcore := hk.core
      simp only [Client.core, Core.mk.injEq] at hcore
      obtain ⟨h1, h2, h3, h4, h5, h6, h7⟩ := hcore
      simp only [Client.core, Turn.client_update, Turn.client_printLine, h1, h2, h3, h4, h5, h6, h7]
    have hidle : Core.Fits { c with peers := c.peers.filter fun p => p.name ≠ target }.core .idle
        .idle := ⟨ha, rfl, hf.1, (hf.2.2 ha).2⟩
    unfold Turn.reportGone
    cases hl : c.link with
    | some l =>
      have hstand : c.stand = .linked l := by rw [Client.stand_of_isPlain hp, hl]; rfl
      have hlast := ((hk'.sendCommand (.reportGone target)).sendCommand .listPeers).toIdle
      rw [if_pos (by rw [hk'.link_eq, hl]; rfl)]
      refine ⟨hlast.consistent hc' hidle, hlast.writable_eq, c.face.sends [.reportGone target, .listPeers],
        ?_, ?_⟩
      · rw [hlast.toServer, List.append_assoc, ← Face.sends_append]
        rfl
      refine .reports hstand (hf.2.2 ha).1 ?_ hlast.peers_eq hlast.name_eq
      rw [Client.face, hlast.stand_eq rfl, hl]
      rfl
    | none =>
      have hstand : c.stand = .apart := by rw [Client.stand_of_isPlain hp, hl]; rfl
      have hlast := hk'.toIdle
      rw [if_neg (by rw [hk'.link_eq, hl]; simp)]
      refine ⟨hlast.consistent hc' hidle, hlast.writable_eq, [],
        by rw [hlast.toServer, List.append_nil], ?_⟩
      refine .still ?_ hlast.name_eq (.inl hstand)
      rw [Client.face, hlast.stand_eq rfl, hl]
      exact hstand.symm

/-! ## The main loop -/

/-- A client in its main loop. -/
structure Client.Loops (c : Client) : Prop where
  task : c.task = .idle
  named : c.settings.anonymous = false
  status : c.status = .idle
  inbox : c.inbox = none
  goesBy : c.core.GoesBy

namespace Client

theorem Consistent.loops (hc : c.Consistent) (h : c.task = .idle) : c.Loops := by
  have hf := hc.fits
  rw [h] at hf
  exact ⟨h, hf.1, hf.2.1, hf.2.2.1, hf.2.2.2⟩

namespace Loops

variable (h : c.Loops)
include h

theorem isPlain : c.task.isPlain = true := by rw [h.task]; rfl

theorem courting : c.Courting :=
  ⟨h.isPlain, h.inbox, fun ha => absurd (h.named.symm.trans ha) (by simp), fun _ => h.goesBy⟩

theorem fits : c.core.Fits .idle .idle := ⟨h.named, rfl, h.inbox, h.goesBy⟩

theorem linked {l : Link} (hl : c.link = some l) : c.stand = .linked l := by
  rw [stand_of_isPlain h.isPlain, hl]
  rfl

end Loops

end Client

/-- A turn of the main loop that changes nothing that matters. -/
theorem Turn.Keeps.loops (hk : t.Keeps c out) (hc : c.Consistent) (h : c.Loops)
    (ht : t.client.task = .idle) (hs : t.client.status = .idle) : Does c out t :=
  hk.does_of_isPlain hc h.isPlain (by rw [ht]; rfl) (by rw [ht, hs]; exact h.fits)

theorem does_dial (hk : t.Keeps c out) (hc : c.Consistent) (h : c.Loops) (ht : t.client.task = .idle)
    (hs : t.client.status = .idle) (target : String) : Does c out (t.dial target) := by
  unfold Turn.dial
  split
  · exact (hk.printLine _).loops hc h ht hs
  · exact (hk.printLine _).loops hc h ht hs
  · rename_i endpoint hr
    have hname : isName target = true := by
      obtain ⟨-, p, rfl, hfirst, -⟩ := resolveTarget_eq_ok_iff.mp hr
      exact hc.peers p (hk.peers_eq ▸ hfirst.mem)
    exact (((hk.setStatus _).dial _).setTask _).does_of_isPlain hc h.isPlain rfl
      ⟨h.inbox, h.courting.unlinked, fun _ => ⟨hname, h.goesBy⟩⟩

/-- Asking for the list, in the main loop. -/
theorem Turn.Keeps.refreshPeers {l : Link} (hk : t.Keeps c out) (hl : c.link = some l)
    (hw : c.serverWritable = true) :
    t.refreshPeers.Keeps c (out ++ [.sendServer Command.listPeers.bytes]) := by
  unfold Turn.refreshPeers
  rw [if_pos (by rw [hk.link_eq, hl]; rfl), if_pos (hk.writable_eq.trans hw)]
  have hsent := hk.sendCommand .listPeers
  rwa [Face.sends_of_writable (f := c.face) hw] at hsent

theorem Turn.refreshPeers_of_broken {l : Link} (hl : t.client.link = some l)
    (hw : t.client.serverWritable = false) : t.refreshPeers = t.loseLink := by
  unfold refreshPeers
  rw [if_pos (by rw [hl]; rfl), if_neg (by simp [hw])]

theorem Turn.Keeps.loseLink (hk : t.Keeps c out) :
    t.loseLink.Keeps c.unlinked (out ++ [.closeServer]) := by
  refine ⟨?_, ?_⟩
  · have hcore : t.loseLink.client.core = { t.client.core with link := none } := rfl
    rw [hcore, hk.core]
    rfl
  · rw [Turn.loseLink, toServer_setLink, toServer_closeServer, toServer_printLine, hk.toServer]

/-- A link is given up that has nothing more to tell, or that takes nothing any more. -/
theorem does_loseLink {l : Link} (hk : t.Keeps c.unlinked (out ++ [.closeServer]))
    (hc : c.Consistent) (h : c.Loops) (hl : c.link = some l) (ht : t.client.task = .idle)
    (hs : t.client.status = .idle) (finished : l.isOver = true ∨ c.serverWritable = false) :
    Does c out t := by
  have hu := hc.unlinked h.isPlain
  refine ⟨hk.consistent hu ?_, hk.writable_eq, [.closeServer], hk.toServer,
    .loses (h.linked hl) finished ?_⟩
  · rw [ht, hs]
    exact (hu.loops h.task).fits
  · rw [Client.face, hk.stand_eq (by rw [ht]; rfl)]
    rfl

theorem does_refreshPeers (hk : t.Keeps c out) (hc : c.Consistent) (h : c.Loops)
    (ht : t.client.task = .idle) (hs : t.client.status = .idle) : Does c out t.refreshPeers := by
  cases hl : c.link with
  | some l =>
    rcases Bool.eq_false_or_eq_true c.serverWritable with hw | hw
    · have hlast := hk.refreshPeers hl hw
      have hclient := Turn.client_refreshPeers (hk.link_eq.trans hl) (hk.writable_eq.trans hw)
      refine ⟨hlast.consistent hc (by rw [hclient, ht, hs]; exact h.fits), hlast.writable_eq, _,
        hlast.toServer, ?_⟩
      refine .asks (h.linked hl) hw ?_ hlast.peers_eq hlast.name_eq
      rw [Client.face, hlast.stand_eq (by rw [hclient, ht]; rfl), hl]
      rfl
    · rw [Turn.refreshPeers_of_broken (hk.link_eq.trans hl) (hk.writable_eq.trans hw)]
      exact does_loseLink hk.loseLink hc h hl ht hs (.inr hw)
  | none =>
    unfold Turn.refreshPeers
    rw [if_neg (by rw [hk.link_eq, hl]; simp)]
    exact ((hk.printPeers _).printLine _).loops hc h
      (by rw [Turn.client_printLine, Turn.client_printPeers]; exact ht)
      (by rw [Turn.client_printLine, Turn.client_printPeers]; exact hs)

/-- Giving the link up and ending. -/
theorem does_withdraw_finish (hk : t.Keeps c out) (hc : c.Consistent) (h : c.Loops)
    (result : Except ClientError Unit) : Does c out (t.withdraw.finish result) := by
  obtain ⟨out', hw, hdoes⟩ := hk.withdraw h.isPlain
  exact hdoes _ ((hw.finish _).does_of_isPlain (hc.unlinked h.isPlain) h.isPlain rfl ⟨h.inbox, rfl⟩)

theorem does_obey (hk : t.Keeps c out) (hc : c.Consistent) (h : c.Loops) (ht : t.client.task = .idle)
    (hs : t.client.status = .idle) (line : String) : Does c out (t.obey line) := by
  unfold Turn.obey
  split
  · exact hk.loops hc h ht hs
  · obtain ⟨out', hw, hdoes⟩ := hk.withdraw h.isPlain
    exact hdoes _ (((hw.printLine _).finish _).does_of_isPlain (hc.unlinked h.isPlain) h.isPlain rfl
      ⟨h.inbox, rfl⟩)
  · exact does_refreshPeers hk hc h ht hs
  · exact (hk.printLine _).loops hc h ht hs
  · exact does_dial hk hc h ht hs _

/-! ## Attending to an update -/

section Attending

variable {l : Link} {update : Update} {updates : List Update}

theorem Client.Loops.attended (h : c.Loops) (hc : c.Consistent) (hl : c.link = some l)
    (hu : l.updates = update :: updates) :
    Client.Consistent { c with link := some { l with updates } } := by
  have hproper := hc.links l hl
  refine ⟨hc.peers, fun m hm => Option.some.inj hm ▸ ?_, ?_⟩
  · exact ⟨hproper.listener, fun peers hm => hproper.updates peers (hu ▸ List.mem_cons_of_mem _ hm)⟩
  · show Core.Fits _ c.status c.task
    rw [h.task, h.status]
    exact ⟨h.named, rfl, h.inbox, h.goesBy.1, fun m hm => by
      obtain rfl := Option.some.inj hm
      exact h.goesBy.2 l hl⟩

/-- A client shows an update that tells of no newcomer and holds no list. -/
theorem does_printUpdate (hc : c.Consistent) (h : c.Loops) (hl : c.link = some l)
    (hu : l.updates = update :: updates) (text : String) (ha : alerts [update] = [])
    (hp : latest c.peers [update] = c.peers) :
    Does c [] ((Turn.of { c with link := some { l with updates } }).printLine text) := by
  have hc' := h.attended hc hl hu
  have hk := Turn.Keeps.of { c with link := some { l with updates } }
  refine ⟨(hk.printLine text).consistent hc' hc'.fits, rfl, [], rfl, ?_⟩
  have hdeed : Deed c.face
      ((Turn.of { c with link := some { l with updates } }).printLine text).client.face
      ((alerts [update]).map fun _ => .sendServer Command.listPeers.bytes) :=
    .attends (h.linked hl) hu (.inl ha) ((hc'.loops h.task).linked rfl) hp.symm rfl
  rw [ha] at hdeed
  exact hdeed

/-- A new list takes the place of the one that the client had. -/
theorem does_showList {peers : List Peer} (hc : c.Consistent) (h : c.Loops) (hl : c.link = some l)
    (hu : l.updates = .peerList peers :: updates) :
    Does c [] ((Turn.of { c with link := some { l with updates } }).handleUpdate (.peerList peers)) := by
  have hpeers : ProperNames peers := (hc.links l hl).updates peers (hu ▸ List.mem_cons_self ..)
  have hc' := h.attended hc hl hu
  have hc'' : Client.Consistent { c with link := some { l with updates }, peers } :=
    ⟨hpeers, hc'.links, hc'.fits⟩
  have hlast : (((Turn.of { c with link := some { l with updates } }).update fun c =>
      { c with peers }).printPeers peers).Keeps
      { c with link := some { l with updates }, peers } [] :=
    Turn.Keeps.printPeers (t := (Turn.of { c with link := some { l with updates } }).update fun c =>
      { c with peers }) (.of { c with link := some { l with updates }, peers }) peers
  have hclient : (((Turn.of { c with link := some { l with updates } }).update fun c =>
      { c with peers }).printPeers peers).client =
      { c with link := some { l with updates }, peers } := Turn.client_printPeers _ peers
  refine ⟨?_, ?_, [], hlast.toServer, .attends (h.linked hl) hu (.inl rfl) ?_ ?_ ?_⟩
  · rw [Turn.handleUpdate, hclient]
    exact hc''
  · rw [Turn.handleUpdate, hclient]
  · rw [Turn.handleUpdate, hclient]
    exact (hc''.loops h.task).linked rfl
  · rw [Turn.handleUpdate, hclient]
    rfl
  · rw [Turn.handleUpdate, hclient]
    rfl

/-- A newcomer is a reason to ask for the list. -/
theorem does_greet {name : String} (hc : c.Consistent) (h : c.Loops) (hl : c.link = some l)
    (hu : l.updates = .newcomer name :: updates) :
    Does c [] ((Turn.of { c with link := some { l with updates } }).handleUpdate (.newcomer name)) := by
  have hc' := h.attended hc hl hu
  have hshow := (Turn.Keeps.of { c with link := some { l with updates } }).printLine
    (Texts.newcomer name)
  have hclient : (Turn.of { c with link := some { l with updates } }).handleUpdate (.newcomer name) =
      ((Turn.of { c with link := some { l with updates } }).printLine
        (Texts.newcomer name)).refreshPeers := if_pos h.status
  rw [hclient]
  rcases Bool.eq_false_or_eq_true c.serverWritable with hw | hw
  · have hlast := hshow.refreshPeers (l := { l with updates }) rfl hw
    have hsame : (((Turn.of { c with link := some { l with updates } }).printLine
        (Texts.newcomer name)).refreshPeers).client = { c with link := some { l with updates } } :=
      Turn.client_refreshPeers (l := { l with updates }) rfl hw
    refine ⟨by rw [hsame]; exact hc', hlast.writable_eq, _, hlast.toServer,
      .attends (h.linked hl) hu (.inr hw) ?_ ?_ ?_⟩
    · rw [hsame]
      exact (hc'.loops h.task).linked rfl
    · rw [hsame]
      rfl
    · rw [hsame]
      rfl
  · rw [Turn.refreshPeers_of_broken (l := { l with updates }) rfl hw]
    exact does_loseLink hshow.loseLink hc h hl h.task h.status (.inr hw)

/-- The next update is attended to. -/
theorem does_handleUpdate (hc : c.Consistent) (h : c.Loops) (hl : c.link = some l)
    (hu : l.updates = update :: updates) :
    Does c [] ((Turn.of { c with link := some { l with updates } }).handleUpdate update) := by
  cases update with
  | peerList peers => exact does_showList hc h hl hu
  | newcomer name => exact does_greet hc h hl hu
  | nameTaken => exact does_printUpdate hc h hl hu _ rfl rfl
  | invalidCommand => exact does_printUpdate hc h hl hu _ rfl rfl
  | serverFull => exact does_printUpdate hc h hl hu _ rfl rfl
  | remark text => exact does_printUpdate hc h hl hu _ rfl rfl

end Attending

/-! ## Signing up -/

namespace Client

theorem stand_choosing {i : Inbox} (ht : c.task = .choosingName) (hi : c.inbox = some i) :
    c.stand = .choosing i := by
  rw [stand, ht, hi]
  rfl

/-- The name under which a client is signing up. -/
inductive Signs (c : Client) : String → Prop
  | first {name : String} (task : c.task = .signingUp name) : c.Signs name
  | again (task : c.task = .rejoining) : c.Signs c.name

theorem Signs.stand {name : String} {i : Inbox} (h : c.Signs name) (hi : c.inbox = some i) :
    c.stand = .signing name i := by
  cases h with
  | first ht =>
    rw [Client.stand, ht, hi]
    rfl
  | again ht =>
    rw [Client.stand, ht, hi]
    rfl

end Client

/-- Giving up a connection on which nothing is registered. -/
theorem Turn.Keeps.closeInbox (hk : t.Keeps c out) :
    t.closeInbox.Keeps { c with inbox := none } (out ++ [.closeServer]) := by
  have hcore := hk.core
  simp only [Client.core, Core.mk.injEq] at hcore
  obtain ⟨h1, h2, h3, h4, -, h6, h7⟩ := hcore
  refine ⟨?_, by rw [toServer_closeInbox, hk.toServer]⟩
  simp only [Client.core, client_closeInbox, h1, h2, h3, h4, h6, h7]

/-- A turn that has closed the connection, and goes on to a task that needs none. -/
theorem Turn.Keeps.closed (hk : t.Keeps { c with inbox := none } out) (hc : c.Consistent)
    (hl : c.link = none) (hp : t.client.task.isPlain = true)
    (hf : Core.Fits { c with inbox := none }.core t.client.status t.client.task) :
    t.client.Consistent ∧ t.client.face.stand = .apart := by
  have hnone : t.client.link = none := hk.link_eq.trans hl
  refine ⟨⟨?_, ?_, ?_⟩, ?_⟩
  · rw [hk.peers_eq]
    exact hc.peers
  · intro l h
    exact absurd (hnone.symm.trans h) (by simp)
  · rw [hk.core]
    exact hf
  · rw [Client.face, Client.stand_of_isPlain hp, hnone]
    rfl

/-- A name is tried on an open connection. -/
theorem does_offerName {i : Inbox} (hk : t.Keeps c out) (hc : c.Consistent)
    (hchoosing : c.task = .choosingName) (hi : c.inbox = some i) (name : String) :
    Does c out (t.offerName name) := by
  have hf := hc.fits
  rw [hchoosing] at hf
  unfold Turn.offerName
  split
  · rename_i hname
    unfold Turn.sendRegistration
    rw [hk.writable_eq]
    split
    · rename_i hw
      have hlast := (hk.sendCommand (.register name t.client.port)).setTask (.signingUp name)
      refine ⟨hlast.consistent hc ⟨hf.1, hf.2.1, hf.2.2.1, hname, hf.2.2.2⟩, hlast.writable_eq, _,
        hlast.toServer, ?_⟩
      rw [Face.sends_of_writable (f := c.face) hw]
      refine .offers (Client.stand_choosing hchoosing hi) hw hname ?_ ?_
      · rw [hk.port_eq]
        exact hf.2.2.2
      · exact (Client.Signs.first rfl).stand (hlast.inbox_eq.trans hi)
    · have hlast := hk.closeInbox.fail (.failed (.transport .brokenPipe))
      obtain ⟨hcons, hapart⟩ := hlast.closed hc hf.2.2.1 rfl ⟨rfl, hf.2.2.1⟩
      exact ⟨hcons, hlast.writable_eq, _, hlast.toServer,
        .leaves (Client.stand_choosing hchoosing hi) hapart⟩
  · have hlast := ((hk.printLine Texts.badName).print Texts.askName).setTask .choosingName
    refine hlast.does hc ?_ hf
    rw [Client.stand_choosing hchoosing hi]
    exact Client.stand_choosing rfl (hlast.inbox_eq.trans hi)

/-- What an attempt to sign up comes to, for a client that is registered by it. -/
theorem does_admitted {name : String} {i later : Inbox} (hc : c.Consistent) (hs : c.Signs name)
    (hi : c.inbox = some i) (hr : i.awaitReply = (some .registered, later))
    (hcore : t.client.core =
      { c.core with name, inbox := none, link := some (.ofInbox name later) })
    (hout : t.toServer = []) (hp : t.client.task.isPlain = true)
    (hf : t.client.core.Fits t.client.status t.client.task) : Does c [] t := by
  have hlink : t.client.link = some (.ofInbox name later) := congrArg Core.link hcore
  refine ⟨⟨?_, ?_, hf⟩, congrArg Core.serverWritable hcore, [], hout,
    .admitted (hs.stand hi) hr ?_ (congrArg Core.peers hcore)⟩
  · have hpeers : t.client.peers = c.peers := congrArg Core.peers hcore
    rw [hpeers]
    exact hc.peers
  · intro l hl
    obtain rfl := Option.some.inj (hlink.symm.trans hl)
    exact Link.proper_ofInbox name later
  · rw [Client.face, Client.stand_of_isPlain hp, hlink]
    rfl

theorem does_concludeSignUp {name : String} {i later : Inbox} {outcome : SignUp}
    (hc : c.Consistent) (ht : c.task = .signingUp name) (hi : c.inbox = some i)
    (hr : i.awaitReply = (some outcome, later)) :
    Does c [] ((Turn.of c).concludeSignUp name later outcome) := by
  have hf := hc.fits
  rw [ht] at hf
  obtain ⟨ha, -, hl, hname, hport⟩ := hf
  have hsigns : c.Signs name := .first ht
  have hrejected : ∀ cause, outcome ≠ .registered →
      Does c [] ((Turn.of c).closeInbox.fail cause) := by
    intro cause hne
    have hlast := (Turn.Keeps.of c).closeInbox.fail cause
    obtain ⟨hcons, hapart⟩ := hlast.closed hc hl rfl ⟨rfl, hl⟩
    exact ⟨hcons, hlast.writable_eq, _, hlast.toServer, .rejected (hsigns.stand hi) hr hne hapart⟩
  cases outcome with
  | registered =>
    refine does_admitted hc hsigns hi hr rfl rfl rfl ⟨ha, rfl, ⟨hname, hport⟩, fun l h => ?_⟩
    obtain rfl := Option.some.inj h
    exact Link.name_ofInbox name later
  | nameTaken =>
    have hstand : Client.stand ((Turn.of c).concludeSignUp name later .nameTaken).client =
        .choosing later := Client.stand_choosing rfl rfl
    exact ⟨⟨hc.peers, hc.links, ha, rfl, hl, hport⟩, rfl, [], rfl,
      .refused (hsigns.stand hi) hr hstand⟩
  | rejected reason => exact hrejected _ (by simp)
  | failed cause => exact hrejected _ (by simp)

theorem does_concludeReturn {i later : Inbox} {outcome : SignUp} (hc : c.Consistent)
    (ht : c.task = .rejoining) (hi : c.inbox = some i)
    (hr : i.awaitReply = (some outcome, later)) :
    Does c [] ((Turn.of c).concludeReturn later outcome) := by
  have hf := hc.fits
  rw [ht] at hf
  obtain ⟨ha, -, hl, hname⟩ := hf
  have hsigns : c.Signs c.name := .again ht
  have hrejected : ∀ text, outcome ≠ .registered →
      Does c [] ((Turn.of c).closeInbox.printLine text).toIdle := by
    intro text hne
    have hlast := ((Turn.Keeps.of c).closeInbox.printLine text).toIdle
    obtain ⟨hcons, hapart⟩ := hlast.closed hc hl rfl
      ⟨ha, rfl, rfl, hname, fun l h => absurd (hl.symm.trans h) (by simp)⟩
    exact ⟨hcons, hlast.writable_eq, _, hlast.toServer, .rejected (hsigns.stand hi) hr hne hapart⟩
  cases outcome with
  | registered =>
    refine does_admitted hc hsigns hi hr rfl rfl rfl ⟨ha, rfl, rfl, hname, fun l h => ?_⟩
    obtain rfl := Option.some.inj h
    exact Link.name_ofInbox c.name later
  | nameTaken => exact hrejected _ (by simp)
  | rejected reason => exact hrejected _ (by simp)
  | failed cause => exact hrejected _ (by simp)

/-! ## Moves by source -/

namespace Client

theorem Consistent.engaged (hc : c.Consistent)
    (h : (∃ remote key, c.task = .concluding remote key) ∨ (∃ remote, c.task = .responding remote) ∨
      ∃ chat, c.task = .chatting chat) : c.Engaged := by
  have hf := hc.fits
  rcases h with ⟨remote, key, ht⟩ | ⟨remote, ht⟩ | ⟨chat, ht⟩ <;>
  · rw [ht] at hf
    exact ⟨by rw [ht]; rfl, hf.1, hf.2.1, hf.2.2⟩

theorem Consistent.courting {name : String} (hc : c.Consistent)
    (h : c.task = .asking name ∨ c.task = .deciding name) : c.Courting := by
  have hf := hc.fits
  rcases h with ht | ht
  · rw [ht] at hf
    exact ⟨by rw [ht]; rfl, hf.1, hf.2.1, hf.2.2⟩
  · rw [ht] at hf
    exact ⟨by rw [ht]; rfl, hf.2.1, fun ha => absurd (hf.1.symm.trans ha) (by simp),
      fun _ => hf.2.2⟩

end Client

theorem does_typeInChat (hk : t.Keeps c out) (hc : c.Consistent) (h : c.Engaged) (chat : Chat)
    (line : String) : Does c out (t.typeInChat chat line) := by
  unfold Turn.typeInChat
  simp only []
  split
  · exact does_continueChat (hk.printEvents _) hc h _
  · exact does_continueChat ((hk.printEvents _).sendDirect _) hc h _

theorem Does.congr {c' : Client} (h : Does c' out t) (hf : c'.face = c.face) : Does c out t :=
  ⟨h.consistent, h.writable.trans (congrArg Face.writable hf), hf ▸ h.deed⟩

/-- The port is chosen before anything is sent to the server. -/
theorem does_bind (hc : c.Consistent) (ht : c.task = .choosingPort) (port : UInt16) :
    Does c [] ((Turn.of c).bind port) := by
  have hf := hc.fits
  rw [ht] at hf
  have hplain : ((Turn.of c).bind port).client.task.isPlain = true := rfl
  refine ⟨⟨hc.peers, hc.links, hf⟩, rfl, [], rfl, .still ?_ rfl (.inr rfl)⟩
  rw [Client.face, Client.face, Client.stand_of_isPlain hplain,
    Client.stand_of_isPlain (by rw [ht]; rfl)]
  rfl

theorem does_onLine (hc : c.Consistent) (line : String) : Does c [] (c.onLine line) := by
  have hk := Turn.Keeps.of c
  have hf := hc.fits
  have hsame : Does c [] (Turn.of c) := hk.does hc rfl hf
  unfold Client.onLine
  simp only []
  split
  · rename_i ht
    rw [ht] at hf
    have hp : c.task.isPlain = true := by rw [ht]; rfl
    unfold Turn.offerPort
    split
    · exact does_bind hc ht _
    · exact (((hk.printLine _).print Texts.askPort).setTask .choosingPort).does_of_isPlain hc hp rfl hf
  · rename_i ht
    rw [ht] at hf
    obtain ⟨i, hi⟩ := Option.isSome_iff_exists.mp hf.2.1
    exact does_offerName hk hc ht hi _
  · rename_i ht
    exact does_obey hk hc (hc.loops ht) ht (hc.loops ht).status line
  · rename_i ht
    rw [ht] at hf
    have hp : c.task.isPlain = true := by rw [ht]; rfl
    unfold Turn.obeyAnonymous
    split
    · exact hk.askEndpoint.does_of_isPlain hc hp rfl hf
    · exact ((hk.printLine _).finish _).does_of_isPlain hc hp rfl hf.2
    · split
      · refine ((hk.dial _).setTask _).does_of_isPlain hc hp rfl
          ⟨hf.2.1, fun _ => hf.2.2, fun ha => ?_⟩
        exact absurd (hf.1.symm.trans ha) (by simp)
      · exact (hk.printLine _).askEndpoint.does_of_isPlain hc hp rfl hf
  · rename_i name ht
    rw [ht] at hf
    exact does_decideCall hk hc (hc.courting (.inr ht)) hf.1 rfl rfl name line
  · rename_i chat ht
    exact does_typeInChat hk hc (hc.engaged (.inr (.inr ⟨chat, ht⟩))) chat line
  · exact hsame

theorem does_onInputEnd (hc : c.Consistent) : Does c [] c.onInputEnd := by
  have hk := Turn.Keeps.of c
  have hf := hc.fits
  have hsame : Does c [] (Turn.of c) := hk.does hc rfl hf
  unfold Client.onInputEnd
  simp only []
  split
  · rename_i ht
    rw [ht] at hf
    exact (hk.fail _).does_of_isPlain hc (by rw [ht]; rfl) rfl hf.2
  · rename_i ht
    rw [ht] at hf
    obtain ⟨i, hi⟩ := Option.isSome_iff_exists.mp hf.2.1
    have hlast := hk.closeInbox.fail (.told "stdin closed before registration")
    obtain ⟨hcons, hapart⟩ := hlast.closed hc hf.2.2.1 rfl ⟨rfl, hf.2.2.1⟩
    exact ⟨hcons, hlast.writable_eq, _, hlast.toServer, .leaves (Client.stand_choosing ht hi) hapart⟩
  · rename_i ht
    exact does_withdraw_finish hk hc (hc.loops ht) _
  · rename_i ht
    rw [ht] at hf
    exact ((hk.printLine _).finish _).does_of_isPlain hc (by rw [ht]; rfl) rfl hf.2
  · rename_i name ht
    rw [ht] at hf
    exact does_denyCall hk hc (hc.courting (.inr ht)) hf.1 name
  · rename_i chat ht
    exact does_continueChat hk hc (hc.engaged (.inr (.inr ⟨chat, ht⟩))) _
  · exact hsame

/-- A client that awaits a reply has read on without finding it. -/
theorem does_readOn {name : String} {i later : Inbox} (hc : c.Consistent) (hs : c.Signs name)
    (hi : c.inbox = some i) (hr : i.awaitReply = (none, later)) :
    Does c [] ((Turn.of c).setInbox later) := by
  have hf := hc.fits
  have hs' : Client.Signs { c with inbox := some later } name := by
    cases hs with
    | first ht => exact .first ht
    | again ht => exact .again (c := { c with inbox := some later }) ht
  refine ⟨⟨hc.peers, hc.links, ?_⟩, rfl, [], rfl, .waits (hs.stand hi) hr (hs'.stand rfl) rfl⟩
  show Core.Fits _ c.status c.task
  cases hs with
  | first ht =>
    rw [ht] at hf ⊢
    exact ⟨hf.1, rfl, hf.2.2⟩
  | again ht =>
    rw [ht] at hf ⊢
    exact ⟨hf.1, rfl, hf.2.2⟩

theorem does_moveServer (hc : c.Consistent) (hm : c.moveServer = some t) : Does c [] t := by
  unfold Client.moveServer at hm
  split at hm
  · rename_i name ht
    obtain ⟨i, hi, hm⟩ := Option.bind_eq_some_iff.mp hm
    split at hm
    · rename_i outcome later hr
      obtain rfl := Option.some.inj hm
      have honReply : c.onReply later outcome = (Turn.of c).concludeSignUp name later outcome := by
        rw [Client.onReply, ht]
      rw [honReply]
      exact does_concludeSignUp hc ht hi hr
    · rename_i later hr
      split at hm
      · exact absurd hm (by simp)
      · obtain rfl := Option.some.inj hm
        exact does_readOn hc (.first ht) hi hr
  · rename_i ht
    obtain ⟨i, hi, hm⟩ := Option.bind_eq_some_iff.mp hm
    split at hm
    · rename_i outcome later hr
      obtain rfl := Option.some.inj hm
      have honReply : c.onReply later outcome = (Turn.of c).concludeReturn later outcome := by
        rw [Client.onReply, ht]
      rw [honReply]
      exact does_concludeReturn hc ht hi hr
    · rename_i later hr
      split at hm
      · exact absurd hm (by simp)
      · obtain rfl := Option.some.inj hm
        exact does_readOn hc (.again ht) hi hr
  · rename_i ht
    split at hm
    · rename_i l hl
      split at hm
      · rename_i update updates hu
        obtain rfl := Option.some.inj hm
        exact does_handleUpdate hc (hc.loops ht) hl hu
      · split at hm
        · rename_i hover
          obtain rfl := Option.some.inj hm
          exact does_loseLink (Turn.Keeps.of c).loseLink hc (hc.loops ht) hl ht (hc.loops ht).status
            (.inl hover)
        · exact absurd hm (by simp)
    · exact absurd hm (by simp)
  · exact absurd hm (by simp)

theorem does_moveDirect (hc : c.Consistent) (hm : c.moveDirect = some t) : Does c [] t := by
  have hk := Turn.Keeps.of c
  unfold Client.moveDirect at hm
  simp only [] at hm
  split at hm
  · exact absurd hm (by simp)
  · rename_i d _
    split at hm
    · rename_i target ht
      have h := hc.courting (.inl ht)
      split at hm
      · exact absurd hm (by simp)
      · obtain rfl := Option.some.inj hm
        exact does_concludeAsking hk hc h target _
      · obtain rfl := Option.some.inj hm
        exact does_concludeAsking hk hc h target _
    · rename_i remote key ht
      have h := hc.engaged (.inl ⟨remote, key, ht⟩)
      split at hm
      · exact absurd hm (by simp)
      · obtain rfl := Option.some.inj hm
        exact does_failKeyExchange hk hc h remote
      · obtain rfl := Option.some.inj hm
        exact does_openSession hk hc h _ _ _ _
    · rename_i remote ht
      have h := hc.engaged (.inr (.inl ⟨remote, ht⟩))
      split at hm
      · exact absurd hm (by simp)
      · rename_i pool hr
        obtain rfl := Option.some.inj hm
        exact does_failKeyExchange (hk.update (f := fun c => { c with entropy := pool }) rfl) hc h remote
      · rename_i answer pool hr
        obtain rfl := Option.some.inj hm
        exact does_answerKey (hk.update (f := fun c => { c with entropy := pool }) rfl) hc h remote
          answer
    · rename_i chat ht
      have h := hc.engaged (.inr (.inr ⟨chat, ht⟩))
      split at hm
      · exact absurd hm (by simp)
      · obtain rfl := Option.some.inj hm
        exact does_continueChat ((hk.keepIncoming _).printEvents _) hc h _
    · exact absurd hm (by simp)

/-- Whatever a client does next is one deed. -/
theorem does_of_move (hc : c.Consistent) {source : Source} (hm : c.move? source = some t) :
    Does c [] t := by
  have hk := Turn.Keeps.of c
  have hf := hc.fits
  cases source with
  | own =>
    unfold Client.move? Client.moveOwn at hm
    simp only [] at hm
    split at hm
    · rename_i ht
      rw [ht] at hf
      obtain rfl := Option.some.inj hm
      exact (((hk.setStatus _).printLine _).setTask _).does_of_isPlain hc (by rw [ht]; rfl) rfl
        ⟨hf.1, rfl, hf.2⟩
    · exact absurd hm (by simp)
  | keyboard =>
    unfold Client.move? Client.moveKeyboard at hm
    simp only [] at hm
    split at hm
    · split at hm
      · rename_i line typed _
        obtain rfl := Option.some.inj hm
        have hc' : Client.Consistent { c with typed } := ⟨hc.peers, hc.links, hc.fits⟩
        exact (does_onLine hc' line).congr rfl
      · split at hm
        · obtain rfl := Option.some.inj hm
          exact does_onInputEnd hc
        · exact absurd hm (by simp)
    · exact absurd hm (by simp)
  | calls =>
    unfold Client.move? Client.moveCalls at hm
    simp only [] at hm
    split at hm
    · rename_i call reception ht _
      have h := hc.loops ht
      obtain rfl := Option.some.inj hm
      exact (((((hk.setStatus _).receive _).setDirect _).print _).setTask _).does_of_isPlain hc
        h.isPlain rfl ⟨h.named, h.inbox, h.goesBy⟩
    · exact absurd hm (by simp)
  | server => exact does_moveServer hc hm
  | direct => exact does_moveDirect hc hm
  | reception =>
    unfold Client.move? Client.moveReception at hm
    simp only [] at hm
    split at hm
    · rename_i ht
      have h := hc.loops ht
      split at hm
      · exact absurd hm (by simp)
      · obtain rfl := Option.some.inj hm
        unfold Turn.openReception
        exact (hk.receive _).loops hc h (by rw [Turn.client_receive]; exact ht)
          (by rw [Turn.client_receive]; exact h.status)
    · exact absurd hm (by simp)

/-! ## Events -/

/-- Nothing that matters is changed, not even the task. -/
theorem Turn.Keeps.still (hk : t.Keeps c out) (hc : c.Consistent) (ht : t.client.task = c.task)
    (hs : t.client.status = c.status) : Does c out t := by
  refine hk.does hc ?_ (by rw [ht, hs]; exact hc.fits)
  rw [Client.stand, Client.stand, ht, hk.inbox_eq, hk.link_eq, hk.name_eq]

theorem does_onReception (hc : c.Consistent) (party : Party) (bytes : Bytes) (ended : Bool) :
    Does c [] (c.onReception party bytes ended) := by
  have hk := Turn.Keeps.of c
  unfold Client.onReception
  split
  · exact (hk.receive _).still hc (by rw [Turn.client_receive]; rfl) (by rw [Turn.client_receive]; rfl)
  · exact hk.still hc rfl rfl

theorem does_onDirect (hc : c.Consistent) (party : Party) (bytes : Bytes) (ended : Bool) :
    Does c [] (c.onDirect party bytes ended) := by
  unfold Client.onDirect
  split
  · split
    · exact ((Turn.Keeps.of c).setDirect _).still hc rfl rfl
    · exact does_onReception hc party bytes ended
  · exact does_onReception hc party bytes ended

/-- What a client does on an event that does not come from the server is one deed, too. -/
theorem does_of_event (hc : c.Consistent) {e : Event} (he : e.isLocal = true) :
    Does c [] (c.onEvent e) := by
  have hk := Turn.Keeps.of c
  have hf := hc.fits
  cases e with
  | typed line => exact (hk.update (f := fun c => { c with typed := c.typed ++ [line] }) rfl).still hc rfl rfl
  | inputEnded => exact (hk.update (f := fun c => { c with inputEnded := true }) rfl).still hc rfl rfl
  | listening port =>
    unfold Client.onEvent
    simp only []
    split
    · rename_i ht
      rw [ht] at hf
      have hport : port ≠ 0 := by simpa [Event.isLocal] using he
      refine ⟨⟨hc.peers, hc.links, hf.1, hf.2.1, hf.2.2, hport⟩, rfl, [.connectServer], rfl,
        .connects ?_ rfl rfl⟩
      have hl : c.link = none := hf.2.2
      rw [Client.face, Client.stand_of_isPlain (by rw [ht]; rfl), hl]
      rfl
    · exact hk.still hc rfl rfl
  | cannotListen cause =>
    unfold Client.onEvent
    simp only []
    split
    · rename_i ht
      rw [ht] at hf
      exact (hk.fail _).does_of_isPlain hc (by rw [ht]; rfl) rfl hf.2
    · exact hk.still hc rfl rfl
  | serverConnected => exact absurd he (by simp [Event.isLocal])
  | serverUnreachable cause => exact absurd he (by simp [Event.isLocal])
  | serverSent bytes => exact absurd he (by simp [Event.isLocal])
  | serverEnded => exact absurd he (by simp [Event.isLocal])
  | serverBroken => exact absurd he (by simp [Event.isLocal])
  | dialed =>
    unfold Client.onEvent
    simp only []
    split
    · rename_i ht
      exact does_startAsking hk hc ht
    · exact hk.still hc rfl rfl
  | dialFailed cause =>
    unfold Client.onEvent
    simp only []
    split
    · rename_i ht
      exact does_failDial hk hc ht cause
    · exact hk.still hc rfl rfl
  | callerConnected id address =>
    exact (hk.update (f := fun c => { c with reception := c.reception.connect id address }) rfl).still
      hc rfl rfl
  | sent party bytes => exact does_onDirect hc party bytes false
  | ended party => exact does_onDirect hc party [] true
  | broken party => exact (hk.update (f := fun c => c.onBroken party) rfl).still hc rfl rfl

/-! ## The server's events -/

/-- What has arrived from the server is added to whatever there is of a connection. -/
def Stand.receive (bytes : Bytes) : Stand → Stand
  | .choosing inbox => .choosing (inbox.receive bytes)
  | .signing name inbox => .signing name (inbox.receive bytes)
  | .linked link => .linked (link.receive bytes)
  | stand => stand

/-- Something happens to whatever there is of a connection. -/
def Stand.map (f : Inbox → Inbox) (g : Link → Link) : Stand → Stand
  | .choosing inbox => .choosing (f inbox)
  | .signing name inbox => .signing name (f inbox)
  | .linked link => .linked (g link)
  | stand => stand

theorem Client.stand_map (c : Client) (f : Inbox → Inbox) (g : Link → Link) :
    ({ c with inbox := c.inbox.map f, link := c.link.map g } : Client).stand = c.stand.map f g := by
  have hinbox : ∀ k : Inbox → Stand, (∀ i, (k i).map f g = k (f i)) →
      (c.inbox.map f).elim .apart k = (c.inbox.elim .apart k).map f g := by
    intro k hk
    cases c.inbox with
    | none => rfl
    | some i => exact (hk i).symm
  have hlink : (c.link.map g).elim Stand.apart Stand.linked =
      (c.link.elim Stand.apart Stand.linked).map f g := by
    cases c.link with
    | none => rfl
    | some l => rfl
  unfold Client.stand
  generalize c.task = task
  cases task with
  | reaching => rfl
  | returning => rfl
  | choosingName => exact hinbox _ fun i => rfl
  | signingUp name => exact hinbox _ fun i => rfl
  | rejoining => exact hinbox _ fun i => rfl
  | choosingPort => exact hlink
  | binding => exact hlink
  | registered => exact hlink
  | idle => exact hlink
  | choosingEndpoint => exact hlink
  | dialing target => exact hlink
  | asking target => exact hlink
  | deciding name => exact hlink
  | concluding remote key => exact hlink
  | responding remote => exact hlink
  | chatting chat => exact hlink
  | «over» result => exact hlink

theorem Client.stand_onServerSent (c : Client) (bytes : Bytes) :
    (c.onServerSent bytes).stand = c.stand.receive bytes := by
  rw [onServerSent, stand_map]
  cases c.stand <;> rfl

theorem Core.Fits.map {c : Core} {status : Status} {task : Task} (h : c.Fits status task)
    (f : Inbox → Inbox) {g : Link → Link} (hg : ∀ l, (g l).name = l.name) :
    Core.Fits { c with inbox := c.inbox.map f, link := c.link.map g } status task := by
  have hgoes : c.GoesBy → Core.GoesBy { c with inbox := c.inbox.map f, link := c.link.map g } := by
    intro h
    refine ⟨h.1, fun l hl => ?_⟩
    obtain ⟨m, hm, rfl⟩ := Option.map_eq_some_iff.mp hl
    exact (hg m).trans (h.2 m hm)
  have hinbox : c.inbox = none → c.inbox.map f = none := fun h => by rw [h]; rfl
  have hlink : c.link = none → c.link.map g = none := fun h => by rw [h]; rfl
  have hsome : c.inbox.isSome = true → (c.inbox.map f).isSome = true := fun h => by
    rw [Option.isSome_map]
    exact h
  cases task with
  | choosingPort => exact ⟨h.1, hinbox h.2.1, hlink h.2.2⟩
  | binding => exact ⟨h.1, hinbox h.2.1, hlink h.2.2⟩
  | reaching => exact ⟨h.1, hinbox h.2.1, hlink h.2.2.1, h.2.2.2⟩
  | choosingName => exact ⟨h.1, hsome h.2.1, hlink h.2.2.1, h.2.2.2⟩
  | signingUp name => exact ⟨h.1, hsome h.2.1, hlink h.2.2.1, h.2.2.2⟩
  | registered => exact ⟨h.1, hinbox h.2.1, hgoes h.2.2⟩
  | idle => exact ⟨h.1, h.2.1, hinbox h.2.2.1, hgoes h.2.2.2⟩
  | choosingEndpoint => exact ⟨h.1, hinbox h.2.1, hlink h.2.2⟩
  | dialing target =>
    exact ⟨hinbox h.1, fun ha => hlink (h.2.1 ha), fun ha => ⟨(h.2.2 ha).1, hgoes (h.2.2 ha).2⟩⟩
  | asking target => exact ⟨hinbox h.1, fun ha => hlink (h.2.1 ha), fun ha => hgoes (h.2.2 ha)⟩
  | deciding name => exact ⟨h.1, hinbox h.2.1, hgoes h.2.2⟩
  | concluding remote key => exact ⟨hinbox h.1, hlink h.2.1, h.2.2⟩
  | responding remote => exact ⟨hinbox h.1, hlink h.2.1, h.2.2⟩
  | chatting chat => exact ⟨hinbox h.1, hlink h.2.1, h.2.2⟩
  | returning => exact ⟨h.1, hinbox h.2.1, hlink h.2.2.1, h.2.2.2⟩
  | rejoining => exact ⟨h.1, hsome h.2.1, hlink h.2.2.1, h.2.2.2⟩
  | «over» result => exact ⟨hinbox h.1, hlink h.2⟩

/-- Whether the server takes what is sent does not matter to what a client has. -/
theorem Core.Fits.of_writable {c : Core} {status : Status} {task : Task} (h : c.Fits status task)
    (serverWritable : Bool) : Core.Fits { c with serverWritable } status task := by
  cases task <;> exact h

theorem Client.Consistent.onServerSent (hc : c.Consistent) (bytes : Bytes) :
    (c.onServerSent bytes).Consistent := by
  refine ⟨hc.peers, fun l hl => ?_, hc.fits.map _ fun l => Link.name_receive l bytes⟩
  obtain ⟨m, hm, rfl⟩ := Option.map_eq_some_iff.mp hl
  exact (hc.links m hm).receive bytes

/-- A client that was to reach the server, as it finds itself on a fresh connection. -/
def Client.arriving (c : Client) : Client :=
  { c with inbox := some .empty, serverWritable := true, task := .choosingName }

theorem Client.task_of_reaching (h : c.stand = .reaching) :
    c.task = .reaching ∨ c.task = .returning := by
  have hplain : c.link.elim Stand.apart Stand.linked ≠ .reaching := by
    cases c.link with
    | none => simp
    | some l => simp
  have hinbox : ∀ f : Inbox → Stand, (∀ i, f i ≠ .reaching) → c.inbox.elim .apart f ≠ .reaching := by
    intro f hf
    cases c.inbox with
    | none => simp
    | some i => exact hf i
  unfold Client.stand at h
  split at h
  · rename_i ht
    exact .inl ht
  · rename_i ht
    exact .inr ht
  · exact absurd h (hinbox _ (by simp))
  · exact absurd h (hinbox _ (by simp))
  · exact absurd h (hinbox _ (by simp))
  · exact absurd h hplain

/-- A client that has reached the server asks for a name, or registers at once. -/
theorem does_onServerConnected (hc : c.Consistent) (h : c.stand = .reaching) :
    c.arriving.Consistent ∧ Does c.arriving [] c.onServerConnected := by
  have hf := hc.fits
  rcases Client.task_of_reaching h with ht | ht
  · rw [ht] at hf
    have hc' : c.arriving.Consistent := ⟨hc.peers, hc.links, hf.1, rfl, hf.2.2⟩
    have hk : ((Turn.of { c with inbox := some .empty, serverWritable := true }).setStatus
        .connected).Keeps c.arriving [] := ⟨rfl, rfl⟩
    refine ⟨hc', ?_⟩
    unfold Client.onServerConnected
    rw [ht]
    simp only []
    split
    · exact does_offerName hk hc' rfl rfl _
    · exact ((hk.print _).setTask .choosingName).does hc' rfl hc'.fits
  · rw [ht] at hf
    have hc' : c.arriving.Consistent := ⟨hc.peers, hc.links, hf.1, rfl, hf.2.2.1, hf.2.2.2.2⟩
    have hk : ((Turn.of { c with inbox := some .empty, serverWritable := true }).setStatus
        .connected).Keeps c.arriving [] := ⟨rfl, rfl⟩
    refine ⟨hc', ?_⟩
    have hlast := (hk.sendCommand (.register c.name c.port)).setTask .rejoining
    rw [Face.sends_of_writable (f := c.arriving.face) rfl] at hlast
    have hturn : c.onServerConnected = (((Turn.of { c with inbox := some .empty, serverWritable :=
        true }).setStatus .connected).sendCommand (.register c.name c.port)).setTask .rejoining := by
      unfold Client.onServerConnected
      rw [ht]
      exact if_pos rfl
    rw [hturn]
    refine ⟨hlast.consistent hc' ⟨hf.1, rfl, hf.2.2.1, hf.2.2.2⟩, hlast.writable_eq, _,
      hlast.toServer, ?_⟩
    refine .offers rfl rfl hf.2.2.2.1 hf.2.2.2.2 ?_
    have hsigns := (Client.Signs.again rfl).stand hlast.inbox_eq
    rw [hlast.name_eq] at hsigns
    exact hsigns

/-- A client that cannot reach the server does without it. -/
theorem onServerUnreachable_spec (hc : c.Consistent) (h : c.stand = .reaching)
    (cause : TransportError) :
    (c.onServerUnreachable cause).client.Consistent ∧
      (c.onServerUnreachable cause).client.serverWritable = c.serverWritable ∧
        (c.onServerUnreachable cause).client.stand = .apart ∧
          (c.onServerUnreachable cause).toServer = [] := by
  have hf := hc.fits
  have hk := Turn.Keeps.of c
  unfold Client.onServerUnreachable
  rcases Client.task_of_reaching h with ht | ht
  · rw [ht] at hf ⊢
    have hlast := hk.fail (.failed (.transport cause))
    have hl : c.link = none := hf.2.2.1
    refine ⟨hlast.consistent hc ⟨hf.2.1, hl⟩, hlast.writable_eq, ?_, hlast.toServer⟩
    rw [hlast.stand_eq rfl, hl]
    rfl
  · rw [ht] at hf ⊢
    have hlast := (hk.printLine Texts.serverOutOfReach).toIdle
    have hl : c.link = none := hf.2.2.1
    refine ⟨hlast.consistent hc ⟨hf.1, rfl, hf.2.1, hf.2.2.2, fun l h => ?_⟩, hlast.writable_eq, ?_,
      hlast.toServer⟩
    · exact absurd (hl.symm.trans h) (by simp)
    · rw [hlast.stand_eq rfl, hl]
      rfl

theorem start_spec (settings : Settings) (entropy : Entropy) :
    (Client.start settings entropy).client.Ready ∧
      (Client.start settings entropy).client.stand = .apart := by
  have hnone : ∀ l, (none : Option Link) = some l → l.Proper := fun l h => absurd h (by simp)
  unfold Client.start
  simp only []
  split
  · rename_i ha
    exact ⟨⟨⟨properNames_nil, hnone, ha, rfl, rfl⟩, rfl⟩, rfl⟩
  · rename_i ha
    rw [Bool.not_eq_true] at ha
    split
    · exact ⟨⟨⟨properNames_nil, hnone, ha, rfl, rfl⟩, rfl⟩, rfl⟩
    · exact ⟨⟨⟨properNames_nil, hnone, ha, rfl, rfl⟩, rfl⟩, rfl⟩

end PeerChat
