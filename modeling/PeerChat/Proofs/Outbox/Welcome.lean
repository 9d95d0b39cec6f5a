import PeerChat.Proofs.Outbox.Handlers

/-!
# A registration beside full outboxes

A handler that reads a registration, and is not interrupted, enters the peer, replies, and tells all
others of the newcomer, in whichever order (`Crowd.registration`).  Who has no room in its outbox gets
nothing and is otherwise left alone; a registrant without room for the reply is closed again, behind
its notice (`welcomed_registration`).
-/

namespace PeerChat

/-- A connection after a notice for all: whether it is open and has room decides. -/
def Connection.notified (c : Connection) (m : ServerMessage) : Connection :=
  if c.phase ≠ .closed ∧ c.outbox.length < Server.outboxCapacity then { c with outbox := c.outbox ++ [m] }
  else c

/-- All that the handler of a connection does about a registration. -/
def Crowd.registration {ι : Type} (id : ConnectionId) (targets : List ConnectionId) :
    List (Crowd.Step ι) :=
  [.read id, .work id, .work id] ++ targets.map (.deliver id) ++ [.work id, .work id, .work id]

namespace Directory

theorem filter_place (entry : Entry) {entries : List Entry}
    (hfree : ∀ e ∈ entries, e.peer.name ≠ entry.peer.name) :
    (place entry entries).filter (fun e => decide (e.peer.name ≠ entry.peer.name)) = entries := by
  have hkeep : ∀ entries : List Entry, (∀ e ∈ entries, e.peer.name ≠ entry.peer.name) →
      entries.filter (fun e => decide (e.peer.name ≠ entry.peer.name)) = entries :=
    fun entries h => List.filter_eq_self.mpr fun e he => by simpa using h e he
  induction entries with
  | nil => simp [place]
  | cons e later ih =>
    obtain ⟨he, hlater⟩ := List.forall_mem_cons.mp hfree
    rw [place]
    split
    · rw [List.filter_cons_of_neg (by simp), hkeep _ hfree]
    · rw [List.filter_cons_of_pos (by simpa using he), ih hlater]

/-- Who withdraws an entry that has just been made leaves the directory as it was. -/
theorem eraseOwned_insert {d d' : Directory} (hd : d.NamesUnique) {peer : Peer} {owner : OwnerId}
    {others : List Peer} (h : d.insert peer (some owner) = .ok (d', others)) :
    d'.eraseOwned peer.name owner = d := by
  have hunique := hd.insert h
  obtain ⟨hfree, -, rfl, -⟩ := insert_eq_ok h
  have howned : isOwnedBy { d with entries := place ⟨peer, some owner⟩ d.entries } peer.name owner =
      true :=
    (isOwnedBy_iff hunique).mpr ⟨⟨peer, some owner⟩, mem_place.mpr (.inl rfl), rfl, rfl⟩
  rw [eraseOwned, if_pos howned]
  exact congrArg (Directory.mk d.capacity) (filter_place ⟨peer, some owner⟩ hfree)

end Directory

namespace Server

variable {s : Server} {id k : ConnectionId} {c : Connection}

theorem audience_update {f : Connection → Connection} (hid : ∀ c, (f c).id = c.id)
    (hopen : ∀ c ∈ s.connections, c.id = k → ((f c).phase ≠ .closed ↔ c.phase ≠ .closed))
    (except : ConnectionId) : (s.update k f).audience except = s.audience except := by
  have hsame : ∀ cs : List Connection,
      (∀ c ∈ cs, c.id = k → ((f c).phase ≠ .closed ↔ c.phase ≠ .closed)) →
      ((cs.map fun c => if c.id = k then f c else c).filter fun c => c.phase ≠ .closed).map (·.id) =
        (cs.filter fun c => c.phase ≠ .closed).map (·.id) := by
    intro cs hcs
    induction cs with
    | nil => rfl
    | cons c cs ih =>
      obtain ⟨hc, hcs⟩ := List.forall_mem_cons.mp hcs
      rw [List.map_cons, List.filter_cons, List.filter_cons]
      by_cases hk : c.id = k
      · rw [if_pos hk]
        by_cases hp : c.phase ≠ .closed
        · rw [if_pos (by simpa using (hc hk).mpr hp), if_pos (by simpa using hp), List.map_cons,
            List.map_cons, hid, ih hcs]
        · rw [if_neg (by simpa using fun h => hp ((hc hk).mp h)), if_neg (by simpa using hp), ih hcs]
      · rw [if_neg hk]
        split
        · rw [List.map_cons, List.map_cons, ih hcs]
        · exact ih hcs
  rw [audience, audience, openConnections, openConnections, update, hsame _ hopen]

theorem audience_queue (m : ServerMessage) (except : ConnectionId) :
    (s.queue k m).audience except = s.audience except := by
  unfold queue
  split
  · exact audience_update (f := fun c => { c with outbox := c.outbox ++ [m] }) (fun _ => rfl)
      (fun _ _ _ => Iff.rfl) except
  · rfl

theorem audience_entered (h : Tidy s) (hc : s.connection? id = some c) (hp : c.phase = .registering)
    {name : String} {directory : Directory} (except : ConnectionId) :
    (s.entered id name directory).audience except = s.audience except := by
  refine audience_update (s := { s with directory })
    (f := fun d => { d with phase := .registered name }) (fun _ => rfl) (fun d hd hid => ?_) except
  have hfound := connection?_of_mem h hd
  rw [hid, hc] at hfound
  obtain rfl := Option.some.inj hfound
  simp [hp]

/-- Each on the list gets the message, if it has room. -/
theorem connection?_notify (m : ServerMessage) {ids : List ConnectionId} (hids : ids.Nodup) :
    (s.notify ids m).connection? k = if k ∈ ids ∧ s.hasRoom k then
      (s.connection? k).map fun c => { c with outbox := c.outbox ++ [m] } else s.connection? k := by
  induction ids generalizing s with
  | nil => simp [notify]
  | cons i ids ih =>
    obtain ⟨hi, hids⟩ := List.nodup_cons.mp hids
    have hrest : (s.notify (i :: ids) m).connection? k = ((s.queue i m).notify ids m).connection? k := rfl
    rw [hrest, ih hids]
    by_cases he : k = i
    · subst he
      rw [if_neg fun h => hi h.1]
      by_cases hr : s.hasRoom k = true
      · rw [connection?_queue m hr, if_pos rfl, if_pos ⟨List.mem_cons_self .., hr⟩]
      · rw [queue, if_neg hr, if_neg fun h => hr h.2]
    · rw [hasRoom_congr (connection?_queue_of_ne m he), connection?_queue_of_ne m he]
      simp [he]

theorem directory_close (hc : s.connection? id = some c) {name : String}
    (hp : c.phase = .registered name) : (s.close id).directory = s.directory.eraseOwned name id := by
  simp only [close, hc, withdraw, hp, connection?_id hc]
  rfl

/-- After a registration, the reply and the notices. -/
def greeted (s : Server) (id : ConnectionId) (name : String) (directory : Directory)
    (others : List Peer) (targets : List ConnectionId) : Server :=
  ((s.entered id name directory).queue id (.peerList others)).notify targets (.newcomer name)

section Greeted

variable {name : String} {directory : Directory} {others : List Peer} {targets : List ConnectionId}

theorem directory_greeted : (s.greeted id name directory others targets).directory = directory :=
  ((Frame.queue _ _ _).trans (Frame.notify targets (.newcomer name) _)).directory

variable (h : Tidy s) (hc : s.connection? c.id = some c)
  (hperm : targets.Perm (s.audience c.id))
include h hc hperm

/-- The registrant gets the list, if it has room. -/
theorem greeted_self : (s.greeted c.id name directory others targets).connection? c.id =
    some { c with
      phase := .registered name
      outbox := if s.hasRoom c.id then c.outbox ++ [.peerList others] else c.outbox } := by
  have hself : c.id ∉ targets := fun hm => ((mem_audience_iff h).mp (hperm.mem_iff.mp hm)).1 rfl
  have hentered : (s.entered c.id name directory).connection? c.id =
      some { c with phase := .registered name } := (connection?_entered hc).trans (if_pos rfl)
  have hroom : (s.entered c.id name directory).hasRoom c.id = s.hasRoom c.id := hasRoom_entered hc
  rw [greeted, connection?_notify _ (hperm.nodup_iff.mpr (nodup_audience h c.id)),
    if_neg fun hm => hself hm.1]
  by_cases hr : s.hasRoom c.id = true
  · rw [connection?_queue _ (hroom.trans hr), if_pos rfl, if_pos hr, hentered]
    rfl
  · rw [queue, if_neg fun hyes => hr (hroom.symm.trans hyes), if_neg hr, hentered]

/-- Everybody else gets the notice, if it is open and has room in an outbox that is there. -/
theorem greeted_other {d : Connection} (hd : d.id ≠ c.id) (hfound : s.connection? d.id = some d)
    (hwritable : d.writable = true) :
    (s.greeted c.id name directory others targets).connection? d.id =
      some (d.notified (.newcomer name)) := by
  have hsame : ((s.entered c.id name directory).queue c.id (.peerList others)).connection? d.id =
      some d := by
    rw [connection?_queue_of_ne _ hd, connection?_entered hc, if_neg hd, hfound]
  have hfits : ((s.entered c.id name directory).queue c.id (.peerList others)).hasRoom d.id = true ↔
      d.outbox.length < outboxCapacity := by
    simp only [hasRoom, hsame, hwritable, Bool.true_and, decide_eq_true_eq]
  have hlisted : d.id ∈ targets ↔ d.phase ≠ .closed := by
    rw [hperm.mem_iff, mem_audience_iff h]
    constructor
    · rintro ⟨-, d', hd', hopen⟩
      obtain rfl := Option.some.inj (hfound.symm.trans hd')
      exact hopen
    · exact fun hopen => ⟨hd, d, hfound, hopen⟩
  rw [greeted, connection?_notify _ (hperm.nodup_iff.mpr (nodup_audience h c.id)), hsame,
    Connection.notified]
  by_cases hgets : d.phase ≠ .closed ∧ d.outbox.length < outboxCapacity
  · rw [if_pos ⟨hlisted.mpr hgets.1, hfits.mpr hgets.2⟩, if_pos hgets]
    rfl
  · rw [if_neg fun hm => hgets ⟨hlisted.mp hm.1, hfits.mp hm.2⟩, if_neg hgets]

end Greeted

end Server

namespace Network

variable {n n' : Network Empty} {id : ConnectionId} {c : Connection} {m : ServerMessage}
  {later : List Job}

/-! ## Step by step -/

/-- A handler passes its notice on to all on the list, in whichever order. -/
theorem run_deliver {targets ids : List ConnectionId} (hperm : targets.Perm ids)
    (hjobs : (n.channel id).jobs = .deliver ids m :: later) :
    (Crowd.run n (targets.map (.deliver id))).server = n.server.notify targets m ∧
      ((Crowd.run n (targets.map (.deliver id))).channel id).jobs = .deliver [] m :: later := by
  induction targets generalizing n ids with
  | nil =>
    obtain rfl := List.nil_perm.mp hperm
    exact ⟨rfl, hjobs⟩
  | cons target targets ih =>
    obtain ⟨hmem, herase⟩ := List.cons_perm_iff_perm_erase.mp hperm
    have hstep : Crowd.step n (.deliver id target) =
        (n.setJobs id (.deliver (ids.erase target) m :: later)).queue target m := by
      simp only [Crowd.step, Network.deliver, hjobs, if_pos hmem]
    have hnext : ((Crowd.step n (.deliver id target)).channel id).jobs =
        .deliver (ids.erase target) m :: later := by
      rw [hstep, jobs_queue, jobs_setJobs, if_pos rfl]
    obtain ⟨hserver, hdone⟩ := ih herase hnext
    refine ⟨?_, hdone⟩
    rw [List.map_cons, Crowd.run, List.foldl_cons]
    refine hserver.trans ?_
    rw [hstep, server_queue]
    rfl

theorem work_reply (hjobs : (n.channel id).jobs = .reply m :: later) :
    (n.work id).server = n.server.queue id m ∧ ((n.work id).channel id).jobs =
      if n.server.hasRoom id then later else later ++ Server.closing := by
  rw [Network.work, hjobs]
  by_cases hr : n.server.hasRoom id = true
  · simp only [hr, if_true, jobs_queue, jobs_setJobs]
    exact ⟨server_queue _ _ _, trivial⟩
  · simp only [if_neg hr, jobs_setJobs, if_true, and_true]
    rw [Server.queue, if_neg hr]
    rfl

theorem work_announce (hjobs : (n.channel id).jobs = .announce m :: later) :
    (n.work id).server = n.server ∧
      ((n.work id).channel id).jobs = .deliver (n.server.audience id) m :: later := by
  rw [Network.work, hjobs]
  simp only [jobs_setJobs, if_true, and_true]
  rfl

/-- The handler has nothing left to do but to end its connection, if that. -/
theorem run_finish (hjobs : (n.channel id).jobs = .deliver [] m :: later)
    (hlater : later = [] ∨ later = Server.closing) :
    (Crowd.run n [.work id, .work id, .work id]).server =
      if later = [] then n.server else n.server.close id := by
  have hfirst : n.work id = n.setJobs id later := by rw [Network.work, hjobs]
  have hrun : Crowd.run n [.work id, .work id, .work id] = ((n.work id).work id).work id := rfl
  have hnext : ((n.setJobs id later).channel id).jobs = later := by rw [jobs_setJobs, if_pos rfl]
  have hidle : ∀ n' : Network Empty, (n'.channel id).jobs = [] → n'.work id = n' := by
    intro n' h
    rw [Network.work, h]
  rw [hrun, hfirst]
  rcases hlater with rfl | rfl
  · rw [hidle _ hnext, hidle _ hnext, if_pos rfl]
    rfl
  · have hsecond : (n.setJobs id Server.closing).work id =
        ({ n.setJobs id Server.closing with server := n.server.withdrawOwn id } : Network Empty).setJobs
          id [.forget] := by
      rw [Network.work, hnext]
      rfl
    have hlast : (((n.setJobs id Server.closing).work id).channel id).jobs = [.forget] := by
      rw [hsecond, jobs_setJobs, if_pos rfl]
    have hthird : ((n.setJobs id Server.closing).work id).work id =
        ({ (n.setJobs id Server.closing).work id with
          server := ((n.setJobs id Server.closing).work id).server.forget id } : Network Empty).setJobs
            id [] := by
      rw [Network.work, hlast]
    rw [hthird, if_neg (by simp [Server.closing]), hsecond]
    exact Server.forget_withdrawOwn n.server id

/-! ## The whole registration -/

/-- What the handler of `c` reads next is a registration that succeeds. -/
structure Registers (n : Network Empty) (c : Connection) (name : String) (directory : Directory)
    (others : List Peer) : Prop where
  found : n.server.connection? c.id = some c
  phase : c.phase = .registering
  idle : (n.channel c.id).jobs = []
  reads : ∃ line rest port, Line.read Line.maxSize (n.channel c.id).upEnded (n.channel c.id).up =
      .line line rest ∧ Text.trim line ≠ "" ∧ Command.parse line = .ok (.register name port) ∧
    n.server.directory.insert ⟨name, c.address, port⟩ (some c.id) = .ok (directory, others)

/-- What comes of it: for the registrant, with room for the reply or without, and for everybody else. -/
structure Welcomed (n n' : Network Empty) (c : Connection) (name : String) (directory : Directory)
    (others : List Peer) : Prop where
  entered : n.server.hasRoom c.id = true → n'.server.directory = directory ∧
    n'.server.connection? c.id =
      some { c with phase := .registered name, outbox := c.outbox ++ [.peerList others] }
  expelled : n.server.hasRoom c.id = false → n'.server.directory = n.server.directory ∧
    n'.server.connection? c.id = some { c with phase := .closed, unread := [] }
  kept : n.entries ⊆ n'.entries
  elsewhere : ∀ d, d.id ≠ c.id → n.server.connection? d.id = some d →
    n'.server.connection? d.id = some (d.notified (.newcomer name))

variable {name : String} {directory : Directory} {others : List Peer}

theorem Registers.read (h : n.Registers c name directory others) :
    (n.read c.id).server = n.server.entered c.id name directory ∧
      ((n.read c.id).channel c.id).jobs = [.reply (.peerList others), .announce (.newcomer name)] := by
  obtain ⟨line, rest, port, hread, hblank, hparse, hinsert⟩ := h.reads
  have hbegin : n.server.begin c (.text line) = (n.server.entered c.id name directory,
      [.reply (.peerList others), .announce (.newcomer name)]) := by
    simp only [Server.begin, if_neg hblank, hparse, Server.beginCommand, h.phase, Server.beginRegister,
      hinsert]
    rfl
  have htake : n.read c.id = n.take c (.text line) rest := by
    simp only [Network.read, h.found, hread, h.phase, h.idle]
    simp
  rw [htake, take, channel_onChannel, hbegin]
  exact ⟨rfl, rfl⟩

/-- The server, when the handler has done all. -/
theorem Registers.run (h : n.Registers c name directory others) (hp : n.Proper)
    {targets : List ConnectionId} (hperm : targets.Perm (n.server.audience c.id)) :
    (Crowd.run n (Crowd.registration c.id targets)).server =
      if n.server.hasRoom c.id then n.server.greeted c.id name directory others targets
      else (n.server.greeted c.id name directory others targets).close c.id := by
  obtain ⟨hs1, hj1⟩ := h.read
  obtain ⟨hs2, hj2⟩ := work_reply hj1
  rw [hs1] at hs2 hj2
  rw [Server.hasRoom_entered h.found] at hj2
  -- whether the reply is queued or not, the announcement is next
  obtain ⟨last, hlast, hj2⟩ : ∃ last, last = (if n.server.hasRoom c.id then [] else Server.closing) ∧
      (((n.read c.id).work c.id).channel c.id).jobs = .announce (.newcomer name) :: last := by
    refine ⟨_, rfl, hj2.trans ?_⟩
    split <;> rfl
  obtain ⟨hs3, hj3⟩ := work_announce hj2
  have haudience : ((n.read c.id).work c.id).server.audience c.id = n.server.audience c.id := by
    rw [hs2, Server.audience_queue, Server.audience_entered hp.tidy h.found h.phase]
  rw [haudience] at hj3
  obtain ⟨hs4, hj4⟩ := run_deliver hperm hj3
  have hends : last = [] ∨ last = Server.closing := by
    rw [hlast]
    split
    · exact .inl rfl
    · exact .inr rfl
  have hs5 := run_finish hj4 hends
  have hrun : Crowd.run n (Crowd.registration c.id targets) = Crowd.run (Crowd.run
      (((n.read c.id).work c.id).work c.id) (targets.map (.deliver c.id)))
        [.work c.id, .work c.id, .work c.id] := by
    rw [Crowd.registration, Crowd.run, List.foldl_append, List.foldl_append]
    rfl
  rw [hrun, hs5, hs4, hs3, hs2, hlast]
  by_cases hr : n.server.hasRoom c.id = true
  · simp only [hr, if_true]
    rfl
  · rw [if_neg hr, if_neg hr, if_neg (by simp [Server.closing])]
    rfl

/-- A registration that is not interrupted: all who have room get what is for them, and who has none
misses it. -/
theorem welcomed_registration (h : n.Registers c name directory others) (hp : n.Proper)
    {targets : List ConnectionId} (hperm : targets.Perm (n.server.audience c.id)) :
    Welcomed n (Crowd.run n (Crowd.registration c.id targets)) c name directory others := by
  obtain ⟨line, rest, port, -, -, -, hinsert⟩ := h.reads
  have hserver := h.run hp hperm
  generalize Crowd.run n (Crowd.registration c.id targets) = n' at hserver
  have hself : (n.server.greeted c.id name directory others targets).connection? c.id =
      some { c with
        phase := .registered name
        outbox := if n.server.hasRoom c.id then c.outbox ++ [.peerList others] else c.outbox } :=
    Server.greeted_self hp.tidy h.found hperm
  have hother : ∀ d, d.id ≠ c.id → n.server.connection? d.id = some d →
      (n.server.greeted c.id name directory others targets).connection? d.id =
        some (d.notified (.newcomer name)) := fun d hd hfound =>
    Server.greeted_other hp.tidy h.found hperm hd hfound
      (hp.writable d (Server.connection?_mem hfound).1)
  by_cases hr : n.server.hasRoom c.id = true
  · rw [if_pos hr] at hserver hself
    refine ⟨fun _ => ⟨by rw [hserver, Server.directory_greeted], by rw [hserver, hself]⟩,
      fun hno => absurd (hr.symm.trans hno) (by simp), fun e he => ?_, fun d hd hfound => ?_⟩
    · obtain ⟨-, -, hplace, -⟩ := Directory.insert_eq_ok hinsert
      rw [entries, hserver, Server.directory_greeted, hplace]
      exact Directory.mem_place.mpr (.inr he)
    · rw [hserver]
      exact hother d hd hfound
  · rw [if_neg hr] at hserver hself
    have hback : n'.server.directory = n.server.directory := by
      rw [hserver, Server.directory_close hself rfl, Server.directory_greeted]
      exact Directory.eraseOwned_insert hp.tidy.inOrder.namesUnique hinsert
    refine ⟨fun hyes => absurd hyes hr, fun _ => ⟨hback, ?_⟩, fun e he => ?_, fun d hd hfound => ?_⟩
    · rw [hserver, Server.connection?_close, if_pos rfl, hself]
      rfl
    · rw [entries, hback]
      exact he
    · rw [hserver, Server.connection?_close, if_neg hd]
      exact hother d hd hfound

end Network

end PeerChat
