import PeerChat.Proofs.Outbox.Accounts

/-!
# Behind the veil

Whatever slow clients have not read is nobody else's business.  The veil hides their outboxes, and what
was queued and written for them, and shows all the rest: the directory, the phases of all connections,
what the handlers are to do, and everything about everybody else.  A step does under the veil what it
does without (`veil_step`), unless the handler of a slow client comes to a direct reply; so two networks
that look the same stay so (`veil_run`).
-/

namespace PeerChat

variable {slow : List ConnectionId}

def Connection.veil (slow : List ConnectionId) (c : Connection) : Connection :=
  if c.id ∈ slow then { c with outbox := [] } else c

def Channel.veil (ch : Channel) : Channel := { ch with down := [], told := [] }

def Server.veil (slow : List ConnectionId) (s : Server) : Server :=
  { s with connections := s.connections.map (Connection.veil slow) }

/-- What is left to see of a network if the slow clients' outboxes, and what came of them, are hidden. -/
def Network.veil {ι : Type} (slow : List ConnectionId) (n : Network ι) : Network ι :=
  { n with
    server := n.server.veil slow
    channel := fun id => if id ∈ slow then (n.channel id).veil else n.channel id
    intact := true }

namespace Connection

variable {c : Connection}

@[simp] theorem veil_id : (c.veil slow).id = c.id := by
  rw [veil]
  split <;> rfl

@[simp] theorem veil_phase : (c.veil slow).phase = c.phase := by
  rw [veil]
  split <;> rfl

@[simp] theorem veil_writable : (c.veil slow).writable = c.writable := by
  rw [veil]
  split <;> rfl

@[simp] theorem veil_address : (c.veil slow).address = c.address := by
  rw [veil]
  split <;> rfl

theorem veil_of_mem (h : c.id ∈ slow) : c.veil slow = { c with outbox := [] } := if_pos h

theorem veil_of_not_mem (h : c.id ∉ slow) : c.veil slow = c := if_neg h

@[simp] theorem veil_veil : (c.veil slow).veil slow = c.veil slow := by
  by_cases h : c.id ∈ slow
  · rw [veil_of_mem (c := c.veil slow) (by rwa [veil_id]), veil_of_mem h]
  · rw [veil_of_not_mem (c := c.veil slow) (by rwa [veil_id])]

end Connection

namespace Server

variable {s : Server} {id : ConnectionId} {c : Connection}

@[simp] theorem veil_directory : (s.veil slow).directory = s.directory := rfl

@[simp] theorem veil_veil : (s.veil slow).veil slow = s.veil slow := by
  have hmap : (s.connections.map (Connection.veil slow)).map (Connection.veil slow) =
      s.connections.map (Connection.veil slow) := by
    rw [List.map_map]
    exact List.map_congr_left fun c _ => Connection.veil_veil
  rw [veil, veil, hmap]

theorem connection?_veil : (s.veil slow).connection? id = (s.connection? id).map (Connection.veil slow) := by
  rw [connection?, veil, List.find?_map]
  congr 2
  funext c
  rw [Function.comp_apply, Connection.veil_id]

theorem hasRoom_veil (h : id ∉ slow) : (s.veil slow).hasRoom id = s.hasRoom id := by
  rw [hasRoom, hasRoom, connection?_veil]
  cases hc : s.connection? id with
  | none => rfl
  | some c => rw [Option.map_some, Connection.veil_of_not_mem (connection?_id hc ▸ h)]

theorem audience_veil (except : ConnectionId) : (s.veil slow).audience except = s.audience except := by
  have hopen : (s.veil slow).openConnections = s.openConnections.map (Connection.veil slow) := by
    rw [openConnections, openConnections, veil, List.filter_map]
    simp only [Function.comp_def, Connection.veil_phase]
  rw [audience, audience, hopen, List.map_map]
  simp only [Function.comp_def, Connection.veil_id]

/-- What is done to a connection is seen through the veil, if it has nothing to do with what is hidden. -/
theorem veil_update {f : Connection → Connection}
    (hf : ∀ c, c.id = id → (f c).veil slow = f (c.veil slow)) :
    (s.update id f).veil slow = (s.veil slow).update id f := by
  have hmap : (s.connections.map fun c => if c.id = id then f c else c).map (Connection.veil slow) =
      (s.connections.map (Connection.veil slow)).map fun c => if c.id = id then f c else c := by
    rw [List.map_map, List.map_map]
    refine List.map_congr_left fun c _ => ?_
    rw [Function.comp_apply, Function.comp_apply, Connection.veil_id]
    by_cases h : c.id = id
    · rw [if_pos h, if_pos h, hf c h]
    · rw [if_neg h, if_neg h]
  rw [veil, update, hmap]
  rfl

/-- What is done to the outbox of a slow client is hidden. -/
theorem veil_update_of_mem (h : id ∈ slow) (f : List ServerMessage → List ServerMessage) :
    (s.update id fun c => { c with outbox := f c.outbox }).veil slow = s.veil slow := by
  have hmap : (s.connections.map fun c =>
        if c.id = id then { c with outbox := f c.outbox } else c).map (Connection.veil slow) =
      s.connections.map (Connection.veil slow) := by
    rw [List.map_map]
    refine List.map_congr_left fun c _ => ?_
    rw [Function.comp_apply]
    by_cases hc : c.id = id
    · rw [if_pos hc, Connection.veil_of_mem (by exact hc ▸ h), Connection.veil_of_mem (by exact hc ▸ h)]
    · rw [if_neg hc]
  rw [veil, veil, update, hmap]

/-- What is done to the outbox of anybody else is not. -/
theorem veil_update_of_not_mem (h : id ∉ slow) (f : List ServerMessage → List ServerMessage) :
    (s.update id fun c => { c with outbox := f c.outbox }).veil slow =
      (s.veil slow).update id fun c => { c with outbox := f c.outbox } := by
  refine veil_update fun c hc => ?_
  rw [Connection.veil_of_not_mem (c := c) (hc ▸ h), Connection.veil_of_not_mem]
  exact hc ▸ h

theorem veil_update_veil (h : id ∉ slow) (f : List ServerMessage → List ServerMessage) :
    (s.update id fun c => { c with outbox := f c.outbox }).veil slow =
      ((s.veil slow).update id fun c => { c with outbox := f c.outbox }).veil slow := by
  rw [veil_update_of_not_mem h f, veil_update_of_not_mem h f, veil_veil]

theorem veil_setPhase (phase : Phase) :
    (s.update id fun c => { c with phase }).veil slow =
      (s.veil slow).update id fun c => { c with phase } := by
  refine veil_update fun c _ => ?_
  rw [Connection.veil, Connection.veil]
  simp only []
  split <;> rfl

theorem veil_forget : (s.forget id).veil slow = (s.veil slow).forget id := by
  refine veil_update fun c _ => ?_
  rw [Connection.veil, Connection.veil]
  simp only []
  split <;> rfl

theorem veil_withdraw (c : Connection) :
    (s.withdraw c).veil slow = (s.veil slow).withdraw (c.veil slow) := by
  rw [withdraw, withdraw, Connection.veil_phase, Connection.veil_id]
  split <;> rfl

theorem veil_withdrawOwn : (s.withdrawOwn id).veil slow = (s.veil slow).withdrawOwn id := by
  rw [withdrawOwn, withdrawOwn, connection?_veil]
  cases s.connection? id with
  | none => rfl
  | some c => exact veil_withdraw c

theorem veil_accept (address : IpAddress) :
    (s.accept address).veil slow = (s.veil slow).accept address := by
  have hnew : Connection.veil slow ⟨s.nextId, address, .registering, [], [], true⟩ =
      ⟨s.nextId, address, .registering, [], [], true⟩ := by
    rw [Connection.veil]
    split <;> rfl
  rw [veil, accept, List.map_append, List.map_singleton, hnew]
  rfl

theorem begin_veil (c : Connection) (item : Line.Item) :
    (s.veil slow).begin (c.veil slow) item = ((s.begin c item).1.veil slow, (s.begin c item).2) := by
  have hregister : ∀ name port, (s.veil slow).beginRegister (c.veil slow) name port =
      ((s.beginRegister c name port).1.veil slow, (s.beginRegister c name port).2) := by
    intro name port
    rw [beginRegister, beginRegister, Connection.veil_address, Connection.veil_id, veil_directory]
    split
    · rw [veil_setPhase]
      rfl
    · rfl
    · rfl
  cases item with
  | tooLong => rfl
  | ended => rfl
  | text line =>
    rw [begin, begin]
    split
    · rfl
    · split
      · unfold beginCommand
        rw [Connection.veil_phase]
        split
        · exact hregister _ _
        · rfl
        · rfl
        · rfl
        · rfl
      · rfl

end Server

namespace Network

variable {n n' : Network Empty} {id target : ConnectionId}

theorem channel_veil_of_mem (h : id ∈ slow) : (n.veil slow).channel id = (n.channel id).veil := if_pos h

theorem channel_veil_of_not_mem (h : id ∉ slow) : (n.veil slow).channel id = n.channel id := if_neg h

theorem veil_congr (hs : n'.server.veil slow = n.server.veil slow) (hh : n'.holder = n.holder)
    (hslow : ∀ k ∈ slow, (n'.channel k).veil = (n.channel k).veil)
    (hother : ∀ k, k ∉ slow → n'.channel k = n.channel k) : n'.veil slow = n.veil slow := by
  have hchannel : (n'.veil slow).channel = (n.veil slow).channel := by
    funext k
    by_cases hk : k ∈ slow
    · rw [channel_veil_of_mem hk, channel_veil_of_mem hk, hslow k hk]
    · rw [channel_veil_of_not_mem hk, channel_veil_of_not_mem hk, hother k hk]
  have hrest : n'.address = n.address ∧ n'.client = n.client ∧ n'.place = n.place :=
    ⟨Subsingleton.elim _ _, Subsingleton.elim _ _, Subsingleton.elim _ _⟩
  rw [veil, veil] at hchannel ⊢
  simp only [Network.mk.injEq]
  exact ⟨hrest.1, hs, hchannel, hrest.2.1, hrest.2.2, hh, trivial⟩

theorem veil_veil (n : Network Empty) : (n.veil slow).veil slow = n.veil slow :=
  veil_congr Server.veil_veil rfl (fun k hk => by rw [channel_veil_of_mem hk]; rfl)
    fun k hk => channel_veil_of_not_mem hk

@[simp] theorem jobs_veil : ((n.veil slow).channel id).jobs = (n.channel id).jobs := by
  simp only [veil]
  split <;> rfl

@[simp] theorem up_veil : ((n.veil slow).channel id).up = (n.channel id).up := by
  simp only [veil]
  split <;> rfl

@[simp] theorem upEnded_veil : ((n.veil slow).channel id).upEnded = (n.channel id).upEnded := by
  simp only [veil]
  split <;> rfl

/-! ## Handlers -/

/-- What is done to the server and to one channel is seen through the veil. -/
theorem veil_acts {s t : Server} {f : Channel → Channel} (hs : s.veil slow = t.veil slow)
    (hf : ∀ ch, (f ch).veil = (f ch.veil).veil) (i j : Bool) :
    (({ n with server := s, intact := i } : Network Empty).onChannel id f).veil slow =
      (({ n.veil slow with server := t, intact := j } : Network Empty).onChannel id f).veil slow := by
  refine veil_congr hs rfl (fun k hk => ?_) fun k hk => ?_
  · by_cases hid : k = id
    · subst hid
      rw [channel_onChannel, channel_onChannel, hf]
      exact (congrArg (fun ch => (f ch).veil) (channel_veil_of_mem hk)).symm
    · rw [channel_onChannel_of_ne _ _ hid, channel_onChannel_of_ne _ _ hid]
      exact (congrArg Channel.veil (channel_veil_of_mem hk)).symm
  · by_cases hid : k = id
    · subst hid
      rw [channel_onChannel, channel_onChannel]
      exact (congrArg f (channel_veil_of_not_mem hk)).symm
    · rw [channel_onChannel_of_ne _ _ hid, channel_onChannel_of_ne _ _ hid]
      exact (channel_veil_of_not_mem hk).symm

/-- What is done to the outbox of a slow client, and to what was queued and written for it, is hidden. -/
theorem veil_hidden {s : Server} {f : Channel → Channel} (h : id ∈ slow)
    (hs : s.veil slow = n.server.veil slow) (hf : ∀ ch, (f ch).veil = ch.veil) :
    (({ n with server := s } : Network Empty).onChannel id f).veil slow = n.veil slow := by
  refine veil_congr hs rfl (fun k _ => ?_) fun k hk => ?_
  · by_cases hid : k = id
    · subst hid
      rw [channel_onChannel, hf]
    · rw [channel_onChannel_of_ne _ _ hid]
  · exact channel_onChannel_of_ne _ _ fun hid => hk (hid ▸ h)

theorem veil_setJobs (jobs : List Job) :
    (n.setJobs id jobs).veil slow = ((n.veil slow).setJobs id jobs).veil slow :=
  veil_acts (s := n.server) (t := n.server.veil slow) Server.veil_veil.symm (fun _ => rfl) n.intact true

theorem veil_queue_of_mem (h : id ∈ slow) (m : ServerMessage) :
    (n.queue id m).veil slow = n.veil slow := by
  unfold Network.queue
  split
  · rename_i hr
    refine veil_hidden h ?_ fun _ => rfl
    rw [Server.queue, if_pos hr]
    exact Server.veil_update_of_mem h fun out => out ++ [m]
  · rfl

theorem veil_queue (m : ServerMessage) :
    (n.queue id m).veil slow = ((n.veil slow).queue id m).veil slow := by
  by_cases h : id ∈ slow
  · rw [veil_queue_of_mem h, veil_queue_of_mem h, veil_veil]
  · have hroom : (n.veil slow).server.hasRoom id = n.server.hasRoom id := Server.hasRoom_veil h
    rw [Network.queue, Network.queue, hroom]
    split
    · rename_i hr
      have hserver : (n.server.queue id m).veil slow = ((n.veil slow).server.queue id m).veil slow := by
        rw [Server.queue, if_pos hr, Server.queue, hroom, if_pos hr]
        exact Server.veil_update_veil h fun out => out ++ [m]
      exact veil_acts hserver (fun _ => rfl) n.intact true
    · exact (veil_veil n).symm

theorem veil_setJobs_queue (jobs : List Job) (m : ServerMessage) :
    ((n.setJobs id jobs).queue target m).veil slow =
      (((n.veil slow).setJobs id jobs).queue target m).veil slow := by
  rw [veil_queue, veil_setJobs, ← veil_queue]

theorem veil_take (c : Connection) (item : Line.Item) (rest : Bytes) :
    (n.take c item rest).veil slow = ((n.veil slow).take (c.veil slow) item rest).veil slow := by
  have hbegin : (n.veil slow).server.begin (c.veil slow) item =
      ((n.server.begin c item).1.veil slow, (n.server.begin c item).2) := Server.begin_veil c item
  rw [take, take, hbegin, Connection.veil_id]
  exact veil_acts Server.veil_veil.symm (fun _ => rfl) n.intact true

theorem veil_read : (n.read id).veil slow = ((n.veil slow).read id).veil slow := by
  have hconn : (n.veil slow).server.connection? id =
      (n.server.connection? id).map (Connection.veil slow) := Server.connection?_veil
  rw [Network.read, Network.read, hconn]
  cases hc : n.server.connection? id with
  | none => exact (veil_veil n).symm
  | some c =>
    simp only [Option.map_some, Connection.veil_phase, jobs_veil, up_veil, upEnded_veil]
    split
    · exact (veil_veil n).symm
    · split
      · exact veil_take _ _ _
      · exact veil_take _ _ _
      · exact veil_take _ _ _
      · exact (veil_veil n).symm

theorem veil_work (hq : id ∈ slow → ∀ m later, (n.channel id).jobs ≠ .reply m :: later) :
    (n.work id).veil slow = ((n.veil slow).work id).veil slow := by
  have hsame : n.server.veil slow = (n.server.veil slow).veil slow := Server.veil_veil.symm
  rw [Network.work, Network.work, jobs_veil]
  cases hjobs : (n.channel id).jobs with
  | nil => exact (veil_veil n).symm
  | cons job later =>
    cases job with
    | reply m =>
      have hid : id ∉ slow := fun hid => hq hid m later hjobs
      have hroom : (n.veil slow).server.hasRoom id = n.server.hasRoom id := Server.hasRoom_veil hid
      simp only [hroom]
      split
      · exact veil_setJobs_queue later m
      · exact veil_acts hsame (fun _ => rfl) false false
    | announce m =>
      have haudience : (n.veil slow).server.audience id = n.server.audience id := Server.audience_veil id
      simp only [haudience]
      exact veil_setJobs _
    | deliver ids m =>
      cases ids with
      | nil => exact veil_setJobs later
      | cons k ids => exact (veil_veil n).symm
    | withdraw =>
      refine veil_acts (s := n.server.withdrawOwn id) ?_ (fun _ => rfl) n.intact true
      change (n.server.withdrawOwn id).veil slow = ((n.server.veil slow).withdrawOwn id).veil slow
      rw [Server.veil_withdrawOwn, Server.veil_withdrawOwn, Server.veil_veil]
    | forget =>
      refine veil_acts (s := n.server.forget id) ?_ (fun _ => rfl) n.intact true
      change (n.server.forget id).veil slow = ((n.server.veil slow).forget id).veil slow
      rw [Server.veil_forget, Server.veil_forget, Server.veil_veil]

theorem veil_deliver : (n.deliver id target).veil slow = ((n.veil slow).deliver id target).veil slow := by
  rw [Network.deliver, Network.deliver, jobs_veil]
  split
  · split
    · exact veil_setJobs_queue _ _
    · exact (veil_veil n).symm
  · exact (veil_veil n).symm

theorem veil_write_of_mem (h : id ∈ slow) : (n.write id).veil slow = n.veil slow := by
  unfold Network.write
  split
  · split
    · exact veil_hidden h (Server.veil_update_of_mem h fun out => out.drop 1) fun _ => rfl
    · rfl
  · rfl

theorem veil_write : (n.write id).veil slow = ((n.veil slow).write id).veil slow := by
  by_cases h : id ∈ slow
  · rw [veil_write_of_mem h, veil_write_of_mem h, veil_veil]
  · have hconn : (n.veil slow).server.connection? id = n.server.connection? id := by
      change (n.server.veil slow).connection? id = _
      rw [Server.connection?_veil]
      cases hc : n.server.connection? id with
      | none => rfl
      | some c => rw [Option.map_some, Connection.veil_of_not_mem (Server.connection?_id hc ▸ h)]
    rw [Network.write, Network.write, hconn]
    split
    · split
      · refine veil_acts (s := n.server.unqueue id) ?_ (fun _ => rfl) n.intact true
        exact Server.veil_update_veil h fun out => out.drop 1
      · exact (veil_veil n).symm
    · exact (veil_veil n).symm

theorem veil_onStranger {f : Channel → Channel} (hf : ∀ ch, (f ch).veil = (f ch.veil).veil) :
    (n.onStranger id f).veil slow = ((n.veil slow).onStranger id f).veil slow := by
  have hconn : ((n.veil slow).server.connection? id).isSome = (n.server.connection? id).isSome := by
    change ((n.server.veil slow).connection? id).isSome = _
    rw [Server.connection?_veil, Option.isSome_map]
  rw [onStranger, onStranger, hconn, show (n.veil slow).holder id = n.holder id from rfl]
  split
  · exact veil_acts (s := n.server) Server.veil_veil.symm hf n.intact true
  · exact (veil_veil n).symm

/-! ## Steps -/

/-- The step is not that the handler of a slow client comes to a direct reply. -/
def Quiet (slow : List ConnectionId) (n : Network Empty) : Crowd.Step Empty → Prop
  | .work id => id ∈ slow → ∀ m later, (n.channel id).jobs ≠ .reply m :: later
  | _ => True

theorem veil_step {f : Crowd.Step Empty} (hq : n.Quiet slow f) :
    (Crowd.step n f).veil slow = (Crowd.step (n.veil slow) f).veil slow := by
  cases f with
  | event i | move i | connect i | unreachable i | arrive i | finish i | fail i | clog i => exact i.elim
  | read id => exact veil_read
  | work id => exact veil_work hq
  | deliver id target => exact veil_deliver
  | write id => exact veil_write
  | drop id =>
    have hconn : ((n.veil slow).server.connection? id).isSome = (n.server.connection? id).isSome := by
      change ((n.server.veil slow).connection? id).isSome = _
      rw [Server.connection?_veil, Option.isSome_map]
    simp only [Crowd.step, hconn]
    split
    · simp only [Network.step, jobs_veil]
      exact veil_acts (s := n.server) Server.veil_veil.symm (fun _ => rfl) false false
    · exact (veil_veil n).symm
  | spurn id =>
    simp only [Crowd.step, Network.spurn, jobs_veil]
    split
    · exact veil_setJobs _
    · exact (veil_veil n).symm
  | miss id target =>
    simp only [Crowd.step, Network.miss, jobs_veil]
    split
    · exact veil_setJobs _
    · exact (veil_veil n).symm
  | enter address =>
    refine veil_congr ?_ rfl (fun k hk => ?_) fun k hk => ?_
    · change (n.server.accept address).veil slow = ((n.server.veil slow).accept address).veil slow
      rw [Server.veil_accept, Server.veil_accept, Server.veil_veil]
    · exact (congrArg Channel.veil (channel_veil_of_mem hk)).symm
    · exact (channel_veil_of_not_mem hk).symm
  | say id bytes => exact veil_onStranger fun _ => rfl
  | hangUp id => exact veil_onStranger fun _ => rfl

/-- In a run, no handler of a slow client comes to a direct reply. -/
def Unanswered (slow : List ConnectionId) (n : Network Empty) : List (Crowd.Step Empty) → Prop
  | [] => True
  | f :: later => n.Quiet slow f ∧ Unanswered slow (Crowd.step n f) later

theorem jobs_of_veil (h : n'.veil slow = n.veil slow) (id : ConnectionId) :
    (n'.channel id).jobs = (n.channel id).jobs := by
  calc (n'.channel id).jobs = ((n'.veil slow).channel id).jobs := jobs_veil.symm
    _ = (n.channel id).jobs := by rw [h, jobs_veil]

theorem Quiet.of_veil {f : Crowd.Step Empty} (hq : n.Quiet slow f) (h : n'.veil slow = n.veil slow) :
    n'.Quiet slow f := by
  cases f with
  | work id =>
    intro hid m later
    rw [jobs_of_veil h]
    exact hq hid m later
  | _ => trivial

/-- What looks the same behind the veil goes on to look the same. -/
theorem veil_step_congr {f : Crowd.Step Empty} (hq : n.Quiet slow f) (h : n'.veil slow = n.veil slow) :
    (Crowd.step n' f).veil slow = (Crowd.step n f).veil slow := by
  rw [veil_step hq, veil_step (hq.of_veil h), h]

end Network

end PeerChat
