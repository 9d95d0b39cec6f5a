import PeerChat.Proofs.Crowd.Invariant
import PeerChat.Proofs.Network.Reading

/-!
# What the handlers do in a crowd

Whatever a handler does, and whatever it fails to do, keeps the crowd civil.  It reads what anybody has
said: of a client, only commands that it takes (`Civil.read_held`), of a stranger, anything.
-/

namespace PeerChat.Network

variable {ι : Type} {n n' : Network ι} {i : ι} {id target : ConnectionId} {c c' : Connection}
  {job : Job} {later jobs : List Job} {m : ServerMessage}

/-- The network may have lost something. -/
theorem Civil.lost (h : n.Civil) (intact : Bool) : ({ n with intact } : Network ι).Civil :=
  ⟨h.ids, h.fresh, h.jobs, h.peers, h.clients, h.places, h.served,
    fun i => (h.attached i).frame rfl rfl fun _ _ => ⟨rfl, rfl⟩⟩

/-- A handler has come to other jobs, and nothing else has been done at its connection. -/
theorem Follows.of_jobs (hch : n'.channel c.id = { n.channel c.id with jobs }) (hid : c'.id = c.id)
    (hout : c'.outbox = c.outbox)
    (hserved : ∀ {up : Bytes} {told : List ServerMessage},
      Served c.phase up (n.channel c.id).jobs told → Served c'.phase up jobs told)
    (hterms : ∀ {up coming : Bytes} {stand : Stand},
      Terms c.phase up (n.channel c.id).jobs coming stand → Terms c'.phase up jobs coming stand) :
    n.Follows n' c c' := by
  have hcoming : n'.coming c' = n.coming c := by rw [coming, coming, hid, hch, hout]
  refine ⟨?_, fun stand => ?_⟩
  · rw [hch]
    exact hserved
  · rw [hcoming, hch]
    exact hterms

/-! ## Jobs -/

/-- A handler does a job that says nothing to its own client; or will do no more than end. -/
theorem Civil.works (h : n.Civil) {s : Server} (hjobs : (n.channel id).jobs = job :: later)
    (hhead : ∀ m, job ≠ .reply m) (hvalid : ∀ job' ∈ jobs, job'.Valid)
    (hr : Job.replies jobs = Job.replies (job :: later)) (hnext : s.nextId = n.server.nextId)
    (hknown : s.connections.map (·.id) = n.server.connections.map (·.id))
    (hconn : ∀ j, j ≠ id → s.connection? j = n.server.connection? j)
    (hentries : s.directory.entries ⊆ n.entries)
    (hc' : ∀ c, n.server.connection? id = some c → ∃ c', s.connection? id = some c' ∧ c'.id = c.id ∧
      c'.outbox = c.outbox ∧
        (Doomed c'.phase jobs ∨ c'.phase = c.phase ∧ (.forget ∈ job :: later → .forget ∈ jobs))) :
    (({ n with server := s } : Network ι).setJobs id jobs).Civil := by
  obtain ⟨c, hc⟩ := h.exists_of_busy hjobs
  obtain ⟨c', hconn', hid, hout, hphase⟩ := hc' c hc
  obtain rfl := Server.connection?_id hc
  have hserves : Serves [c.id] n (({ n with server := s } : Network ι).setJobs c.id jobs) :=
    (Serves.setServer n (List.mem_singleton.mpr rfl) hnext hknown hconn).trans
      (.setJobs _ (List.mem_singleton.mpr rfl) jobs)
  have hchannel : (({ n with server := s } : Network ι).setJobs c.id jobs).channel c.id =
      { n.channel c.id with jobs } := channel_setJobs jobs
  refine h.serves_one hserves hc ?_ (fun e he => h.peers e (hentries he)) hconn' fun i _ => ?_
  · rw [hchannel]
    exact hvalid
  · refine .of_jobs hchannel hid hout (fun hs => ?_) fun ht => ?_
    · rw [hjobs] at hs
      have hpending : .invalidCommand ∉ Job.replies jobs := hr ▸ hs.pending
      rcases hphase with hd | ⟨hp, hf⟩
      · exact hs.works (fun _ => hd) (.inl hd) hpending hs.answered
      · rw [hp]
        exact hs.works (Or.imp_right hf) (.inr ⟨rfl, by simp⟩) hpending hs.answered
    · rw [hjobs] at ht
      rcases hphase with hd | ⟨hp, hf⟩
      · exact ht.doomed hd hr
      · rw [hp]
        exact ht.works hhead hr hf

/-- The same, where nothing is done at the server. -/
theorem Civil.setJobs (h : n.Civil) (hjobs : (n.channel id).jobs = job :: later)
    (hhead : ∀ m, job ≠ .reply m) (hvalid : ∀ job' ∈ jobs, job'.Valid)
    (hr : Job.replies jobs = Job.replies (job :: later))
    (hf : .forget ∈ job :: later → .forget ∈ jobs) : (n.setJobs id jobs).Civil :=
  h.works (s := n.server) hjobs hhead hvalid hr rfl rfl (fun _ _ => rfl) (fun _ he => he)
    fun c hc => ⟨c, hc, rfl, rfl, .inr ⟨rfl, hf⟩⟩

theorem Civil.valid_jobs (h : n.Civil) (hjobs : (n.channel id).jobs = job :: later) :
    job.Valid ∧ ∀ job' ∈ later, job'.Valid := List.forall_mem_cons.mp (hjobs ▸ h.jobs id)

/-- A reply is queued. -/
theorem Civil.replies (h : n.Civil) (hjobs : (n.channel id).jobs = .reply m :: later)
    (hr : n.server.hasRoom id = true) : ((n.setJobs id later).queue id m).Civil := by
  obtain ⟨c, hc⟩ := h.exists_of_busy hjobs
  obtain rfl := Server.connection?_id hc
  obtain ⟨hserves, hchannel, hconn, hentries⟩ := replies_spec hr m later
  generalize (n.setJobs c.id later).queue c.id m = n' at hserves hchannel hconn hentries
  have hdown : (n'.channel c.id).down = (n.channel c.id).down := by rw [hchannel]
  refine h.serves_one hserves hc ?_ (fun e he => h.peers e (hentries ▸ he)) (hconn c hc) fun i _ => ?_
  · rw [hchannel]
    exact (h.valid_jobs hjobs).2
  · refine ⟨fun hs => ?_, fun stand ht => ?_⟩
    · rw [hjobs] at hs
      obtain ⟨hnow, hlater⟩ := not_or.mp (List.mem_cons.not.mp hs.pending)
      rw [hchannel]
      refine hs.works (fun hd => hd.tail (by simp)) (.inr ⟨rfl, by simp⟩) hlater ?_
      exact List.mem_append.not.mpr (not_or.mpr ⟨hs.answered, List.mem_singleton.not.mpr hnow⟩)
    · rw [hjobs] at ht
      rw [coming_append hdown, hchannel]
      exact ht.answer

/-- A reply cannot be queued. -/
theorem Civil.spurns (h : n.Civil) (hjobs : (n.channel id).jobs = .reply m :: later) :
    (n.setJobs id (later ++ Server.closing)).Civil := by
  obtain ⟨c, hc⟩ := h.exists_of_busy hjobs
  obtain rfl := Server.connection?_id hc
  refine h.serves_one (.setJobs n (List.mem_singleton.mpr rfl) _) hc ?_ h.peers hc fun i _ => ?_
  · rw [channel_setJobs]
    exact List.forall_mem_append.mpr ⟨(h.valid_jobs hjobs).2, Job.valid_closing⟩
  · have hd := doomed_closing c.phase later
    refine .of_jobs (channel_setJobs _) rfl rfl (fun hs => ?_) fun ht => ?_
    · rw [hjobs] at hs
      refine hs.works (fun _ => hd) (.inl hd) ?_ hs.answered
      rw [Job.replies_append_closing]
      exact (not_or.mp (List.mem_cons.not.mp hs.pending)).2
    · rw [hjobs] at ht
      exact ht.spurns

theorem Civil.work (h : n.Civil) (id : ConnectionId) : (n.work id).Civil := by
  unfold Network.work
  split
  · rename_i m later hjobs
    split
    · rename_i hr
      exact h.replies hjobs hr
    · exact (h.lost false).spurns hjobs
  · rename_i m later hjobs
    obtain ⟨hm, hlater⟩ := h.valid_jobs hjobs
    have hnew : (Job.deliver (n.server.audience id) m).Valid := hm
    refine h.setJobs hjobs (by simp) (List.forall_mem_cons.mpr ⟨hnew, hlater⟩) rfl fun hf => ?_
    exact List.mem_cons_of_mem _ ((List.mem_cons.mp hf).resolve_left (by simp))
  · rename_i m later hjobs
    exact h.setJobs hjobs (by simp) (h.valid_jobs hjobs).2 rfl
      fun hf => (List.mem_cons.mp hf).resolve_left (by simp)
  · exact h
  · rename_i later hjobs
    refine h.works hjobs (by simp) (h.valid_jobs hjobs).2 rfl Server.nextId_withdrawOwn ?_
      (fun j _ => Server.connection?_withdrawOwn) Server.entries_withdrawOwn_subset fun c hc => ?_
    · rw [Server.connections_withdrawOwn]
    · refine ⟨c, Server.connection?_withdrawOwn.trans hc, rfl, rfl, .inr ⟨rfl, fun hf => ?_⟩⟩
      exact (List.mem_cons.mp hf).resolve_left (by simp)
  · rename_i later hjobs
    refine h.works hjobs (by simp) (h.valid_jobs hjobs).2 rfl rfl (Server.ids_update fun c => rfl)
      (fun j hj => ?_) (fun e he => he) fun c hc => ?_
    · rw [Server.forget, Server.connection?_update (by exact fun c => rfl), if_neg hj]
    · refine ⟨_, Server.connection?_update_self (by exact fun c => rfl) hc, rfl, rfl, ?_⟩
      exact .inl (.inl rfl)
  · exact h

theorem Civil.spurn (h : n.Civil) (id : ConnectionId) : (n.spurn id).Civil := by
  unfold Network.spurn
  split
  · rename_i m later hjobs
    exact h.spurns hjobs
  · exact h

/-! ## Notices -/

/-- A handler has one less to give its notice. -/
theorem Civil.passes (h : n.Civil) {ids : List ConnectionId}
    (hjobs : (n.channel id).jobs = .deliver ids m :: later) (target : ConnectionId) :
    (n.setJobs id (.deliver (ids.erase target) m :: later)).Civil := by
  obtain ⟨hm, hlater⟩ := h.valid_jobs hjobs
  have hnew : (Job.deliver (ids.erase target) m).Valid := hm
  refine h.setJobs hjobs (by simp) (List.forall_mem_cons.mpr ⟨hnew, hlater⟩) rfl fun hf => ?_
  exact List.mem_cons_of_mem _ ((List.mem_cons.mp hf).resolve_left (by simp))

theorem Civil.miss (h : n.Civil) (id target : ConnectionId) : (n.miss id target).Civil := by
  unfold Network.miss
  split
  · rename_i ids m later hjobs
    exact h.passes hjobs target
  · exact h

/-- A notice is queued, or there is no room for it. -/
theorem Civil.notifies (h : n.Civil) {name : String} (hname : isName name = true)
    (target : ConnectionId) : (n.queue target (.newcomer name)).Civil := by
  rcases Bool.eq_false_or_eq_true (n.server.hasRoom target) with hr | hr
  · obtain ⟨c, hc⟩ := exists_of_hasRoom hr
    obtain rfl := Server.connection?_id hc
    have hserves := Serves.queue (m := .newcomer name) n (List.mem_singleton.mpr rfl) hr
    have hchannel := channel_queue (m := .newcomer name) hr
    have hconn := connection?_queue (m := .newcomer name) hr hc
    have hentries := entries_queue (m := .newcomer name) hr
    generalize n.queue c.id (.newcomer name) = n' at hserves hchannel hconn hentries
    have hdown : (n'.channel c.id).down = (n.channel c.id).down := by rw [hchannel]
    refine h.serves_one hserves hc ?_ (fun e he => h.peers e (hentries ▸ he)) hconn fun i _ => ?_
    · rw [hchannel]
      exact h.jobs c.id
    · refine ⟨fun hs => ?_, fun stand ht => ?_⟩
      · rw [hchannel]
        exact ⟨hs.sent, hs.pending, by simpa using hs.answered⟩
      · rw [coming_append hdown, hchannel]
        exact ht.notice hname
  · rw [Network.queue, if_neg (by simp [hr])]
    exact h.lost false

theorem Civil.deliver (h : n.Civil) (id target : ConnectionId) : (n.deliver id target).Civil := by
  unfold Network.deliver
  split
  · rename_i ids m later hjobs
    split
    · obtain ⟨name, rfl, hname⟩ : (Job.deliver ids m).Valid := (h.valid_jobs hjobs).1
      exact (h.passes hjobs target).notifies hname target
    · exact h
  · exact h

/-! ## The connection -/

theorem Civil.write (h : n.Civil) (id : ConnectionId) : (n.write id).Civil := by
  rcases n.write_cases id with hn | ⟨c, m, rest, hc, hserves, hconn, hchannel, hentries, hcoming⟩
  · rw [hn]
    exact h
  · obtain rfl := Server.connection?_id hc
    generalize n.write c.id = n' at hserves hconn hchannel hentries hcoming
    refine h.serves_one hserves hc ?_ (fun e he => h.peers e (hentries ▸ he)) hconn fun i _ => ?_
    · rw [hchannel]
      exact h.jobs c.id
    · refine ⟨fun hs => ?_, fun stand ht => ?_⟩
      · rw [hchannel]
        exact hs
      · rw [hcoming, hchannel]
        exact ht

/-- The server cannot read from a connection any more. -/
theorem Civil.drop (h : n.Civil) (hc : n.server.connection? id = some c) :
    (n.setJobs id ((n.channel id).jobs ++ Server.closing)).Civil := by
  obtain rfl := Server.connection?_id hc
  refine h.serves_one (.setJobs n (List.mem_singleton.mpr rfl) _) hc ?_ h.peers hc fun i _ => ?_
  · rw [channel_setJobs]
    exact List.forall_mem_append.mpr ⟨h.jobs c.id, Job.valid_closing⟩
  · have hd := doomed_closing c.phase (n.channel c.id).jobs
    have hr := Job.replies_append_closing (n.channel c.id).jobs
    exact .of_jobs (channel_setJobs _) rfl rfl
      (fun hs => hs.works (fun _ => hd) (.inl hd) (hr ▸ hs.pending) hs.answered)
      fun ht => ht.doomed hd hr

/-! ## What is read -/

/-- A handler has read on, and made the first step. -/
theorem Civil.readTo (h : n.Civil) {step : Server × List Job} {rest : Bytes}
    (hc : n.server.connection? id = some c) (hb : n.Begins c step c')
    (hf : ∀ i, n.holder id = some i → n.Follows (n.readTo id rest step) c c') :
    (n.readTo id rest step).Civil := by
  obtain rfl := Server.connection?_id hc
  have hserves : Serves [c.id] n (n.readTo c.id rest step) :=
    (Serves.setServer n (List.mem_singleton.mpr rfl) hb.nextId hb.known hb.others).trans
      (.onChannel _ (List.mem_singleton.mpr rfl) fun ch => rfl)
  refine h.serves_one hserves hc ?_ (fun e he => ?_) hb.connection hf
  · rw [channel_readTo]
    exact hb.jobs
  · rcases hb.entries e he with hm | ⟨hv, -⟩
    · exact h.peers e hm
    · exact hv

/-- The first step about a registration, whoever asks for it. -/
theorem Civil.begins_register (h : n.Civil) (hc : n.server.connection? id = some c)
    (hp : c.phase = .registering) {name : String} {port : UInt16}
    (hv : (Command.register name port).Valid) :
    (∃ s others, (∀ p ∈ others, p.Valid) ∧
      n.server.beginRegister c name port = (s, [.reply (.peerList others), .announce (.newcomer name)]) ∧
        n.Begins c (s, [.reply (.peerList others), .announce (.newcomer name)])
          { c with phase := .registered name }) ∨
      ∃ m, m.Refuses ∧ n.server.beginRegister c name port = (n.server, [.reply m]) ∧
        n.Begins c (n.server, [.reply m]) c := by
  rcases Server.beginRegister_cases n.server c name port with ⟨d, others, hins, hb⟩ | ⟨m, hm, hb⟩
  · have hvalid := valid_inserted h.peers hv hins
    exact .inl ⟨_, others, hvalid, hb, .register hc hp hv hins hvalid⟩
  · refine .inr ⟨m, hm, hb, .stay hc fun job hj => ?_⟩
    rw [List.mem_singleton.mp hj]
    exact ServerMessage.Refuses.valid hm

/-- Whatever is read, the first step changes nothing but the connection and the directory. -/
theorem Civil.begins (h : n.Civil) (hc : n.server.connection? id = some c) (item : Line.Item) :
    ∃ c', n.Begins c (n.server.begin c item) c' := by
  have hinvalid : n.Begins c (n.server, [.reply .invalidCommand]) c := by
    refine .stay hc fun job hj => ?_
    rw [List.mem_singleton.mp hj]
    exact fun a ha => List.mem_singleton.mp ha ▸ trivial
  cases item with
  | tooLong => exact ⟨c, .stay hc Job.valid_closing⟩
  | ended => exact ⟨c, .stay hc Job.valid_closing⟩
  | text line =>
    unfold Server.begin
    simp only []
    split
    · exact ⟨c, .stay hc (by simp)⟩
    · split
      · rename_i command hparse
        have hv := Command.valid_of_parse hparse
        unfold Server.beginCommand
        split
        · rename_i name port hp
          rcases h.begins_register hc hp hv with ⟨s, others, -, hs, hb⟩ | ⟨m, -, hs, hb⟩
          · exact ⟨_, hs ▸ hb⟩
          · exact ⟨_, hs ▸ hb⟩
        · rename_i own hp
          refine ⟨c, .stay hc fun job hj => ?_⟩
          rw [List.mem_singleton.mp hj]
          exact ServerMessage.valid_peerList (valid_peers h.peers (some own))
        · exact ⟨c, .erase hc _ Job.valid_closing⟩
        · exact ⟨c, .erase hc _ (by simp)⟩
        · exact ⟨c, hinvalid⟩
      · exact ⟨c, hinvalid⟩

/-- At a client's connection the handler has read on and made the first step. -/
theorem Follows.of_read {step : Server × List Job} {rest : Bytes} (hidle : (n.channel c.id).jobs = [])
    (hid : c'.id = c.id) (hout : c'.outbox = c.outbox)
    (hserved : Served c'.phase rest step.2 (n.channel c.id).told)
    (hterms : ∀ {coming : Bytes} {stand : Stand}, Terms c.phase (n.channel c.id).up [] coming stand →
      Terms c'.phase rest step.2 coming stand) : n.Follows (n.readTo c.id rest step) c c' := by
  have hcoming : (n.readTo c.id rest step).coming c' = n.coming c := by
    rw [coming, coming, hid, channel_readTo, hout]
  refine ⟨fun _ => ?_, fun stand ht => ?_⟩
  · rw [channel_readTo]
    exact hserved
  · rw [hidle] at ht
    rw [hcoming, channel_readTo]
    exact hterms ht

section

variable (h : n.Civil) (hc : n.server.connection? c.id = some c) (hidle : (n.channel c.id).jobs = [])
  (htold : .invalidCommand ∉ (n.channel c.id).told)
include h hc hidle htold

/-- The registration of a client is read. -/
theorem Civil.read_registration (hphase : c.phase = .registering) {name : String} {port : UInt16}
    (hv : (Command.register name port).Valid)
    (hup : (n.channel c.id).up = (Command.register name port).bytes ++ []) : (n.read c.id).Civil := by
  have hne : (n.channel c.id).up ≠ [] := by
    rw [hup, List.append_nil]
    exact Command.bytes_ne_nil _
  have hbegin : n.server.beginCommand c (.register name port) =
      n.server.beginRegister c name port := by simp only [Server.beginCommand, hphase]
  rw [read_command hc (by simp [hphase]) hidle hv hup, hbegin]
  rcases h.begins_register hc hphase hv with ⟨s, others, hvalid, hs, hb⟩ | ⟨m, hm, hs, hb⟩
  · rw [hs]
    refine h.readTo hc hb fun _ _ => .of_read hidle rfl rfl (.of_nil ?_ htold) fun ht => ?_
    · simp [Job.replies]
    · rw [hphase] at ht
      exact (ht.registers hne).2 name others hvalid
  · rw [hs]
    refine h.readTo hc hb fun _ _ => .of_read hidle rfl rfl (.of_nil ?_ htold) fun ht => ?_
    · rcases hm with rfl | rfl
      · simp [Job.replies]
      · simp [Job.replies]
    · rw [hphase] at ht ⊢
      exact (ht.registers hne).1 m hm

/-- What a registered client says is read. -/
theorem Civil.read_request {own : String} (hphase : c.phase = .registered own) {command : Command}
    {later : List Command} (hv : command.Valid) (hallows : (Phase.registered own).Allows command)
    (hup : (n.channel c.id).up = command.bytes ++ Command.bytesAll later)
    (hlater : ∀ d ∈ later, d.Valid) (htakes : Takes (.registered own) [] later) :
    (n.read c.id).Civil := by
  have hne : (n.channel c.id).up ≠ [] := by
    rw [hup]
    exact fun hnil => command.bytes_ne_nil (List.append_eq_nil_iff.mp hnil).1
  -- Whatever the first step is, the client is answered with a list, if at all.
  have hreads : ∀ step : Server × List Job, n.server.beginCommand c command = step →
      n.Begins c step c → (∀ m ∈ Job.replies step.2, m.isList = true ∧ m.Valid) →
        (n.read c.id).Civil := by
    intro step hbegin hb hlists
    rw [read_command hc (by simp [hphase]) hidle hv hup, hbegin]
    refine h.readTo hc hb fun _ _ => .of_read hidle rfl rfl ?_ fun ht => ?_
    · rw [hphase]
      refine .of_takes hlater htakes (fun hm => ?_) htold
      exact absurd (hlists _ hm).1 (by simp [ServerMessage.isList])
    · rw [hphase] at ht ⊢
      exact ht.reads hne hlists
  cases command with
  | register name port => exact hallows.elim
  | listPeers =>
    have hvalid := ServerMessage.valid_peerList (valid_peers h.peers (some own))
    refine hreads (n.server, [.reply (.peerList (n.server.directory.peers (some own)))]) ?_
      (.stay hc fun job hj => ?_) fun m hm => ?_
    · simp only [Server.beginCommand, hphase]
    · rw [List.mem_singleton.mp hj]
      exact hvalid
    · rw [List.mem_singleton.mp hm]
      exact ⟨rfl, hvalid⟩
  | reportGone gone =>
    refine hreads ({ n.server with directory := n.server.directory.erase gone }, []) ?_
      (.erase hc gone (by simp)) fun m hm => absurd hm List.not_mem_nil
    simp only [Server.beginCommand, hphase]
  | remove name =>
    refine hreads ({ n.server with directory := n.server.directory.erase name }, Server.closing) ?_
      (.erase hc name Job.valid_closing) fun m hm => absurd hm (by simp [Job.replies, Server.closing])
    simp only [Server.beginCommand, hphase]

end

section

variable (h : n.Civil) (hc : n.server.connection? id = some c) (hopen : c.phase ≠ .closed)
  (hidle : (n.channel id).jobs = [])
include h hc hopen hidle

/-- A client's connection: what is read of it is a command that the handler takes, or the end. -/
theorem Civil.read_held (hh : n.holder id = some i) : (n.read id).Civil := by
  obtain rfl := Server.connection?_id hc
  have hserved := h.served i c.id c hh hc
  rw [hidle] at hserved
  rcases hserved.next hopen with hup | ⟨command, later, hup, hv, hallows, hlater, htakes, hone⟩
  · cases hended : (n.channel c.id).upEnded with
    | false =>
      rw [read_of_idle hc (by rw [hup, hended]; decide)]
      exact h
    | true =>
      rw [read_end hc hopen hidle hended hup]
      have hd : Doomed c.phase Server.closing := doomed_closing c.phase []
      refine h.readTo hc (.stay hc Job.valid_closing) fun _ _ => .of_read hidle rfl rfl ?_
        fun ht => ht.doomed hd rfl
      rw [← hup]
      exact hserved.works (fun _ => hd) (.inl hd) (by simp [Job.replies, Server.closing])
        hserved.answered
  · cases hphase : c.phase with
    | closed => exact absurd hphase hopen
    | registering =>
      rw [hphase] at hallows
      obtain rfl := hone hphase
      cases command with
      | register name port => exact h.read_registration hc hidle hserved.answered hphase hv hup
      | listPeers => exact hallows.elim
      | remove name => exact hallows.elim
      | reportGone name => exact hallows.elim
    | registered own =>
      rw [hphase] at hallows htakes
      exact h.read_request hc hidle hserved.answered hphase hv hallows hup hlater htakes

/-- A stranger's connection, on which anything can have been said. -/
theorem Civil.read_stranger (hh : n.holder id = none) : (n.read id).Civil := by
  obtain rfl := Server.connection?_id hc
  have htakes : ∀ (item : Line.Item) (rest : Bytes), (n.take c item rest).Civil := by
    intro item rest
    obtain ⟨c', hb⟩ := h.begins hc item
    have hread : (n.readTo c.id rest (n.server.begin c item)).Civil :=
      h.readTo hc hb fun i hi => absurd (hh.symm.trans hi) (by simp)
    exact hread
  unfold Network.read
  rw [hc]
  simp only [hopen, hidle, ne_eq, not_true_eq_false, or_self, if_false]
  split
  · exact htakes _ _
  · exact htakes _ _
  · exact htakes _ _
  · exact h

end

theorem Civil.read (h : n.Civil) (id : ConnectionId) : (n.read id).Civil := by
  by_cases hidle : (n.channel id).jobs = []
  · cases hc : n.server.connection? id with
    | none =>
      have hnone : n.read id = n := by
        unfold Network.read
        rw [hc]
      rw [hnone]
      exact h
    | some c =>
      by_cases hopen : c.phase = .closed
      · rw [read_of_closed hc hopen]
        exact h
      · cases hh : n.holder id with
        | none => exact h.read_stranger hc hopen hidle hh
        | some i => exact h.read_held hc hopen hidle hh
  · rw [read_of_busy hidle]
    exact h

end PeerChat.Network
