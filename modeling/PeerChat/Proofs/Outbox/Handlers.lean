import PeerChat.Proofs.Outbox.Accounts

/-!
# What handlers do among strangers

Whatever happens (`Evolves`), it changes the phase of a connection and the jobs of its handler in a few
ways only (`Passes`), and what is entered in the directory is withdrawn before its owner is forgotten.
So a handler that is to end its connection does end it, whatever else happens (`Ending.run`); and
a closed connection owns no entry, and no notice is meant for it (`Proper.of_closed`).
-/

namespace PeerChat

/-! ## Jobs that end a connection -/

/-- The connection's entry is withdrawn before the connection is forgotten. -/
def Withdraws : List Job → Prop
  | [] => True
  | .withdraw :: _ => True
  | .forget :: _ => False
  | _ :: later => Withdraws later

/-- Once the connection is forgotten, nothing is left but to withdraw and forget it again. -/
def Closes : List Job → Prop
  | [] => True
  | .forget :: later => ∀ job ∈ later, job ∈ Server.closing
  | _ :: later => Closes later

theorem Withdraws.append_closing (jobs : List Job) (h : Withdraws jobs) :
    Withdraws (jobs ++ Server.closing) := by
  induction jobs with
  | nil => trivial
  | cons job jobs ih =>
    cases job with
    | forget => exact h.elim
    | withdraw => trivial
    | reply m => exact ih h
    | announce m => exact ih h
    | deliver ids m => exact ih h

theorem Closes.append_closing (jobs : List Job) (h : Closes jobs) :
    Closes (jobs ++ Server.closing) := by
  induction jobs with
  | nil => simp [Closes, Server.closing]
  | cons job jobs ih =>
    cases job with
    | forget => exact List.forall_mem_append.mpr ⟨h, fun job hm => hm⟩
    | withdraw => exact ih h
    | reply m => exact ih h
    | announce m => exact ih h
    | deliver ids m => exact ih h

theorem closes_of_closing {jobs : List Job} (h : ∀ job ∈ jobs, job ∈ Server.closing) : Closes jobs := by
  induction jobs with
  | nil => trivial
  | cons job jobs ih =>
    obtain ⟨hjob, hjobs⟩ := List.forall_mem_cons.mp h
    cases job with
    | forget => exact hjobs
    | withdraw => exact ih hjobs
    | _ => exact absurd hjob (by simp [Server.closing])

namespace Server

variable {s : Server} {id : ConnectionId}

/-- No connection has lost its outbox. -/
def AllWritable (s : Server) : Prop := ∀ c ∈ s.connections, c.writable = true

namespace AllWritable

theorem of_update (h : s.AllWritable) {f : Connection → Connection}
    (hf : ∀ c, (f c).writable = c.writable) : (s.update id f).AllWritable := by
  intro c' hc'
  obtain ⟨c, hc, rfl⟩ := List.mem_map.mp hc'
  have hold := h c hc
  split
  · exact (hf c).trans hold
  · exact hold

theorem queue (h : s.AllWritable) (m : ServerMessage) : (s.queue id m).AllWritable := by
  unfold Server.queue
  split
  · exact h.of_update fun _ => rfl
  · exact h

theorem accept (h : s.AllWritable) (address : IpAddress) : (s.accept address).AllWritable := by
  intro c hc
  rcases List.mem_append.mp hc with hc | hc
  · exact h c hc
  · rw [List.mem_singleton.mp hc]

end AllWritable

end Server

namespace Network

variable {n n' : Network Empty} {id k target : ConnectionId} {c c' : Connection} {job : Job}
  {jobs later : List Job}

/-! ## Steps -/

/-- What a handler makes of its jobs where it queues nothing, with what becomes of the server. -/
inductive Advances (s : Server) (id : ConnectionId) : List Job → Server → List Job → Prop
  | spurned (m : ServerMessage) (later : List Job) :
      Advances s id (.reply m :: later) s (later ++ Server.closing)
  | announced (m : ServerMessage) (later : List Job) :
      Advances s id (.announce m :: later) s (.deliver (s.audience id) m :: later)
  | passed {ids : List ConnectionId} (m : ServerMessage) (later : List Job) {target : ConnectionId}
      (listed : target ∈ ids) :
      Advances s id (.deliver ids m :: later) s (.deliver (ids.erase target) m :: later)
  | finished (m : ServerMessage) (later : List Job) : Advances s id (.deliver [] m :: later) s later
  | withdrawn (later : List Job) : Advances s id (.withdraw :: later) (s.withdrawOwn id) later
  | forgotten (later : List Job) : Advances s id (.forget :: later) (s.forget id) later

/-- What the server does about what it has read, and about its outboxes. -/
inductive Works (n : Network Empty) : Network Empty → Prop
  | advances {id : ConnectionId} {s : Server} {jobs : List Job} (intact : Bool)
      (advance : Advances n.server id (n.channel id).jobs s jobs) :
      Works n (({ n with server := s, intact } : Network Empty).setJobs id jobs)
  | replies {id : ConnectionId} {m : ServerMessage} {later : List Job}
      (jobs : (n.channel id).jobs = .reply m :: later) :
      Works n ((n.setJobs id later).queue id m)
  | delivers {id target : ConnectionId} {ids : List ConnectionId} {m : ServerMessage} {later : List Job}
      (jobs : (n.channel id).jobs = .deliver ids m :: later) (listed : target ∈ ids) :
      Works n ((n.setJobs id (.deliver (ids.erase target) m :: later)).queue target m)
  | writes {id : ConnectionId} {c : Connection} {m : ServerMessage} {rest : List ServerMessage}
      (found : n.server.connection? id = some c) (first : c.outbox = m :: rest) :
      Works n (({ n with server := n.server.unqueue id } : Network Empty).onChannel id fun ch =>
        { ch with down := ch.down ++ Utf8.encode m.text })

/-- What a step can come to. -/
inductive Evolves (n : Network Empty) : Network Empty → Prop
  | stays : Evolves n n
  | works {n' : Network Empty} (work : Works n n') : Evolves n n'
  | enters (address : IpAddress) : Evolves n { n with server := n.server.accept address }
  | speaks {id : ConnectionId} {f : Channel → Channel} (kept : ∀ ch, (f ch).jobs = ch.jobs) :
      Evolves n (n.onChannel id f)
  | takes {id : ConnectionId} {c : Connection} (item : Line.Item) (rest : Bytes)
      (found : n.server.connection? id = some c) (is_open : c.phase ≠ .closed)
      (idle : (n.channel id).jobs = []) : Evolves n (n.take c item rest)
  | drops (id : ConnectionId) : Evolves n
      (({ n with intact := false } : Network Empty).setJobs id ((n.channel id).jobs ++ Server.closing))

theorem evolves_read (n : Network Empty) (id : ConnectionId) : n.Evolves (n.read id) := by
  unfold Network.read
  split
  · rename_i c hc
    split
    · exact .stays
    · rename_i hready
      obtain ⟨hopen, hidle⟩ := not_or.mp hready
      have hidle : (n.channel id).jobs = [] := Classical.not_not.mp hidle
      split
      · exact .takes _ _ hc hopen hidle
      · exact .takes _ _ hc hopen hidle
      · exact .takes _ _ hc hopen hidle
      · exact .stays
  · exact .stays

theorem setJobs_self (n : Network Empty) (id : ConnectionId) : n.setJobs id (n.channel id).jobs = n := by
  have hchannel : (fun j => if j = id then { n.channel j with jobs := (n.channel id).jobs }
      else n.channel j) = n.channel := by
    funext j
    by_cases h : j = id
    · rw [if_pos h, h]
    · rw [if_neg h]
  rw [setJobs, onChannel, hchannel]

theorem works_work (n : Network Empty) (id : ConnectionId) : n.work id = n ∨ n.Works (n.work id) := by
  unfold Network.work
  split
  · rename_i m later hjobs
    split
    · exact .inr (.replies hjobs)
    · exact .inr (.advances false (hjobs ▸ .spurned m later))
  · rename_i m later hjobs
    exact .inr (.advances n.intact (hjobs ▸ .announced m later))
  · rename_i m later hjobs
    exact .inr (.advances n.intact (hjobs ▸ .finished m later))
  · exact .inl rfl
  · rename_i later hjobs
    exact .inr (.advances n.intact (hjobs ▸ .withdrawn later))
  · rename_i later hjobs
    exact .inr (.advances n.intact (hjobs ▸ .forgotten later))
  · exact .inl rfl

theorem works_deliver (n : Network Empty) (id target : ConnectionId) :
    n.deliver id target = n ∨ n.Works (n.deliver id target) := by
  unfold Network.deliver
  split
  · rename_i ids m later hjobs
    split
    · rename_i ht
      exact .inr (.delivers hjobs ht)
    · exact .inl rfl
  · exact .inl rfl

theorem works_write (n : Network Empty) (id : ConnectionId) :
    n.write id = n ∨ n.Works (n.write id) := by
  unfold Network.write
  split
  · rename_i c hc
    split
    · rename_i m rest hm
      exact .inr (.writes hc hm)
    · exact .inl rfl
  · exact .inl rfl

theorem evolves_of_works (h : n' = n ∨ n.Works n') : n.Evolves n' := by
  rcases h with rfl | h
  · exact .stays
  · exact .works h

theorem evolves_onStranger {f : Channel → Channel} (hf : ∀ ch, (f ch).jobs = ch.jobs) :
    n.Evolves (n.onStranger id f) := by
  unfold Network.onStranger
  split
  · exact .speaks hf
  · exact .stays

theorem evolves_step (n : Network Empty) (f : Crowd.Step Empty) : n.Evolves (Crowd.step n f) := by
  cases f with
  | event i | move i | connect i | unreachable i | arrive i | finish i | fail i | clog i => exact i.elim
  | read id => exact evolves_read n id
  | work id => exact evolves_of_works (works_work n id)
  | deliver id target => exact evolves_of_works (works_deliver n id target)
  | write id => exact evolves_of_works (works_write n id)
  | drop id =>
    unfold Crowd.step Network.step
    simp only []
    split
    · exact .drops id
    · exact .stays
  | spurn id =>
    unfold Crowd.step Network.spurn
    simp only []
    split
    · rename_i m later hjobs
      exact .works (.advances n.intact (hjobs ▸ .spurned m later))
    · exact .stays
  | miss id target =>
    unfold Crowd.step Network.miss
    simp only []
    split
    · rename_i ids m later hjobs
      by_cases ht : target ∈ ids
      · exact .works (.advances n.intact (hjobs ▸ .passed m later ht))
      · have hsame : n.setJobs id (.deliver (ids.erase target) m :: later) = n := by
          rw [List.erase_of_not_mem ht, ← hjobs]
          exact setJobs_self n id
        rw [hsame]
        exact .stays
    · exact .stays
  | enter address => exact .enters address
  | say id bytes => exact evolves_onStranger fun _ => rfl
  | hangUp id => exact evolves_onStranger fun _ => rfl

/-! ## One connection -/

/-- What can become of the phase of a connection and the jobs of its handler; `gone` is that the
connection owns no entry any more, and `audience` who is to get its notice. -/
inductive Passes (gone : Prop) (audience : List ConnectionId) : Phase → List Job → Phase → List Job → Prop
  | stays (p : Phase) (jobs : List Job) : Passes gone audience p jobs p jobs
  | reads {p p' : Phase} {jobs : List Job} (is_open : p ≠ .closed) (stays_open : p' ≠ .closed)
      (phase : p = .registering ∨ p' = p) (withdraws : Withdraws jobs) (closes : Closes jobs)
      (unlisted : ∀ ids m, .deliver ids m ∉ jobs) : Passes gone audience p [] p' jobs
  | replies (p : Phase) (m : ServerMessage) (later : List Job) :
      Passes gone audience p (.reply m :: later) p later
  | spurns (p : Phase) (m : ServerMessage) (later : List Job) :
      Passes gone audience p (.reply m :: later) p (later ++ Server.closing)
  | announces (p : Phase) (m : ServerMessage) (later : List Job) :
      Passes gone audience p (.announce m :: later) p (.deliver audience m :: later)
  | delivers (p : Phase) (m : ServerMessage) {ids ids' : List ConnectionId} (later : List Job)
      (fewer : ids' ⊆ ids) : Passes gone audience p (.deliver ids m :: later) p (.deliver ids' m :: later)
  | finishes (p : Phase) (m : ServerMessage) (later : List Job) :
      Passes gone audience p (.deliver [] m :: later) p later
  | withdraws (p : Phase) (later : List Job) (done : gone) :
      Passes gone audience p (.withdraw :: later) p later
  | forgets (p : Phase) (later : List Job) : Passes gone audience p (.forget :: later) .closed later
  | drops (p : Phase) (jobs : List Job) : Passes gone audience p jobs p (jobs ++ Server.closing)

namespace Passes

variable {gone : Prop} {audience : List ConnectionId} {p p' : Phase} {jobs' : List Job}

theorem doomed (h : Passes gone audience p jobs p' jobs') (hd : Doomed p jobs) : Doomed p' jobs' := by
  cases h with
  | stays => exact hd
  | reads is_open => exact absurd hd (not_doomed_nil is_open)
  | replies m => exact hd.tail (by simp)
  | spurns m later => exact doomed_closing _ _
  | announces m later => exact (hd.tail (by simp)).imp_right (List.mem_cons_of_mem _)
  | delivers m later fewer => exact (hd.tail (by simp)).imp_right (List.mem_cons_of_mem _)
  | finishes m => exact hd.tail (by simp)
  | withdraws => exact hd.tail (by simp)
  | forgets => exact .inl rfl
  | drops => exact doomed_closing _ _

theorem closes (h : Passes gone audience p jobs p' jobs') (hc : Closes jobs) : Closes jobs' := by
  cases h with
  | stays => exact hc
  | reads is_open stays_open phase withdraws closes => exact closes
  | replies m => exact hc
  | spurns m later => exact Closes.append_closing later hc
  | announces m later => exact hc
  | delivers m later fewer => exact hc
  | finishes m => exact hc
  | withdraws => exact hc
  | forgets => exact closes_of_closing hc
  | drops => exact Closes.append_closing _ hc

/-- A closed connection has nothing but its end to see to. -/
theorem closed (h : Passes gone audience p jobs p' jobs') (hc : Closes jobs)
    (hj : p = .closed → ∀ job ∈ jobs, job ∈ Server.closing) (hp : p' = .closed) :
    ∀ job ∈ jobs', job ∈ Server.closing := by
  cases h with
  | stays => exact hj hp
  | reads is_open stays_open => exact absurd hp stays_open
  | replies m later => exact (List.forall_mem_cons.mp (hj hp)).2
  | spurns m later =>
    exact List.forall_mem_append.mpr ⟨(List.forall_mem_cons.mp (hj hp)).2, fun _ hm => hm⟩
  | announces m later => exact absurd (hj hp _ (List.mem_cons_self ..)) (by simp [Server.closing])
  | delivers m later fewer =>
    exact absurd (hj hp _ (List.mem_cons_self ..)) (by simp [Server.closing])
  | finishes m later => exact (List.forall_mem_cons.mp (hj hp)).2
  | withdraws later => exact (List.forall_mem_cons.mp (hj hp)).2
  | forgets later => exact hc
  | drops => exact List.forall_mem_append.mpr ⟨hj hp, fun _ hm => hm⟩

theorem stays_closed (h : Passes gone audience p jobs p' jobs') (hp : p = .closed) : p' = .closed := by
  cases h with
  | reads is_open => exact absurd hp is_open
  | forgets => rfl
  | _ => exact hp

/-- Whom no notice is meant for, none will be. -/
theorem unlisted (h : Passes gone audience p jobs p' jobs')
    (hj : ∀ ids m, .deliver ids m ∈ jobs → id ∉ ids) (ha : id ∉ audience) :
    ∀ ids m, .deliver ids m ∈ jobs' → id ∉ ids := by
  have hclosing : ∀ jobs : List Job, (∀ ids m, .deliver ids m ∈ jobs → id ∉ ids) →
      ∀ ids m, .deliver ids m ∈ jobs ++ Server.closing → id ∉ ids := by
    intro jobs h ids m hm
    rcases List.mem_append.mp hm with hm | hm
    · exact h ids m hm
    · exact absurd hm (by simp [Server.closing])
  cases h with
  | stays => exact hj
  | reads is_open stays_open phase withdraws closes unlisted =>
    exact fun ids m hm => absurd hm (unlisted ids m)
  | spurns m later => exact hclosing later fun ids m hm => hj ids m (List.mem_cons_of_mem _ hm)
  | announces m later =>
    intro ids m' hm
    rcases List.mem_cons.mp hm with he | hm
    · obtain ⟨rfl, -⟩ := Job.deliver.inj he
      exact ha
    · exact hj ids m' (List.mem_cons_of_mem _ hm)
  | @delivers m ids' ids later fewer =>
    intro ids'' m' hm
    rcases List.mem_cons.mp hm with he | hm
    · obtain ⟨rfl, -⟩ := Job.deliver.inj he
      exact fun hid => hj _ m (List.mem_cons_self ..) (fewer hid)
    · exact hj ids'' m' (List.mem_cons_of_mem _ hm)
  | drops => exact hclosing jobs hj
  | _ => exact fun ids m hm => hj ids m (List.mem_cons_of_mem _ hm)

/-- An owner stays what it is, until its entry is withdrawn. -/
theorem owner (h : Passes gone audience p jobs p' jobs') {name : String} (hp : p = .registered name)
    (hw : Withdraws jobs) : gone ∨ p' = .registered name ∧ Withdraws jobs' := by
  cases h with
  | stays => exact .inr ⟨hp, hw⟩
  | reads is_open stays_open phase withdraws =>
    have hkeep := phase.resolve_left (by simp [hp])
    exact .inr ⟨hkeep.trans hp, withdraws⟩
  | replies m => exact .inr ⟨hp, hw⟩
  | spurns m later => exact .inr ⟨hp, Withdraws.append_closing later hw⟩
  | announces m later => exact .inr ⟨hp, hw⟩
  | delivers m later fewer => exact .inr ⟨hp, hw⟩
  | finishes m => exact .inr ⟨hp, hw⟩
  | withdraws later done => exact .inl done
  | forgets => exact hw.elim
  | drops => exact .inr ⟨hp, Withdraws.append_closing _ hw⟩

end Passes

/-! ## What a step keeps -/

theorem jobs_setJobs (jobs : List Job) :
    ((n.setJobs k jobs).channel id).jobs = if id = k then jobs else (n.channel id).jobs := by
  by_cases h : id = k
  · rw [if_pos h, h, channel_setJobs]
  · rw [if_neg h]
    exact congrArg Channel.jobs (channel_onChannel_of_ne n _ h)

/-- A message that is queued does not change anybody's phase. -/
theorem exists_queue (hc : n.server.connection? id = some c) (m : ServerMessage) :
    ∃ c', (n.queue k m).server.connection? id = some c' ∧ c'.phase = c.phase := by
  rw [server_queue, Server.queue]
  split
  · rw [Server.connection?_update (by exact fun _ => rfl)]
    by_cases h : id = k
    · subst h
      rw [if_pos rfl, hc]
      exact ⟨_, rfl, rfl⟩
    · rw [if_neg h]
      exact ⟨c, hc, rfl⟩
  · exact ⟨c, hc, rfl⟩

namespace Begun

variable {s : Server} {step : Server × List Job} {j : ConnectionId}

theorem connection?_of_ne (h : Begun s c step) (hj : j ≠ c.id) :
    step.1.connection? j = s.connection? j := by
  cases h with
  | answers m => rfl
  | enters phase inserted =>
    exact (Server.connection?_update (by exact fun _ => rfl)).trans (if_neg hj)
  | erases name ends => rfl
  | goesOn ends => rfl

/-- The handler goes on, and its connection stays open. -/
theorem passes (h : Begun s c step) (hc : s.connection? c.id = some c) (hopen : c.phase ≠ .closed)
    (gone : Prop) (audience : List ConnectionId) :
    ∃ c', step.1.connection? c.id = some c' ∧ Passes gone audience c.phase [] c'.phase step.2 := by
  have hends : ∀ {jobs : List Job}, jobs = [] ∨ jobs = Server.closing →
      Passes gone audience c.phase [] c.phase jobs := by
    rintro jobs (rfl | rfl)
    · exact .stays _ _
    · exact .drops _ _
  cases h with
  | answers m => exact ⟨c, hc, .reads hopen hopen (.inr rfl) trivial trivial (by simp)⟩
  | @enters name port directory others phase inserted =>
    refine ⟨_, (Server.connection?_entered hc).trans (if_pos rfl), ?_⟩
    exact .reads hopen (by simp) (.inl phase) trivial trivial (by simp)
  | erases name ends =>
    exact ⟨c, hc, hends ends⟩
  | goesOn ends =>
    exact ⟨c, hc, hends ends⟩

theorem tidy (h : Begun s c step) (ht : s.Tidy) : step.1.Tidy := by
  cases h with
  | answers m => exact ht
  | enters phase inserted =>
    exact ht.of_same (Server.ids_update fun _ => rfl) rfl (ht.inOrder.insert inserted)
  | erases name ends => exact ht.erase name
  | goesOn ends => exact ht

theorem ids (h : Begun s c step) : step.1.connections.map (·.id) = s.connections.map (·.id) := by
  cases h with
  | answers m => rfl
  | @enters name port directory others phase inserted =>
    exact Server.ids_update (s := { s with directory }) fun _ => rfl
  | erases name ends => rfl
  | goesOn ends => rfl

theorem writable (h : Begun s c step) (hs : s.AllWritable) : step.1.AllWritable := by
  cases h with
  | answers m => exact hs
  | @enters name port directory others phase inserted =>
    exact Server.AllWritable.of_update (s := { s with directory }) hs fun _ => rfl
  | erases name ends => exact hs
  | goesOn ends => exact hs

/-- Whoever is entered owns the entry, and bears its name. -/
theorem entries (h : Begun s c step) (hc : s.connection? c.id = some c) {e : Entry}
    (he : e ∈ step.1.directory.entries) : e ∈ s.directory.entries ∨ e.owner = some c.id ∧
      (∃ c', step.1.connection? c.id = some c' ∧ c'.phase = .registered e.peer.name) ∧
        Withdraws step.2 := by
  cases h with
  | answers m => exact .inl he
  | @enters name port directory others phase inserted =>
    obtain ⟨-, -, rfl, -⟩ := Directory.insert_eq_ok inserted
    rcases Directory.mem_place.mp he with rfl | he
    · exact .inr ⟨rfl, ⟨_, (Server.connection?_entered hc).trans (if_pos rfl), rfl⟩, trivial⟩
    · exact .inl he
  | erases name ends => exact .inl (Directory.mem_erase.mp he).1
  | goesOn ends => exact .inl he

end Begun

namespace Advances

variable {s s' : Server} {jobs' : List Job} {j : ConnectionId}

theorem connection?_of_ne (h : Advances s id jobs s' jobs') (hj : j ≠ id) :
    s'.connection? j = s.connection? j := by
  cases h with
  | withdrawn => exact Server.connection?_withdrawOwn
  | forgotten => exact (Server.connection?_update (by exact fun _ => rfl)).trans (if_neg hj)
  | _ => rfl

theorem ids (h : Advances s id jobs s' jobs') :
    s'.connections.map (·.id) = s.connections.map (·.id) := by
  cases h with
  | withdrawn => rw [Server.connections_withdrawOwn]
  | forgotten => exact Server.ids_update fun _ => rfl
  | _ => rfl

theorem writable (h : Advances s id jobs s' jobs') (hs : s.AllWritable) : s'.AllWritable := by
  cases h with
  | withdrawn =>
    rw [Server.AllWritable, Server.connections_withdrawOwn]
    exact hs
  | forgotten => exact hs.of_update fun _ => rfl
  | _ => exact hs

theorem entries (h : Advances s id jobs s' jobs') : s'.directory.entries ⊆ s.directory.entries := by
  cases h with
  | withdrawn => exact Server.entries_withdrawOwn_subset
  | _ => exact fun _ he => he

theorem tidy (h : Advances s id jobs s' jobs') (ht : s.Tidy) : s'.Tidy := by
  cases h with
  | withdrawn =>
    refine ht.of_same (by rw [Server.connections_withdrawOwn]) Server.nextId_withdrawOwn ?_
    unfold Server.withdrawOwn Server.withdraw
    split
    · split
      · change (Directory.eraseOwned _ _ _).InOrder
        unfold Directory.eraseOwned
        split
        · exact ht.inOrder.filter _
        · exact ht.inOrder
      · exact ht.inOrder
    · exact ht.inOrder
  | forgotten => exact ht.of_same (Server.ids_update fun _ => rfl) rfl ht.inOrder
  | _ => exact ht

/-- What its handler does to a connection. -/
theorem passes (h : Advances s id jobs s' jobs') (hc : s.connection? id = some c) {gone : Prop}
    (hgone : s' = s.withdrawOwn id → gone) :
    ∃ c', s'.connection? id = some c' ∧ Passes gone (s.audience id) c.phase jobs c'.phase jobs' := by
  cases h with
  | spurned m later => exact ⟨c, hc, .spurns _ m later⟩
  | announced m later => exact ⟨c, hc, .announces _ m later⟩
  | passed m later listed => exact ⟨c, hc, .delivers _ m later List.erase_subset⟩
  | finished m => exact ⟨c, hc, .finishes _ m _⟩
  | withdrawn => exact ⟨c, Server.connection?_withdrawOwn.trans hc, .withdraws _ _ (hgone rfl)⟩
  | forgotten =>
    exact ⟨_, Server.connection?_update_self (by exact fun _ => rfl) hc, .forgets _ _⟩

end Advances

/-- What holds at all times of the server among strangers. -/
structure Proper (n : Network Empty) : Prop where
  tidy : n.server.Tidy
  writable : n.server.AllWritable
  closes : ∀ id c, n.server.connection? id = some c → Closes (n.channel id).jobs
  closed : ∀ id c, n.server.connection? id = some c → c.phase = .closed →
    ∀ job ∈ (n.channel id).jobs, job ∈ Server.closing
  owners : ∀ e ∈ n.entries, ∀ id, e.owner = some id → ∃ c, n.server.connection? id = some c ∧
    c.phase = .registered e.peer.name ∧ Withdraws (n.channel id).jobs

/-- What is withdrawn is all that the connection owns. -/
theorem Proper.withdrawn (h : n.Proper) :
    ∀ e ∈ (n.server.withdrawOwn id).directory.entries, e.owner ≠ some id := by
  intro e he ho
  obtain ⟨c, hc, hp, -⟩ := h.owners e (Server.entries_withdrawOwn_subset he) id ho
  rw [Server.withdrawOwn, hc] at he
  simp only [Server.withdraw, hp, Server.connection?_id hc] at he
  exact ((Directory.mem_eraseOwned h.tidy.inOrder.namesUnique).mp he).2 ⟨rfl, ho⟩

namespace Works

theorem tidy (h : n.Works n') (ht : n.server.Tidy) : n'.server.Tidy := by
  cases h with
  | advances intact advance => exact advance.tidy ht
  | replies jobs =>
    rw [server_queue]
    exact ht.frame (Server.Frame.queue _ _ _)
  | delivers jobs listed =>
    rw [server_queue]
    exact ht.frame (Server.Frame.queue _ _ _)
  | writes found first => exact ht.of_same (Server.ids_update fun _ => rfl) rfl ht.inOrder

theorem ids (h : n.Works n') : n'.server.connections.map (·.id) = n.server.connections.map (·.id) := by
  cases h with
  | advances intact advance => exact advance.ids
  | replies jobs =>
    rw [server_queue]
    exact Server.ids_of_frame (Server.Frame.queue _ _ _)
  | delivers jobs listed =>
    rw [server_queue]
    exact Server.ids_of_frame (Server.Frame.queue _ _ _)
  | writes found first => exact Server.ids_update fun _ => rfl

theorem writable (h : n.Works n') (hs : n.server.AllWritable) : n'.server.AllWritable := by
  cases h with
  | advances intact advance => exact advance.writable hs
  | @replies k m later jobs =>
    rw [server_queue]
    exact Server.AllWritable.queue (s := (n.setJobs k later).server) hs m
  | @delivers k target ids m later jobs listed =>
    rw [server_queue]
    exact Server.AllWritable.queue (s := (n.setJobs k (.deliver (ids.erase target) m :: later)).server)
      hs m
  | writes found first => exact hs.of_update fun _ => rfl

theorem entries (h : n.Works n') : n'.entries ⊆ n.entries := by
  cases h with
  | advances intact advance => exact advance.entries
  | replies jobs =>
    rw [Network.entries, server_queue, (Server.Frame.queue _ _ _).directory]
    exact fun _ he => he
  | delivers jobs listed =>
    rw [Network.entries, server_queue, (Server.Frame.queue _ _ _).directory]
    exact fun _ he => he
  | writes found first => exact fun _ he => he

theorem passes (h : n.Works n') (hp : n.Proper) (hc : n.server.connection? id = some c) :
    ∃ c', n'.server.connection? id = some c' ∧
      Passes (∀ e ∈ n'.entries, e.owner ≠ some id) (n.server.audience id) c.phase (n.channel id).jobs
        c'.phase (n'.channel id).jobs := by
  cases h with
  | @advances k s jobs intact advance =>
    by_cases hid : id = k
    · subst hid
      obtain ⟨c', hc', hpass⟩ := advance.passes hc fun hs => hs ▸ hp.withdrawn
      refine ⟨c', hc', ?_⟩
      rw [jobs_setJobs, if_pos rfl]
      exact hpass
    · refine ⟨c, (advance.connection?_of_ne hid).trans hc, ?_⟩
      rw [jobs_setJobs, if_neg hid]
      exact .stays _ _
  | @replies k m later jobs =>
    obtain ⟨c', hc', hphase⟩ := exists_queue (n := n.setJobs k later) (k := k) hc m
    refine ⟨c', hc', ?_⟩
    rw [jobs_queue, jobs_setJobs, hphase]
    by_cases hid : id = k
    · rw [if_pos hid, hid, jobs]
      exact .replies _ m later
    · rw [if_neg hid]
      exact .stays _ _
  | @delivers k target ids m later jobs listed =>
    obtain ⟨c', hc', hphase⟩ := exists_queue
      (n := n.setJobs k (.deliver (ids.erase target) m :: later)) (k := target) hc m
    refine ⟨c', hc', ?_⟩
    rw [jobs_queue, jobs_setJobs, hphase]
    by_cases hid : id = k
    · rw [if_pos hid, hid, jobs]
      exact .delivers _ m later List.erase_subset
    · rw [if_neg hid]
      exact .stays _ _
  | @writes k d m rest found first =>
    have hconn : ∃ c', (n.server.unqueue k).connection? id = some c' ∧ c'.phase = c.phase := by
      rw [Server.unqueue, Server.connection?_update (by exact fun _ => rfl)]
      by_cases hid : id = k
      · subst hid
        rw [if_pos rfl, hc]
        exact ⟨_, rfl, rfl⟩
      · rw [if_neg hid]
        exact ⟨c, hc, rfl⟩
    obtain ⟨c', hc', hphase⟩ := hconn
    refine ⟨c', hc', ?_⟩
    rw [hphase]
    by_cases hid : id = k
    · rw [hid, channel_onChannel]
      exact .stays _ _
    · rw [channel_onChannel_of_ne _ _ hid]
      exact .stays _ _

end Works

namespace Evolves

theorem tidy (h : n.Evolves n') (ht : n.server.Tidy) : n'.server.Tidy := by
  cases h with
  | stays => exact ht
  | works work => exact work.tidy ht
  | enters address => exact ht.accept address
  | speaks kept => exact ht
  | takes item rest found is_open idle => exact (begun_begin n.server _ item).tidy ht
  | drops id => exact ht

theorem writable (h : n.Evolves n') (hs : n.server.AllWritable) : n'.server.AllWritable := by
  cases h with
  | stays => exact hs
  | works work => exact work.writable hs
  | enters address => exact hs.accept address
  | speaks kept => exact hs
  | takes item rest found is_open idle => exact (begun_begin n.server _ item).writable hs
  | drops id => exact hs

/-- Nobody is there who has not entered. -/
theorem ids (h : n.Evolves n') : n'.server.connections.map (·.id) = n.server.connections.map (·.id) ∨
    ∃ address, n' = { n with server := n.server.accept address } := by
  cases h with
  | stays => exact .inl rfl
  | works work => exact .inl work.ids
  | enters address => exact .inr ⟨address, rfl⟩
  | speaks kept => exact .inl rfl
  | takes item rest found is_open idle => exact .inl (begun_begin n.server _ item).ids
  | drops id => exact .inl rfl

theorem entries (h : n.Evolves n') {e : Entry} (he : e ∈ n'.entries) : e ∈ n.entries ∨
    ∃ id c, e.owner = some id ∧ n'.server.connection? id = some c ∧
      c.phase = .registered e.peer.name ∧ Withdraws (n'.channel id).jobs := by
  cases h with
  | stays => exact .inl he
  | works work => exact .inl (work.entries he)
  | enters address => exact .inl he
  | speaks kept => exact .inl he
  | @takes k c item rest found is_open idle =>
    obtain rfl := Server.connection?_id found
    rcases (begun_begin n.server c item).entries found he with hold | ⟨ho, ⟨c', hc', hp⟩, hw⟩
    · exact .inl hold
    · refine .inr ⟨c.id, c', ho, hc', hp, ?_⟩
      rw [take, channel_onChannel]
      exact hw
  | drops id => exact .inl he

/-- What a step can do to a connection. -/
theorem passes (h : n.Evolves n') (hp : n.Proper) (hc : n.server.connection? id = some c) :
    ∃ c', n'.server.connection? id = some c' ∧
      Passes (∀ e ∈ n'.entries, e.owner ≠ some id) (n.server.audience id) c.phase (n.channel id).jobs
        c'.phase (n'.channel id).jobs := by
  cases h with
  | stays => exact ⟨c, hc, .stays _ _⟩
  | works work => exact work.passes hp hc
  | enters address =>
    have hids : ∀ c ∈ n.server.connections, c.id < n.server.nextId := fun c hm =>
      hp.tidy.ids_used c.id (List.mem_map_of_mem hm)
    have hne : id ≠ n.server.nextId := by
      rintro rfl
      exact absurd ((Server.connection?_nextId hids).symm.trans hc) (by simp)
    exact ⟨c, ((Server.connection?_accept hids address).trans (if_neg hne)).trans hc, .stays _ _⟩
  | @speaks k f kept =>
    have hjobs : ((n.onChannel k f).channel id).jobs = (n.channel id).jobs := by
      by_cases hid : id = k
      · rw [hid, channel_onChannel, kept]
      · rw [channel_onChannel_of_ne n f hid]
    exact ⟨c, hc, hjobs ▸ .stays _ _⟩
  | @takes k d item rest found is_open idle =>
    have hbegun := begun_begin n.server d item
    obtain rfl := Server.connection?_id found
    by_cases hid : id = d.id
    · subst hid
      obtain rfl := Option.some.inj (found.symm.trans hc)
      obtain ⟨c', hc', hpass⟩ := hbegun.passes found is_open _ _
      refine ⟨c', hc', ?_⟩
      rw [idle, take, channel_onChannel]
      exact hpass
    · refine ⟨c, (hbegun.connection?_of_ne hid).trans hc, ?_⟩
      rw [take, channel_onChannel_of_ne _ _ hid]
      exact .stays _ _
  | drops k =>
    refine ⟨c, hc, ?_⟩
    rw [jobs_setJobs]
    by_cases hid : id = k
    · rw [if_pos hid, hid]
      exact .drops _ _
    · rw [if_neg hid]
      exact .stays _ _

/-- Who has just entered has nothing to be done for. -/
theorem newcomer (h : n.Evolves n') (hn : n.Civil) (hnone : n.server.connection? id = none)
    (hc' : n'.server.connection? id = some c') :
    c'.phase = .registering ∧ (n'.channel id).jobs = [] := by
  have hnew : id ∉ n.server.connections.map (·.id) := by
    intro hm
    obtain ⟨d, hd, rfl⟩ := List.mem_map.mp hm
    exact absurd (List.find?_eq_none.mp hnone d hd) (by simp)
  rcases h.ids with hids | ⟨address, rfl⟩
  · obtain ⟨hm, rfl⟩ := Server.connection?_mem hc'
    exact absurd (hids ▸ List.mem_map_of_mem hm) hnew
  · rw [Server.connection?_accept hn.ids] at hc'
    split at hc'
    · obtain rfl := Option.some.inj hc'
      refine ⟨rfl, ?_⟩
      change (n.channel id).jobs = []
      rw [(hn.fresh id hnone).1]
    · exact absurd (hc'.symm.trans hnone) (by simp)

end Evolves

namespace Proper

theorem evolves (h : n.Proper) (hn : n.Civil) (he : n.Evolves n') : n'.Proper where
  tidy := he.tidy h.tidy
  writable := he.writable h.writable
  closes id c' hc' := by
    cases hc : n.server.connection? id with
    | none =>
      rw [(he.newcomer hn hc hc').2]
      trivial
    | some c =>
      obtain ⟨d, hd, hpass⟩ := he.passes h hc
      exact hpass.closes (h.closes id c hc)
  closed id c' hc' hphase := by
    cases hc : n.server.connection? id with
    | none => exact absurd ((he.newcomer hn hc hc').1.symm.trans hphase) (by simp)
    | some c =>
      obtain ⟨d, hd, hpass⟩ := he.passes h hc
      obtain rfl := Option.some.inj (hc'.symm.trans hd)
      exact hpass.closed (h.closes id c hc) (h.closed id c hc) hphase
  owners e hm id ho := by
    rcases he.entries hm with hold | ⟨k, c, hk, hc, hphase, hw⟩
    · obtain ⟨c, hc, hphase, hw⟩ := h.owners e hold id ho
      obtain ⟨c', hc', hpass⟩ := he.passes h hc
      rcases hpass.owner hphase hw with hgone | ⟨hphase', hw'⟩
      · exact absurd ho (hgone e hm)
      · exact ⟨c', hc', hphase', hw'⟩
    · obtain rfl := Option.some.inj (hk.symm.trans ho)
      exact ⟨c, hc, hphase, hw⟩

theorem run (h : n.Proper) (hn : n.Civil) (steps : List (Crowd.Step Empty)) :
    (Crowd.run n steps).Proper := by
  induction steps generalizing n with
  | nil => exact h
  | cons f steps ih => exact ih (h.evolves hn (evolves_step n f)) (hn.step f)

theorem strangers (capacity : Nat) : (strangers capacity).Proper where
  tidy := Server.Tidy.start List.Pairwise.nil
  writable c hc := absurd hc List.not_mem_nil
  closes id c hc := absurd hc (by simp [Network.strangers, start, Server.start, Server.connection?])
  closed id c hc := absurd hc (by simp [Network.strangers, start, Server.start, Server.connection?])
  owners e he := absurd he List.not_mem_nil

/-- A closed connection owns no entry, and no notice will be meant for it. -/
theorem of_closed (h : n.Proper) (hc : n.server.connection? id = some c) (hp : c.phase = .closed) :
    (∀ e ∈ n.entries, e.owner ≠ some id) ∧ ∀ k, id ∉ n.server.audience k := by
  constructor
  · intro e he ho
    obtain ⟨d, hd, hphase, -⟩ := h.owners e he id ho
    obtain rfl := Option.some.inj (hc.symm.trans hd)
    exact absurd (hp.symm.trans hphase) (by simp)
  · intro k hm
    obtain ⟨-, d, hd, hopen⟩ := (Server.mem_audience_iff h.tidy).mp hm
    obtain rfl := Option.some.inj (hc.symm.trans hd)
    exact hopen hp

end Proper

/-! ## Connections that end -/

/-- The handler of the connection will do no more than end it. -/
def Ending (n : Network Empty) (id : ConnectionId) : Prop :=
  ∃ c, n.server.connection? id = some c ∧ Doomed c.phase (n.channel id).jobs

theorem Ending.run (h : n.Ending id) (hp : n.Proper) (hn : n.Civil) (steps : List (Crowd.Step Empty)) :
    (Crowd.run n steps).Ending id := by
  induction steps generalizing n with
  | nil => exact h
  | cons f steps ih =>
    obtain ⟨c, hc, hd⟩ := h
    have he := evolves_step n f
    obtain ⟨c', hc', hpass⟩ := he.passes hp hc
    exact ih ⟨c', hc', hpass.doomed hd⟩ (hp.evolves hn he) (hn.step f)

/-- When the handler has done all, the connection is closed. -/
theorem Ending.closed (h : n.Ending id) (hj : (n.channel id).jobs = []) :
    ∃ c, n.server.connection? id = some c ∧ c.phase = .closed := by
  obtain ⟨c, hc, hd⟩ := h
  rw [hj] at hd
  exact ⟨c, hc, hd.resolve_right List.not_mem_nil⟩

end Network

end PeerChat
