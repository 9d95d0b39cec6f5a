import PeerChat.Proofs.Network.Invariant

/-!
# What the server's handlers do

A handler changes its own connection, or the one that it tells of a newcomer (`Serves`), and the
network stays sound (`Sound.serves`).
-/

namespace PeerChat.Network

variable {ι : Type} {n n' : Network ι} {i : ι} {id target : ConnectionId}
  {ids : List ConnectionId} {c : Connection}

/-- From `n` to `n'` nothing has changed but the directory and the connections `ids`, at which
handlers of the server have acted. -/
structure Serves (ids : List ConnectionId) (n n' : Network ι) : Prop where
  client : n'.client = n.client
  place : n'.place = n.place
  holder : n'.holder = n.holder
  nextId : n'.server.nextId = n.server.nextId
  known : n'.server.connections.map (·.id) = n.server.connections.map (·.id)
  connection : ∀ j, j ∉ ids → n'.server.connection? j = n.server.connection? j
  channel : ∀ j, j ∉ ids → n'.channel j = n.channel j
  upEnded : ∀ j, (n'.channel j).upEnded = (n.channel j).upEnded

namespace Serves

theorem trans {m : Network ι} (h : Serves ids n n') (g : Serves ids n' m) : Serves ids n m where
  client := g.client.trans h.client
  place := g.place.trans h.place
  holder := g.holder.trans h.holder
  nextId := g.nextId.trans h.nextId
  known := g.known.trans h.known
  connection j hj := (g.connection j hj).trans (h.connection j hj)
  channel j hj := (g.channel j hj).trans (h.channel j hj)
  upEnded j := (g.upEnded j).trans (h.upEnded j)

theorem mono {more : List ConnectionId} (h : Serves ids n n') (hsub : ids ⊆ more) :
    Serves more n n' where
  client := h.client
  place := h.place
  holder := h.holder
  nextId := h.nextId
  known := h.known
  connection j hj := h.connection j fun hm => hj (hsub hm)
  channel j hj := h.channel j fun hm => hj (hsub hm)
  upEnded := h.upEnded

theorem onChannel (n : Network ι) (hid : id ∈ ids) {f : Channel → Channel}
    (hf : ∀ ch, (f ch).upEnded = ch.upEnded) : Serves ids n (n.onChannel id f) := by
  have hne : ∀ j, j ∉ ids → j ≠ id := by
    rintro j hj rfl
    exact hj hid
  refine ⟨rfl, rfl, rfl, rfl, rfl, fun j hj => rfl,
    fun j hj => channel_onChannel_of_ne n f (hne j hj), fun j => ?_⟩
  by_cases hj : j = id
  · rw [hj, channel_onChannel, hf]
  · rw [channel_onChannel_of_ne n f hj]

theorem setServer (n : Network ι) (hid : id ∈ ids) {s : Server} (hnext : s.nextId = n.server.nextId)
    (hknown : s.connections.map (·.id) = n.server.connections.map (·.id))
    (hconn : ∀ j, j ≠ id → s.connection? j = n.server.connection? j) :
    Serves ids n { n with server := s } := by
  refine ⟨rfl, rfl, rfl, hnext, hknown, fun j hj => hconn j ?_, fun j hj => rfl, fun j => rfl⟩
  rintro rfl
  exact hj hid

end Serves

/-- Handlers have acted; what is left to show is about the connections at which they have. -/
theorem Sound.serves (h : n.Sound) (hs : Serves ids n n') (hold : ∀ id ∈ ids, ∃ c, n.server.connection? id = some c)
    (hjobs : ∀ id ∈ ids, ∀ job ∈ (n'.channel id).jobs, job.Valid)
    (hphase : ∀ id ∈ ids, ∀ c, n.server.connection? id = some c → ∃ c',
      n'.server.connection? id = some c' ∧
        (c.phase = .registering ∨ c'.phase = c.phase ∨ c'.phase = .closed))
    (hentries : ∀ e ∈ n'.entries, e ∈ n.entries ∨ e.peer.Valid ∧ ∃ id ∈ ids, e.owner = some id ∧
      (∃ c, n'.server.connection? id = some c ∧ c.phase = .registered e.peer.name) ∧
        ∀ j, j ∉ ids → n'.Awaited j e.peer.name)
    (hawaited : ∀ j, j ∉ ids → ∀ c, n.server.connection? j = some c → c.phase ≠ .closed →
      ∀ name, n.Awaited j name → n'.Awaited j name)
    (hheld : ∀ id ∈ ids, ∀ i c, n.server.connection? id = some c → n.place i = .connected id →
      n.Held i id c → ∃ c', n'.server.connection? id = some c' ∧ n'.Held i id c')
    (hformer : ∀ id ∈ ids, n.Former id → n'.Former id) : n'.Sound where
  ids c hm := by
    have hid : c.id ∈ n'.server.connections.map (·.id) := List.mem_map_of_mem hm
    rw [hs.known] at hid
    obtain ⟨d, hd, he⟩ := List.mem_map.mp hid
    rw [hs.nextId, ← he]
    exact h.ids d hd
  fresh id hid := by
    have hnone : id ∉ ids := by
      intro hm
      obtain ⟨c, hc⟩ := hold id hm
      obtain ⟨c', hc', -⟩ := hphase id hm c hc
      rw [hid] at hc'
      exact absurd hc' (by simp)
    rw [hs.connection id hnone] at hid
    rw [hs.holder, hs.channel id hnone]
    exact h.fresh id hid
  holders c hm := by
    have hid : c.id ∈ n'.server.connections.map (·.id) := List.mem_map_of_mem hm
    rw [hs.known] at hid
    obtain ⟨d, hd, he⟩ := List.mem_map.mp hid
    rw [hs.holder, ← he]
    exact h.holders d hd
  jobs id job hm := by
    by_cases hid : id ∈ ids
    · exact hjobs id hid job hm
    · exact h.jobs id job (hs.channel id hid ▸ hm)
  peers e he := by
    rcases hentries e he with hm | ⟨hv, -⟩
    · exact h.peers e hm
    · exact hv
  owners e he id ho := by
    rcases hentries e he with hm | ⟨-, id', -, ho', ⟨c, hc, hp⟩, -⟩
    · obtain ⟨c, hc, hp⟩ := h.owners e hm id ho
      by_cases hid : id ∈ ids
      · obtain ⟨c', hc', hreg | hsame | hclosed⟩ := hphase id hid c hc
        · exact absurd ho (h.not_owner hc hreg e hm)
        · exact ⟨c', hc', hsame ▸ hp⟩
        · exact ⟨c', hc', .inr hclosed⟩
      · exact ⟨c, (hs.connection id hid).trans hc, hp⟩
    · obtain rfl := Option.some.inj (ho'.symm.trans ho)
      exact ⟨c, hc, .inl hp⟩
  clients i := hs.client ▸ h.clients i
  writable i := hs.client ▸ h.writable i
  places i id hp := by
    rw [hs.holder]
    exact h.places i id (hs.place ▸ hp)
  tied i := by
    cases h.tied i with
    | apart stand place => exact .apart (hs.client ▸ stand) (hs.place ▸ place)
    | reaching stand place => exact .reaching (hs.client ▸ stand) (hs.place ▸ place)
    | @connected id c place connection goesOn held =>
      by_cases hid : id ∈ ids
      · obtain ⟨c', hc', hh⟩ := hheld id hid i c connection place held
        exact .connected (hs.place ▸ place) hc' ((hs.upEnded id).trans goesOn) hh
      · refine .connected (hs.place ▸ place) ((hs.connection id hid).trans connection)
          ((hs.upEnded id).trans goesOn) ?_
        refine held.frame (by rw [hs.client]) (hs.channel id hid) (Server.connection?_id connection)
          (fun e he => ?_) (hawaited id hid c connection (Stage.not_closed held))
        rcases hentries e he with hm | ⟨-, -, -, -, -, ha⟩
        · exact .inl hm
        · exact .inr (ha id hid)
  former i id hh hp := by
    rw [hs.holder] at hh
    rw [hs.place] at hp
    have hf := h.former i id hh hp
    by_cases hid : id ∈ ids
    · exact hformer id hid hf
    · refine hf.frame (hs.connection id hid) (hs.channel id hid) fun e he ho => ?_
      rcases hentries e he with hm | ⟨-, id', hid', ho', -⟩
      · exact hm
      · obtain rfl := Option.some.inj (ho'.symm.trans ho)
        exact absurd hid' hid

/-- One handler has acted at its own connection. -/
theorem Sound.serves_one (h : n.Sound) (hs : Serves [id] n n') (hold : ∃ c, n.server.connection? id = some c)
    (hjobs : ∀ job ∈ (n'.channel id).jobs, job.Valid)
    (hentries : ∀ e ∈ n'.entries, e ∈ n.entries ∨ e.peer.Valid ∧ e.owner = some id ∧
      (∃ c, n'.server.connection? id = some c ∧ c.phase = .registered e.peer.name) ∧
        ∀ j, j ≠ id → n'.Awaited j e.peer.name)
    (hawaited : ∀ j, j ≠ id → ∀ c, n.server.connection? j = some c → c.phase ≠ .closed →
      ∀ name, n.Awaited j name → n'.Awaited j name)
    (hconn : ∀ c, n.server.connection? id = some c → ∃ c', n'.server.connection? id = some c' ∧
      (c.phase = .registering ∨ c'.phase = c.phase ∨ c'.phase = .closed) ∧
        ∀ i, n.place i = .connected id → n.Held i id c → n'.Held i id c')
    (hformer : n.Former id → n'.Former id) : n'.Sound := by
  refine h.serves hs ?_ ?_ ?_ ?_ ?_ ?_ ?_
  · exact fun j hj => List.mem_singleton.mp hj ▸ hold
  · exact fun j hj => List.mem_singleton.mp hj ▸ hjobs
  · intro j hj c hc
    obtain rfl := List.mem_singleton.mp hj
    obtain ⟨c', hc', hp, -⟩ := hconn c hc
    exact ⟨c', hc', hp⟩
  · intro e he
    rcases hentries e he with hm | ⟨hv, ho, hp, ha⟩
    · exact .inl hm
    · exact .inr ⟨hv, id, List.mem_singleton.mpr rfl, ho, hp,
        fun j hj => ha j fun he => hj (List.mem_singleton.mpr he)⟩
  · exact fun j hj => hawaited j fun he => hj (List.mem_singleton.mpr he)
  · intro j hj i c hc hg held
    obtain rfl := List.mem_singleton.mp hj
    obtain ⟨c', hc', -, hh⟩ := hconn c hc
    exact ⟨c', hc', hh i hg held⟩
  · exact fun j hj => List.mem_singleton.mp hj ▸ hformer

/-- A former connection on which the server has read nothing and only worked. -/
theorem Former.works (h : n.Former id) (hended : (n'.channel id).upEnded = (n.channel id).upEnded)
    (hup : (n'.channel id).up = (n.channel id).up)
    (hconn : ∀ c, n.server.connection? id = some c →
      ∃ c', n'.server.connection? id = some c' ∧ c'.phase = c.phase)
    (hjobs : (∀ job ∈ (n.channel id).jobs, job.GoesOn) → ∀ job ∈ (n'.channel id).jobs, job.GoesOn)
    (he : ∀ e ∈ n'.entries, e ∈ n.entries) : n'.Former id := by
  cases h with
  | free ended up none =>
    exact .free (hended.trans ended) (hup.trans up) fun e hm => none e (he e hm)
  | leaving ended connection phase valid up sent goesOn =>
    obtain ⟨c', hc', hp⟩ := hconn _ connection
    exact .leaving (hended.trans ended) hc' (hp.trans phase) valid (hup.trans up) sent
      (hjobs goesOn)

/-! ## Queues -/

theorem exists_of_hasRoom (hr : n.server.hasRoom id = true) :
    ∃ c, n.server.connection? id = some c := by
  unfold Server.hasRoom at hr
  split at hr
  · rename_i c hc
    exact ⟨c, hc⟩
  · exact absurd hr (by simp)

/-- A step about one outbox, with what it does to the channel. -/
theorem Serves.update (n : Network ι) (hid : id ∈ ids) {f : Connection → Connection}
    {g : Channel → Channel} (hf : ∀ c, (f c).id = c.id) (hg : ∀ ch, (g ch).upEnded = ch.upEnded) :
    Serves ids n ({ n with server := n.server.update id f }.onChannel id g) := by
  refine (Serves.setServer (s := n.server.update id f) n hid rfl (Server.ids_update hf)
    fun j hj => ?_).trans (.onChannel _ hid hg)
  rw [Server.connection?_update hf, if_neg hj]

theorem queue_eq {m : ServerMessage} (hr : n.server.hasRoom id = true) :
    n.queue id m =
      { n with server := n.server.update id fun c => { c with outbox := c.outbox ++ [m] } }.onChannel
        id fun ch => { ch with told := ch.told ++ [m] } := by
  rw [Network.queue, if_pos hr, Server.queue, if_pos hr]

theorem channel_queue {m : ServerMessage} (hr : n.server.hasRoom id = true) :
    (n.queue id m).channel id = { n.channel id with told := (n.channel id).told ++ [m] } := by
  rw [queue_eq hr, channel_onChannel]

theorem channel_queue_of_ne {m : ServerMessage} (hr : n.server.hasRoom id = true)
    (hne : target ≠ id) : (n.queue id m).channel target = n.channel target := by
  rw [queue_eq hr, channel_onChannel_of_ne _ _ hne]

theorem connection?_queue {m : ServerMessage} (hr : n.server.hasRoom id = true)
    (hc : n.server.connection? id = some c) :
    (n.queue id m).server.connection? id = some { c with outbox := c.outbox ++ [m] } := by
  rw [queue_eq hr]
  exact Server.connection?_update_self (by exact fun c => rfl) hc

theorem connection?_queue_of_ne {m : ServerMessage} (hr : n.server.hasRoom id = true)
    (hne : target ≠ id) :
    (n.queue id m).server.connection? target = n.server.connection? target := by
  rw [queue_eq hr]
  exact (Server.connection?_update (by exact fun c => rfl)).trans (if_neg hne)

theorem entries_queue {m : ServerMessage} (hr : n.server.hasRoom id = true) :
    (n.queue id m).entries = n.entries := by
  rw [queue_eq hr]
  rfl

theorem Serves.queue (n : Network ι) (hid : id ∈ ids) {m : ServerMessage}
    (hr : n.server.hasRoom id = true) : Serves ids n (n.queue id m) := by
  rw [queue_eq hr]
  exact .update n hid (fun c => rfl) fun ch => rfl

theorem coming_append {m : ServerMessage} (hch : (n'.channel c.id).down = (n.channel c.id).down) :
    n'.coming { c with outbox := c.outbox ++ [m] } = n.coming c ++ Utf8.encode m.text := by
  rw [coming, coming, hch, List.flatMap_append, List.append_assoc]
  simp

/-- The first message of an outbox is written, or there is none. -/
theorem write_cases (n : Network ι) (id : ConnectionId) :
    n.write id = n ∨ ∃ (c : Connection) (m : ServerMessage) (rest : List ServerMessage),
      n.server.connection? id = some c ∧ Serves [id] n (n.write id) ∧
      (n.write id).server.connection? id = some { c with outbox := rest } ∧
        (n.write id).channel id =
            { n.channel id with down := (n.channel id).down ++ Utf8.encode m.text } ∧
          (n.write id).entries = n.entries ∧ (n.write id).coming { c with outbox := rest } = n.coming c := by
  unfold Network.write
  split
  · rename_i c hc
    split
    · rename_i m rest hm
      obtain rfl := Server.connection?_id hc
      generalize hn : Network.onChannel _ c.id _ = n'
      have hserves : Serves [c.id] n n' := by
        rw [← hn]
        exact .update n (List.mem_singleton.mpr rfl) (fun d => rfl) fun ch => rfl
      have hconn : n'.server.connection? c.id = some { c with outbox := rest } := by
        rw [← hn]
        refine (Server.connection?_update_self (by exact fun d => rfl) hc).trans ?_
        rw [hm]
        rfl
      have hchannel : n'.channel c.id =
          { n.channel c.id with down := (n.channel c.id).down ++ Utf8.encode m.text } := by
        rw [← hn, channel_onChannel]
      have hentries : n'.entries = n.entries := by rw [← hn]; rfl
      have hcoming : n'.coming { c with outbox := rest } = n.coming c := by
        rw [coming, coming, hchannel, hm, List.flatMap_cons, List.append_assoc]
      exact .inr ⟨c, m, rest, hc, hserves, hconn, hchannel, hentries, hcoming⟩
    · exact .inl rfl
  · exact .inl rfl

theorem Sound.write (h : n.Sound) (id : ConnectionId) : (n.write id).Sound := by
  rcases n.write_cases id with hn | ⟨c, m, rest, hc, hserves, hconn, hchannel, hentries, hcoming⟩
  · rw [hn]
    exact h
  · obtain rfl := Server.connection?_id hc
    generalize n.write c.id = n' at hserves hconn hchannel hentries hcoming
    have hawaited : ∀ j name, n.Awaited j name → n'.Awaited j name := by
      intro j name
      refine Awaited.congr fun k => ?_
      by_cases hk : k = c.id
      · rw [hk, hchannel]
      · rw [hserves.channel k (by simpa using hk)]
    refine h.serves_one hserves ⟨c, hc⟩ ?_ (fun e he => .inl (hentries ▸ he))
      (fun j _ d _ _ => hawaited j) ?_ ?_
    · rw [hchannel]
      exact h.jobs c.id
    · intro d hd
      obtain rfl := Option.some.inj (hc.symm.trans hd)
      refine ⟨_, hconn, .inr (.inl rfl), fun i _ held => ?_⟩
      rw [Held, hserves.client, hentries, hcoming, hchannel]
      exact Stage.mono held (fun e he => .inl he) (hawaited _)
    · intro hf
      refine hf.works (by rw [hchannel]) (by rw [hchannel]) (fun d hd => ?_)
        (by rw [hchannel]; exact fun hg => hg) fun e he => hentries ▸ he
      obtain rfl := Option.some.inj (hc.symm.trans hd)
      exact ⟨_, hconn, rfl⟩

/-! ## Jobs -/

/-- A job that tells nobody of anybody can be dropped. -/
theorem Awaited.skip {job : Job} {later : List Job} {j : ConnectionId} {name : String}
    (hjobs : (n.channel id).jobs = job :: later) (hnot : ¬ job.Tells j name)
    (hlater : (n'.channel id).jobs = later) (hs : Serves [id] n n') (h : n.Awaited j name) :
    n'.Awaited j name := by
  obtain ⟨k, hne, job', hm, ht⟩ := h
  refine ⟨k, hne, job', ?_, ht⟩
  by_cases hk : k = id
  · rw [hk, hjobs] at hm
    rw [hk, hlater]
    refine (List.mem_cons.mp hm).resolve_left ?_
    rintro rfl
    exact hnot ht
  · rwa [hs.channel k (by simpa using hk)]

theorem channel_setJobs (jobs : List Job) :
    (n.setJobs id jobs).channel id = { n.channel id with jobs } := channel_onChannel n _

theorem Serves.setJobs (n : Network ι) (hid : id ∈ ids) (jobs : List Job) :
    Serves ids n (n.setJobs id jobs) := .onChannel n hid fun _ => rfl

section

variable {job : Job} {later jobs : List Job} (hjobs : (n.channel id).jobs = job :: later)
  (hgo : ∀ job' ∈ jobs, job' ∈ job :: later ∨ job'.GoesOn)
include hjobs hgo

/-- At any connection, the stage after a handler has gone on with other jobs. -/
theorem Held.setJobs (hhead : ∀ m, job ≠ .reply m)
    (hr : Job.replies jobs = Job.replies (job :: later)) {j : ConnectionId} (hid : c.id = j)
    (h : n.Held i j c) : Stage n.entries (n.Awaited j) (n.client i).stand (n.client i).peers c.phase
      ((n.setJobs id jobs).channel j).up ((n.setJobs id jobs).channel j).jobs
      ((n.setJobs id jobs).channel j).told ((n.setJobs id jobs).coming c) := by
  by_cases hj : j = id
  · subst hj
    rw [Held, hjobs] at h
    have hcoming : (n.setJobs j jobs).coming c = n.coming c := by
      rw [coming, coming, hid, channel_setJobs]
    rw [channel_setJobs, hcoming]
    exact Stage.setJobs h hhead hgo hr
  · have hchannel : (n.setJobs id jobs).channel j = n.channel j := channel_onChannel_of_ne n _ hj
    have hcoming : (n.setJobs id jobs).coming c = n.coming c := by
      rw [coming, coming, hid, hchannel]
    rw [hchannel, hcoming]
    exact h

theorem Former.setJobs {j : ConnectionId} (h : n.Former j) : (n.setJobs id jobs).Former j := by
  by_cases hj : j = id
  · subst hj
    refine h.works (by rw [channel_setJobs]) (by rw [channel_setJobs]) (fun c hc => ⟨c, hc, rfl⟩)
      (fun hg => ?_) fun e he => he
    rw [hjobs] at hg
    rw [channel_setJobs]
    intro job' hm
    rcases hgo job' hm with hold | hgoes
    · exact hg job' hold
    · exact hgoes
  · exact h.frame rfl (channel_onChannel_of_ne n _ hj) fun e he _ => he

/-- A handler goes on with other jobs, and queues nothing. -/
theorem Sound.setJobs (h : n.Sound) (hhead : ∀ m, job ≠ .reply m)
    (hvalid : ∀ job' ∈ jobs, job'.Valid) (hr : Job.replies jobs = Job.replies (job :: later))
    (hawaited : ∀ j, j ≠ id → ∀ c, n.server.connection? j = some c → c.phase ≠ .closed →
      ∀ name, n.Awaited j name → (n.setJobs id jobs).Awaited j name) :
    (n.setJobs id jobs).Sound := by
  refine h.serves_one (.setJobs n (List.mem_singleton.mpr rfl) jobs)
    (exists_of_jobs h.fresh (by simp [hjobs])) ?_ (fun e he => .inl he) hawaited ?_
    (Former.setJobs hjobs hgo)
  · rw [channel_setJobs]
    exact hvalid
  · intro c hc
    refine ⟨c, hc, .inr (.inl rfl), fun i _ held => ?_⟩
    have hstage := Held.setJobs hjobs hgo hhead hr (Server.connection?_id hc) held
    refine hstage.mono (fun e he => .inl he) fun name ⟨k, hne, job', hm, ht⟩ => ?_
    exact ⟨k, hne, job', by rwa [Network.setJobs, channel_onChannel_of_ne n _ hne], ht⟩

end

/-- A handler queues its reply, and goes on. -/
theorem replies_spec (hr : n.server.hasRoom id = true) (m : ServerMessage) (later : List Job) :
    Serves [id] n ((n.setJobs id later).queue id m) ∧
      ((n.setJobs id later).queue id m).channel id =
        { n.channel id with jobs := later, told := (n.channel id).told ++ [m] } ∧
      (∀ c, n.server.connection? id = some c →
        ((n.setJobs id later).queue id m).server.connection? id =
          some { c with outbox := c.outbox ++ [m] }) ∧
      ((n.setJobs id later).queue id m).entries = n.entries := by
  have hr' : (n.setJobs id later).server.hasRoom id = true := hr
  refine ⟨?_, ?_, ?_, entries_queue (n := n.setJobs id later) hr'⟩
  · exact (Serves.setJobs n (List.mem_singleton.mpr rfl) later).trans
      (.queue _ (List.mem_singleton.mpr rfl) hr')
  · rw [channel_queue hr', channel_setJobs]
  · exact fun c hc => connection?_queue (n := n.setJobs id later) hr' hc

/-- A reply is queued. -/
theorem Sound.replies (h : n.Sound) {m : ServerMessage} {later : List Job}
    (hjobs : (n.channel id).jobs = .reply m :: later) (hr : n.server.hasRoom id = true) :
    ((n.setJobs id later).queue id m).Sound := by
  obtain ⟨hserves, hchannel, hconn, hentries⟩ := replies_spec hr m later
  generalize (n.setJobs id later).queue id m = n' at hserves hchannel hconn hentries
  have hawaited : ∀ j name, n.Awaited j name → n'.Awaited j name :=
    fun j name => Awaited.skip hjobs (by simp [Job.Tells]) (by rw [hchannel]) hserves
  refine h.serves_one hserves (exists_of_jobs h.fresh (by simp [hjobs])) ?_
    (fun e he => .inl (hentries ▸ he)) (fun j _ d _ _ => hawaited j) ?_ ?_
  · intro job hm
    rw [hchannel] at hm
    exact h.jobs id job (hjobs ▸ List.mem_cons_of_mem _ hm)
  · intro c hc
    refine ⟨_, hconn c hc, .inr (.inl rfl), fun i _ held => ?_⟩
    rw [Held, hjobs] at held
    have hdown : (n'.channel c.id).down = (n.channel c.id).down := by
      rw [Server.connection?_id hc, hchannel]
    rw [Held, hserves.client, hentries, coming_append hdown, hchannel]
    exact held.answer.mono (fun e he => .inl he) (hawaited _)
  · intro hf
    refine hf.works (by rw [hchannel]) (by rw [hchannel]) (fun c hc => ⟨_, hconn c hc, rfl⟩)
      (fun hg => ?_) fun e he => hentries ▸ he
    rw [hjobs] at hg
    rw [hchannel]
    exact fun job hm => hg job (List.mem_cons_of_mem _ hm)

/-- A handler whose client has left takes back what is registered, or forgets the connection. -/
theorem Sound.ends (h : n.Sound) {job : Job} {later : List Job} {s : Server}
    (hjobs : (n.channel id).jobs = job :: later) (hjob : job = .withdraw ∨ job = .forget)
    (hnext : s.nextId = n.server.nextId)
    (hknown : s.connections.map (·.id) = n.server.connections.map (·.id))
    (hconn : ∀ j, j ≠ id → s.connection? j = n.server.connection? j)
    (hphase : ∀ c, n.server.connection? id = some c → ∃ c', s.connection? id = some c' ∧
      (c'.phase = c.phase ∨ c'.phase = .closed))
    (hentries : s.directory.entries ⊆ n.entries) :
    (({ n with server := s } : Network ι).setJobs id later).Sound := by
  have hmem : job ∈ (n.channel id).jobs := by simp [hjobs]
  have hnot : ¬ job.GoesOn := by
    rcases hjob with rfl | rfl
    · exact fun hg => hg
    · exact fun hg => hg
  have hserves : Serves [id] n (({ n with server := s } : Network ι).setJobs id later) :=
    (Serves.setServer n (List.mem_singleton.mpr rfl) hnext hknown hconn).trans
      (.setJobs _ (List.mem_singleton.mpr rfl) later)
  have hchannel : (({ n with server := s } : Network ι).setJobs id later).channel id =
      { n.channel id with jobs := later } := channel_setJobs later
  refine h.serves_one hserves (exists_of_jobs h.fresh (by simp [hjobs])) ?_
    (fun e he => .inl (hentries he)) ?_ ?_ ?_
  · intro job' hm
    rw [hchannel] at hm
    exact h.jobs id job' (hjobs ▸ List.mem_cons_of_mem _ hm)
  · intro j _ d _ _ name
    refine Awaited.skip hjobs ?_ (by rw [hchannel]) hserves
    rcases hjob with rfl | rfl
    · simp [Job.Tells]
    · simp [Job.Tells]
  · intro c hc
    obtain ⟨c', hc', hp⟩ := hphase c hc
    refine ⟨c', hc', .inr hp, fun i _ held => ?_⟩
    rcases Stage.goesOn held hmem with ⟨m, rfl⟩ | hg
    · rcases hjob with hjob | hjob
      · exact absurd hjob (by simp)
      · exact absurd hjob (by simp)
    · exact absurd hg hnot
  · intro hf
    cases hf with
    | free ended up none =>
      exact .free (by rw [hchannel]; exact ended) (by rw [hchannel]; exact up)
        fun e he => none e (hentries he)
    | leaving ended connection phase valid up sent goesOn => exact absurd (goesOn job hmem) hnot

theorem Sound.work (h : n.Sound) (hi : (n.work id).intact = true) : (n.work id).Sound := by
  unfold Network.work at hi ⊢
  split at hi
  · rename_i m later hjobs
    split at hi
    · rename_i hr
      rw [if_pos hr]
      exact h.replies hjobs hr
    · exact absurd hi (by simp [Network.setJobs])
  · rename_i m later hjobs
    obtain ⟨hnew, hlater⟩ : (Job.announce m).Valid ∧ ∀ job ∈ later, job.Valid :=
      List.forall_mem_cons.mp (hjobs ▸ h.jobs id)
    refine Sound.setJobs hjobs ?_ h (by simp) (List.forall_mem_cons.mpr ⟨hnew, hlater⟩) rfl ?_
    · intro job hm
      rcases List.mem_cons.mp hm with rfl | hm
      · exact .inr trivial
      · exact .inl (List.mem_cons_of_mem _ hm)
    · rintro j hne c hc hopen name ⟨k, hk, job, hm, ht⟩
      by_cases hkid : k = id
      · subst hkid
        rw [hjobs] at hm
        rcases List.mem_cons.mp hm with rfl | hm
        · have hm : m = .newcomer name := by simpa [Job.Tells] using ht
          refine ⟨k, hk, .deliver (n.server.audience k) m, ?_, .inr ⟨_, by rw [hm], ?_⟩⟩
          · rw [channel_setJobs]
            exact List.mem_cons_self ..
          · exact Server.mem_audience hc hopen hne
        · exact ⟨k, hk, job, by rw [channel_setJobs]; exact List.mem_cons_of_mem _ hm, ht⟩
      · exact ⟨k, hk, job, by rwa [Network.setJobs, channel_onChannel_of_ne n _ hkid], ht⟩
  · rename_i m later hjobs
    obtain ⟨-, hlater⟩ : (Job.deliver [] m).Valid ∧ ∀ job ∈ later, job.Valid :=
      List.forall_mem_cons.mp (hjobs ▸ h.jobs id)
    refine Sound.setJobs hjobs (fun job hm => .inl (List.mem_cons_of_mem _ hm)) h (by simp) hlater rfl ?_
    intro j _ c _ _ name
    exact Awaited.skip hjobs (by simp [Job.Tells]) (by rw [channel_setJobs])
      (.setJobs n (List.mem_singleton.mpr rfl) later)
  · exact h
  · rename_i later hjobs
    refine h.ends hjobs (.inl rfl) Server.nextId_withdrawOwn ?_ (fun j _ => ?_) (fun c hc => ?_)
      Server.entries_withdrawOwn_subset
    · rw [Server.connections_withdrawOwn]
    · exact Server.connection?_withdrawOwn
    · exact ⟨c, Server.connection?_withdrawOwn.trans hc, .inl rfl⟩
  · rename_i later hjobs
    refine h.ends hjobs (.inr rfl) rfl (Server.ids_update fun c => rfl) (fun j hj => ?_)
      (fun c hc => ?_) fun e he => he
    · rw [Server.forget, Server.connection?_update (by exact fun c => rfl), if_neg hj]
    · exact ⟨_, Server.connection?_update_self (by exact fun c => rfl) hc, .inr rfl⟩
  · exact h

/-- A handler has told one more of those on its list. -/
theorem Awaited.deliver {m : ServerMessage} {later : List Job} {j : ConnectionId} {name : String}
    (hjobs : (n.channel id).jobs = .deliver ids m :: later)
    (hnew : (n'.channel id).jobs = .deliver (ids.erase target) m :: later)
    (hother : ∀ k, k ≠ id → (n'.channel k).jobs = (n.channel k).jobs) (h : n.Awaited j name) :
    j = target ∧ m = .newcomer name ∨ n'.Awaited j name := by
  obtain ⟨k, hne, job, hm, ht⟩ := h
  by_cases hk : k = id
  · subst hk
    rw [hjobs] at hm
    rcases List.mem_cons.mp hm with rfl | hm
    · obtain ⟨rfl, hj⟩ : m = .newcomer name ∧ j ∈ ids := by simpa [Job.Tells] using ht
      by_cases hjt : j = target
      · exact .inl ⟨hjt, rfl⟩
      · refine .inr ⟨k, hne, _, hnew ▸ List.mem_cons_self .., .inr ⟨_, rfl, ?_⟩⟩
        exact (List.mem_erase_of_ne hjt).mpr hj
    · exact .inr ⟨k, hne, job, hnew ▸ List.mem_cons_of_mem _ hm, ht⟩
  · exact .inr ⟨k, hne, job, by rwa [hother k hk], ht⟩

/-- A handler queues a notice at another connection; `m` is the network after it has gone on with its
jobs, of which the notice is not one any more. -/
theorem Sound.notifies {m : Network ι} {name : String} (h : n.Sound) (hname : isName name = true)
    (hs : Serves [id] n m) (hserver : m.server = n.server) (hold : ∃ c, n.server.connection? id = some c)
    (hr : m.server.hasRoom target = true) (hjobs : ∀ j, ∀ job ∈ (m.channel j).jobs, job.Valid)
    (hawaited : ∀ j another, n.Awaited j another → j = target ∧ name = another ∨ m.Awaited j another)
    (hstage : ∀ i j c, c.id = j → n.Held i j c →
      Stage n.entries (n.Awaited j) (n.client i).stand (n.client i).peers c.phase (m.channel j).up
        (m.channel j).jobs (m.channel j).told (m.coming c))
    (hformer : ∀ j, n.Former j → m.Former j) : (m.queue target (.newcomer name)).Sound := by
  have hserves : Serves [id, target] n (m.queue target (.newcomer name)) :=
    (hs.mono (by simp)).trans (.queue m (by simp) hr)
  have hentries : (m.queue target (.newcomer name)).entries = n.entries := by
    rw [entries_queue hr, entries, hserver]
    rfl
  have hqueued : ∀ j, ((m.queue target (.newcomer name)).channel j).jobs = (m.channel j).jobs := by
    intro j
    by_cases hj : j = target
    · rw [hj, channel_queue hr]
    · rw [channel_queue_of_ne hr hj]
  have hconn : ∀ c, n.server.connection? target = some c →
      (m.queue target (.newcomer name)).server.connection? target =
        some { c with outbox := c.outbox ++ [.newcomer name] } :=
    fun c hc => connection?_queue hr (hserver ▸ hc)
  have hconn' : ∀ j, j ≠ target →
      (m.queue target (.newcomer name)).server.connection? j = n.server.connection? j := by
    intro j hj
    rw [connection?_queue_of_ne hr hj, hserver]
  refine h.serves hserves ?_ ?_ ?_ (fun e he => .inl (hentries ▸ he)) ?_ ?_ ?_
  · intro j hj
    rcases List.mem_cons.mp hj with rfl | hj
    · exact hold
    · rw [List.mem_singleton.mp hj, ← hserver]
      exact exists_of_hasRoom hr
  · intro j _ job hm
    exact hjobs j job (hqueued j ▸ hm)
  · intro j _ c hc
    by_cases hj : j = target
    · subst hj
      exact ⟨_, hconn c hc, .inr (.inl rfl)⟩
    · exact ⟨c, (hconn' j hj).trans hc, .inr (.inl rfl)⟩
  · intro j hj c _ _ another ha
    rcases hawaited j another ha with ⟨hjt, -⟩ | ha
    · exact absurd (by simp [hjt]) hj
    · exact ha.congr hqueued
  · intro j _ i c hc _ held
    have hs := hstage i j c (Server.connection?_id hc) held
    by_cases hj : j = target
    · subst hj
      have hdown : ((m.queue j (.newcomer name)).channel c.id).down = (m.channel c.id).down := by
        rw [Server.connection?_id hc, channel_queue hr]
      refine ⟨_, hconn c hc, ?_⟩
      rw [Held, hserves.client, hentries, coming_append hdown, channel_queue hr]
      refine hs.notice hname fun another ha => ?_
      rcases hawaited j another ha with ⟨-, heq⟩ | ha
      · exact .inl heq.symm
      · exact .inr (ha.congr hqueued)
    · have hcoming : (m.queue target (.newcomer name)).coming c = m.coming c := by
        rw [coming, coming, Server.connection?_id hc, channel_queue_of_ne hr hj]
      refine ⟨c, (hconn' j hj).trans hc, ?_⟩
      rw [Held, hserves.client, hentries, hcoming, channel_queue_of_ne hr hj]
      refine hs.mono (fun e he => .inl he) fun another ha => ?_
      rcases hawaited j another ha with ⟨hjt, -⟩ | ha
      · exact absurd hjt hj
      · exact ha.congr hqueued
  · intro j _ hf
    have hf := hformer j hf
    by_cases hj : j = target
    · subst hj
      refine hf.works (by rw [channel_queue hr]) (by rw [channel_queue hr])
        (fun c hc => ⟨_, connection?_queue hr hc, rfl⟩) (fun hg => ?_) fun e he => entries_queue hr ▸ he
      rw [channel_queue hr]
      exact hg
    · exact hf.frame (connection?_queue_of_ne hr hj) (channel_queue_of_ne hr hj)
        fun e he _ => entries_queue hr ▸ he

theorem Sound.deliver (h : n.Sound) (hi : (n.deliver id target).intact = true) :
    (n.deliver id target).Sound := by
  unfold Network.deliver at hi ⊢
  split at hi
  · rename_i told m later hjobs
    split at hi
    · rename_i hmem
      rw [if_pos hmem]
      obtain ⟨-, hr⟩ := intact_queue _ hi
      obtain ⟨⟨name, rfl, hname⟩, hlater⟩ : (Job.deliver told m).Valid ∧ ∀ job ∈ later, job.Valid :=
        List.forall_mem_cons.mp (hjobs ▸ h.jobs id)
      have hgo : ∀ job ∈ Job.deliver (told.erase target) (.newcomer name) :: later,
          job ∈ Job.deliver told (.newcomer name) :: later ∨ job.GoesOn := by
        intro job hm
        rcases List.mem_cons.mp hm with rfl | hm
        · exact .inr trivial
        · exact .inl (List.mem_cons_of_mem _ hm)
      refine h.notifies hname (.setJobs n (List.mem_singleton.mpr rfl) _) rfl
        (exists_of_jobs h.fresh (by simp [hjobs])) hr (fun j job hm => ?_) (fun j another ha => ?_)
        (fun i j c hid held => Held.setJobs hjobs hgo (by simp) rfl hid held)
        fun j hf => Former.setJobs hjobs hgo hf
      · by_cases hj : j = id
        · rw [hj, channel_setJobs] at hm
          rcases List.mem_cons.mp hm with rfl | hm
          · exact ⟨name, rfl, hname⟩
          · exact hlater job hm
        · rw [Network.setJobs, channel_onChannel_of_ne n _ hj] at hm
          exact h.jobs j job hm
      · have hnew : ((n.setJobs id
            (.deliver (told.erase target) (.newcomer name) :: later)).channel id).jobs =
              .deliver (told.erase target) (.newcomer name) :: later := by rw [channel_setJobs]
        rcases ha.deliver hjobs hnew fun k hk => by
          rw [Network.setJobs, channel_onChannel_of_ne n _ hk] with ⟨hjt, heq⟩ | ha
        · exact .inl ⟨hjt, ServerMessage.newcomer.inj heq⟩
        · exact .inr ha
    · rename_i hmem
      rw [if_neg hmem]
      exact h
  · exact h

end PeerChat.Network
