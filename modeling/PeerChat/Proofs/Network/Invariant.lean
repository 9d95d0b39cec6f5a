import PeerChat.Proofs.Network.Basic
import PeerChat.Proofs.Network.Stage

/-!
# What holds in every network

Every client is tied to the connection that it holds, in one of the stages of a connection
(`Tied`).  On a connection that its client has left, either nothing is registered or the client's
`REMOVE` is still to be read (`Former`).  `Sound` collects what all steps preserve as long as the
network is intact.
-/

namespace PeerChat

/-- The job will tell the connection of the newcomer. -/
def Job.Tells (id : ConnectionId) (name : String) (job : Job) : Prop :=
  job = .announce (.newcomer name) ∨ ∃ ids, job = .deliver ids (.newcomer name) ∧ id ∈ ids

namespace Network

variable {ι : Type}

/-- Another connection's handler is about to tell of the newcomer. -/
def Awaited (n : Network ι) (id : ConnectionId) (name : String) : Prop :=
  ∃ j, j ≠ id ∧ ∃ job ∈ (n.channel j).jobs, job.Tells id name

/-- What was queued for the client of a connection and has not arrived. -/
def coming (n : Network ι) (c : Connection) : Bytes :=
  (n.channel c.id).down ++ c.outbox.flatMap fun m => Utf8.encode m.text

def entries (n : Network ι) : List Entry := n.server.directory.entries

/-- The stage of the connection of a client that holds it. -/
def Held (n : Network ι) (i : ι) (id : ConnectionId) (c : Connection) : Prop :=
  Stage n.entries (n.Awaited id) (n.client i).stand (n.client i).peers c.phase (n.channel id).up
    (n.channel id).jobs (n.channel id).told (n.coming c)

/-- How a client is tied to the server. -/
inductive Tied (n : Network ι) (i : ι) : Prop
  | apart (stand : (n.client i).stand = .apart) (place : n.place i = .none)
  | reaching (stand : (n.client i).stand = .reaching) (place : n.place i = .reaching)
  | connected {id : ConnectionId} {c : Connection} (place : n.place i = .connected id)
      (connection : n.server.connection? id = some c) (goesOn : (n.channel id).upEnded = false)
      (held : n.Held i id c)

/-- A connection that its client has left: what is registered on it will be removed. -/
inductive Former (n : Network ι) (id : ConnectionId) : Prop
  | free (ended : (n.channel id).upEnded = true) (up : (n.channel id).up = [])
      (none : ∀ e ∈ n.entries, e.owner ≠ some id)
  | leaving {c : Connection} {name : String} {commands : List Command}
      (ended : (n.channel id).upEnded = true) (connection : n.server.connection? id = some c)
      (phase : c.phase = .registered name) (valid : isName name = true)
      (up : (n.channel id).up = Command.bytesAll commands ++ (Command.remove name).bytes)
      (sent : ∀ c ∈ commands, c.GoesOn) (goesOn : ∀ job ∈ (n.channel id).jobs, job.GoesOn)

/-- What holds at all times. -/
structure Sound (n : Network ι) : Prop where
  ids : ∀ c ∈ n.server.connections, c.id < n.server.nextId
  fresh : ∀ id, n.server.connection? id = none → n.channel id = {} ∧ n.holder id = none
  holders : ∀ c ∈ n.server.connections, ∃ i, n.holder c.id = some i
  jobs : ∀ id, ∀ job ∈ (n.channel id).jobs, job.Valid
  peers : ∀ e ∈ n.entries, e.peer.Valid
  /-- An entry belongs to a connection that is or was registered under its name. -/
  owners : ∀ e ∈ n.entries, ∀ id, e.owner = some id → ∃ c, n.server.connection? id = some c ∧
    (c.phase = .registered e.peer.name ∨ c.phase = .closed)
  clients : ∀ i, (n.client i).Consistent
  writable : ∀ i, (n.client i).serverWritable = true
  places : ∀ i id, n.place i = .connected id → n.holder id = some i
  tied : ∀ i, n.Tied i
  former : ∀ i id, n.holder id = some i → n.place i ≠ .connected id → n.Former id

variable {n n' : Network ι} {i j : ι} {id other : ConnectionId} {c : Connection}

/-! ## Frames -/

/-- A client that is not concerned, at a connection that is not concerned. -/
theorem Held.frame (h : n.Held i id c) (hc : n'.client i = n.client i)
    (hch : n'.channel id = n.channel id) (hid : c.id = id)
    (he : ∀ e ∈ n'.entries, e ∈ n.entries ∨ n'.Awaited id e.peer.name)
    (ha : ∀ name, n.Awaited id name → n'.Awaited id name) : n'.Held i id c := by
  have hcoming : n'.coming c = n.coming c := by rw [coming, coming, hid, hch]
  rw [Held, hc, hch, hcoming]
  exact h.mono he ha

theorem Tied.frame (h : n.Tied i) (hc : n'.client i = n.client i) (hp : n'.place i = n.place i)
    (hv : ∀ id, n.place i = .connected id →
      n'.server.connection? id = n.server.connection? id ∧ n'.channel id = n.channel id ∧
        (∀ e ∈ n'.entries, e ∈ n.entries ∨ n'.Awaited id e.peer.name) ∧
        ∀ name, n.Awaited id name → n'.Awaited id name) : n'.Tied i := by
  cases h with
  | apart stand place => exact .apart (hc ▸ stand) (hp.trans place)
  | reaching stand place => exact .reaching (hc ▸ stand) (hp.trans place)
  | connected place connection goesOn held =>
    obtain ⟨hconn, hch, he, ha⟩ := hv _ place
    exact .connected (hp.trans place) (hconn.trans connection) (hch ▸ goesOn)
      (held.frame hc hch (Server.connection?_id connection) he ha)

theorem Former.frame (h : n.Former id) (hconn : n'.server.connection? id = n.server.connection? id)
    (hch : n'.channel id = n.channel id)
    (he : ∀ e ∈ n'.entries, e.owner = some id → e ∈ n.entries) : n'.Former id := by
  cases h with
  | free ended up none =>
    exact .free (hch ▸ ended) (hch ▸ up) fun e hm ho => none e (he e hm ho) ho
  | leaving ended connection phase valid up sent goesOn =>
    exact .leaving (hch ▸ ended) (hconn.trans connection) phase valid (hch ▸ up) sent (hch ▸ goesOn)

theorem Awaited.congr (hj : ∀ id, (n'.channel id).jobs = (n.channel id).jobs) {name : String}
    (h : n.Awaited id name) : n'.Awaited id name := by
  obtain ⟨j, hne, job, hm, ht⟩ := h
  exact ⟨j, hne, job, (hj j).symm ▸ hm, ht⟩

/-! ## Turns of a client -/

variable [DecidableEq ι]

/-- One client has acted; what is left to show is about this client alone. -/
theorem Sound.acts (h : n.Sound) (ha : Acts i n n') (hc : (n'.client i).Ready)
    (ht : n'.Tied i)
    (hf : ∀ id, n.place i = .connected id → n'.place i ≠ .connected id → n'.Former id) :
    n'.Sound where
  ids := ha.server ▸ h.ids
  fresh id hid := by
    rw [ha.server] at hid
    obtain ⟨hch, hh⟩ := h.fresh id hid
    refine ⟨?_, ha.holder ▸ hh⟩
    rw [ha.channel id fun hp => ?_, hch]
    rw [h.places i id hp] at hh
    exact absurd hh (by simp)
  holders c hm := by
    rw [ha.server] at hm
    rw [ha.holder]
    exact h.holders c hm
  jobs id job hm := h.jobs id job (ha.jobs id ▸ hm)
  peers e he := h.peers e (by rwa [entries, ha.server] at he)
  owners e he := by
    rw [ha.server]
    exact h.owners e (by rwa [entries, ha.server] at he)
  clients j := by
    by_cases hj : j = i
    · rw [hj]
      exact hc.toConsistent
    · rw [ha.client j hj]
      exact h.clients j
  writable j := by
    by_cases hj : j = i
    · rw [hj]
      exact hc.writable
    · rw [ha.client j hj]
      exact h.writable j
  places j id hp := by
    rw [ha.holder]
    by_cases hj : j = i
    · rw [hj] at hp ⊢
      exact h.places i id (ha.stays id hp)
    · rw [ha.place j hj] at hp
      exact h.places j id hp
  tied j := by
    by_cases hj : j = i
    · rw [hj]
      exact ht
    · refine (h.tied j).frame (ha.client j hj) (ha.place j hj) fun id hp => ?_
      refine ⟨by rw [ha.server], ha.channel id fun hi => hj ?_, fun e he => .inl ?_,
        fun name => Awaited.congr ha.jobs⟩
      · have := (h.places j id hp).symm.trans (h.places i id hi)
        exact Option.some.inj this
      · rwa [entries, ha.server] at he
  former j id hh hp := by
    rw [ha.holder] at hh
    by_cases hi : n.place i = .connected id
    · have hj : j = i := Option.some.inj (hh.symm.trans (h.places i id hi))
      exact hf id hi (hj ▸ hp)
    · have hold : n.place j ≠ .connected id := by
        intro hn
        by_cases hj : j = i
        · exact hi (hj ▸ hn)
        · exact hp ((ha.place j hj).trans hn)
      refine (h.former j id hh hold).frame (by rw [ha.server]) (ha.channel id hi) fun e he _ => ?_
      rwa [entries, ha.server] at he

omit [DecidableEq ι] in
theorem Tied.place_of_apart (h : n.Tied i) (hs : (n.client i).stand = .apart) :
    n.place i = .none := by
  cases h with
  | apart stand place => exact place
  | reaching stand place => exact absurd (hs.symm.trans stand) (by simp)
  | connected place connection goesOn held => exact absurd hs (Stage.stand_ne held).1

omit [DecidableEq ι] in
theorem Tied.stand_of_reaching (h : n.Tied i) (hp : n.place i = .reaching) :
    (n.client i).stand = .reaching := by
  cases h with
  | apart stand place => exact absurd (hp.symm.trans place) (by simp)
  | reaching stand place => exact stand
  | connected place connection goesOn held => exact absurd (hp.symm.trans place) (by simp)

omit [DecidableEq ι] in
theorem Tied.held (h : n.Tied i) (hp : n.place i = .connected id) :
    ∃ c, n.server.connection? id = some c ∧ (n.channel id).upEnded = false ∧ n.Held i id c := by
  cases h with
  | apart stand place => exact absurd (hp.symm.trans place) (by simp)
  | reaching stand place => exact absurd (hp.symm.trans place) (by simp)
  | connected place connection goesOn held =>
    obtain rfl := Place.connected.inj (hp.symm.trans place)
    exact ⟨_, connection, goesOn, held⟩

omit [DecidableEq ι] in
theorem Tied.exists_held (h : n.Tied i) (ha : (n.client i).stand ≠ .apart)
    (hr : (n.client i).stand ≠ .reaching) :
    ∃ id c, n.place i = .connected id ∧ n.server.connection? id = some c ∧
      (n.channel id).upEnded = false ∧ n.Held i id c := by
  cases h with
  | apart stand place => exact absurd stand ha
  | reaching stand place => exact absurd stand hr
  | connected place connection goesOn held => exact ⟨_, _, place, connection, goesOn, held⟩

omit [DecidableEq ι] in
/-- Only the handler of a connection has jobs. -/
theorem exists_of_jobs
    (fresh : ∀ id, n.server.connection? id = none → n.channel id = {} ∧ n.holder id = none)
    (hj : (n.channel id).jobs ≠ []) : ∃ c, n.server.connection? id = some c := by
  cases hc : n.server.connection? id with
  | none =>
    rw [(fresh id hc).1] at hj
    exact absurd rfl hj
  | some c => exact ⟨c, rfl⟩

omit [DecidableEq ι] in
/-- Nothing belongs to a connection that has not registered. -/
theorem Sound.not_owner (h : n.Sound) (hc : n.server.connection? id = some c)
    (hp : c.phase = .registering) : ∀ e ∈ n.entries, e.owner ≠ some id := by
  intro e he ho
  obtain ⟨d, hd, hphase⟩ := h.owners e he id ho
  obtain rfl := Option.some.inj (hc.symm.trans hd)
  rw [hp] at hphase
  rcases hphase with hphase | hphase
  · exact absurd hphase (by simp)
  · exact absurd hphase (by simp)

/-- The stage of the connection after its client has acted. -/
theorem Held.of_client {client : Client} {f : Channel → Channel} (hid : c.id = id)
    (hf : ∀ ch, (f ch).down = ch.down ∧ (f ch).told = ch.told ∧ (f ch).jobs = ch.jobs)
    (hn : n' = (n.setClient i client).onChannel id f)
    (h : Stage n.entries (n.Awaited id) client.stand client.peers c.phase (f (n.channel id)).up
      (n.channel id).jobs (n.channel id).told (n.coming c)) : n'.Held i id c := by
  have hclient : n'.client i = client := by rw [hn]; exact client_setClient n client
  have hchannel : n'.channel id = f (n.channel id) := by
    rw [hn, channel_onChannel, channel_setClient]
  have hcoming : n'.coming c = n.coming c := by
    rw [coming, coming, hid, hchannel, (hf _).1]
  have hentries : n'.entries = n.entries := by rw [hn]; rfl
  rw [Held, hclient, hchannel, hcoming, (hf _).2.1, (hf _).2.2, hentries]
  refine h.mono (fun e he => .inl he) fun name => Awaited.congr fun j => ?_
  by_cases hj : j = id
  · rw [hj, hchannel, (hf _).2.2]
  · rw [hn, channel_onChannel_of_ne _ f hj, channel_setClient]

end Network

end PeerChat
