import PeerChat.Proofs.Crowd.Terms
import PeerChat.Proofs.Network.Handlers

/-!
# What holds in every crowd

Every connection of a client is `Served`, also one that the client has left, and the client that holds
it is on its `Terms` with the handler.  `Civil` adds what keeps strangers from getting between them: they
hold none of these connections, and enter and announce only what every client can read.
-/

namespace PeerChat.Network

variable {ι : Type}

/-- How a client is attached to the server. -/
inductive Attached (n : Network ι) (i : ι) : Prop
  | apart (stand : (n.client i).stand = .apart) (place : n.place i = .none)
  | reaching (stand : (n.client i).stand = .reaching) (place : n.place i = .reaching)
  | connected {id : ConnectionId} {c : Connection} (place : n.place i = .connected id)
      (connection : n.server.connection? id = some c)
      (terms : Terms c.phase (n.channel id).up (n.channel id).jobs (n.coming c) (n.client i).stand)

/-- What holds at all times, whatever is lost. -/
structure Civil (n : Network ι) : Prop where
  ids : ∀ c ∈ n.server.connections, c.id < n.server.nextId
  fresh : ∀ id, n.server.connection? id = none → n.channel id = {} ∧ n.holder id = none
  jobs : ∀ id, ∀ job ∈ (n.channel id).jobs, job.Valid
  peers : ∀ e ∈ n.entries, e.peer.Valid
  clients : ∀ i, (n.client i).Consistent
  places : ∀ i id, n.place i = .connected id → n.holder id = some i
  served : ∀ i id c, n.holder id = some i → n.server.connection? id = some c →
    Served c.phase (n.channel id).up (n.channel id).jobs (n.channel id).told
  attached : ∀ i, n.Attached i

variable {n n' : Network ι} {i j : ι} {id : ConnectionId} {ids : List ConnectionId} {c c' : Connection}
  {client : Client}

namespace Attached

theorem place_of_apart (h : n.Attached i) (hs : (n.client i).stand = .apart) : n.place i = .none := by
  cases h with
  | apart stand place => exact place
  | reaching stand place => exact absurd (hs.symm.trans stand) (by simp)
  | connected place connection terms => exact absurd hs terms.stand_ne.1

theorem stand_of_reaching (h : n.Attached i) (hp : n.place i = .reaching) :
    (n.client i).stand = .reaching := by
  cases h with
  | apart stand place => exact absurd (hp.symm.trans place) (by simp)
  | reaching stand place => exact stand
  | connected place connection terms => exact absurd (hp.symm.trans place) (by simp)

theorem terms (h : n.Attached i) (hp : n.place i = .connected id) :
    ∃ c, n.server.connection? id = some c ∧
      Terms c.phase (n.channel id).up (n.channel id).jobs (n.coming c) (n.client i).stand := by
  cases h with
  | apart stand place => exact absurd (hp.symm.trans place) (by simp)
  | reaching stand place => exact absurd (hp.symm.trans place) (by simp)
  | connected place connection terms =>
    obtain rfl := Place.connected.inj (hp.symm.trans place)
    exact ⟨_, connection, terms⟩

/-- A client that has to do with the server holds a connection. -/
theorem exists_terms (h : n.Attached i) {stand : Stand} (hs : (n.client i).stand = stand)
    (ha : stand ≠ .apart) (hr : stand ≠ .reaching) :
    ∃ id c, n.place i = .connected id ∧ n.server.connection? id = some c ∧
      Terms c.phase (n.channel id).up (n.channel id).jobs (n.coming c) stand := by
  subst hs
  cases h with
  | apart stand place => exact absurd stand ha
  | reaching stand place => exact absurd stand hr
  | connected place connection terms => exact ⟨_, _, place, connection, terms⟩

/-- Nothing has been done to the client and its connection. -/
theorem frame (h : n.Attached i) (hc : n'.client i = n.client i) (hp : n'.place i = n.place i)
    (hv : ∀ id, n.place i = .connected id →
      n'.server.connection? id = n.server.connection? id ∧ n'.channel id = n.channel id) :
    n'.Attached i := by
  cases h with
  | apart stand place => exact .apart (hc ▸ stand) (hp.trans place)
  | reaching stand place => exact .reaching (hc ▸ stand) (hp.trans place)
  | @connected id c place connection terms =>
    obtain ⟨hconn, hch⟩ := hv id place
    have hcoming : n'.coming c = n.coming c := by
      rw [coming, coming, Server.connection?_id connection, hch]
    refine .connected (hp.trans place) (hconn.trans connection) ?_
    rw [hc, hch, hcoming]
    exact terms

end Attached

/-! ## A client acts -/

/-- One client has acted; what is left to show is about this client and its connection. -/
theorem Civil.acts (h : n.Civil) (ha : Acts i n n') (hc : (n'.client i).Consistent) (ht : n'.Attached i)
    (hs : ∀ id c, n.place i = .connected id → n.server.connection? id = some c →
      Served c.phase (n'.channel id).up (n'.channel id).jobs (n'.channel id).told) : n'.Civil where
  ids := ha.server ▸ h.ids
  fresh id hid := by
    rw [ha.server] at hid
    obtain ⟨hch, hh⟩ := h.fresh id hid
    refine ⟨?_, ha.holder ▸ hh⟩
    rw [ha.channel id fun hp => ?_, hch]
    rw [h.places i id hp] at hh
    exact absurd hh (by simp)
  jobs id job hm := h.jobs id job (ha.jobs id ▸ hm)
  peers e he := h.peers e (by rwa [entries, ha.server] at he)
  clients j := by
    by_cases hj : j = i
    · rw [hj]
      exact hc
    · rw [ha.client j hj]
      exact h.clients j
  places j id hp := by
    rw [ha.holder]
    by_cases hj : j = i
    · rw [hj] at hp ⊢
      exact h.places i id (ha.stays id hp)
    · rw [ha.place j hj] at hp
      exact h.places j id hp
  served j id c hh hconn := by
    rw [ha.holder] at hh
    rw [ha.server] at hconn
    by_cases hp : n.place i = .connected id
    · exact hs id c hp hconn
    · rw [ha.channel id hp]
      exact h.served j id c hh hconn
  attached j := by
    by_cases hj : j = i
    · rw [hj]
      exact ht
    · refine (h.attached j).frame (ha.client j hj) (ha.place j hj) fun id hp => ?_
      refine ⟨by rw [ha.server], ha.channel id fun hi => hj ?_⟩
      exact Option.some.inj ((h.places j id hp).symm.trans (h.places i id hi))

/-! ## Handlers act -/

/-- What has been done at a connection goes with its being served, and with any client's terms. -/
structure Follows (n n' : Network ι) (c c' : Connection) : Prop where
  served : Served c.phase (n.channel c.id).up (n.channel c.id).jobs (n.channel c.id).told →
    Served c'.phase (n'.channel c.id).up (n'.channel c.id).jobs (n'.channel c.id).told
  terms : ∀ stand, Terms c.phase (n.channel c.id).up (n.channel c.id).jobs (n.coming c) stand →
    Terms c'.phase (n'.channel c.id).up (n'.channel c.id).jobs (n'.coming c') stand

/-- Handlers have acted; what is left to show is about the connections at which they have. -/
theorem Civil.serves (h : n.Civil) (hs : Serves ids n n')
    (hold : ∀ id ∈ ids, ∃ c, n.server.connection? id = some c)
    (hjobs : ∀ id ∈ ids, ∀ job ∈ (n'.channel id).jobs, job.Valid)
    (hpeers : ∀ e ∈ n'.entries, e.peer.Valid)
    (hconn : ∀ id ∈ ids, ∀ c, n.server.connection? id = some c →
      ∃ c', n'.server.connection? id = some c' ∧ ∀ i, n.holder id = some i → n.Follows n' c c') :
    n'.Civil where
  ids c hm := by
    have hid : c.id ∈ n'.server.connections.map (·.id) := List.mem_map_of_mem hm
    rw [hs.known] at hid
    obtain ⟨d, hd, he⟩ := List.mem_map.mp hid
    rw [hs.nextId, ← he]
    exact h.ids d hd
  fresh id hid := by
    have hnone : id ∉ ids := by
      intro hm
      obtain ⟨c, hc⟩ := hold id hm
      obtain ⟨c', hc', -⟩ := hconn id hm c hc
      rw [hid] at hc'
      exact absurd hc' (by simp)
    rw [hs.connection id hnone] at hid
    rw [hs.holder, hs.channel id hnone]
    exact h.fresh id hid
  jobs id job hm := by
    by_cases hid : id ∈ ids
    · exact hjobs id hid job hm
    · exact h.jobs id job (hs.channel id hid ▸ hm)
  peers := hpeers
  clients i := hs.client ▸ h.clients i
  places i id hp := by
    rw [hs.holder]
    exact h.places i id (hs.place ▸ hp)
  served i id c hh hc := by
    rw [hs.holder] at hh
    by_cases hid : id ∈ ids
    · obtain ⟨d, hd⟩ := hold id hid
      obtain ⟨d', hd', hfollows⟩ := hconn id hid d hd
      obtain rfl := Option.some.inj (hc.symm.trans hd')
      obtain rfl := Server.connection?_id hd
      exact (hfollows i hh).served (h.served i d.id d hh hd)
    · rw [hs.connection id hid] at hc
      rw [hs.channel id hid]
      exact h.served i id c hh hc
  attached i := by
    cases h.attached i with
    | apart stand place => exact .apart (hs.client ▸ stand) (hs.place ▸ place)
    | reaching stand place => exact .reaching (hs.client ▸ stand) (hs.place ▸ place)
    | @connected id c place connection terms =>
      by_cases hid : id ∈ ids
      · obtain ⟨c', hc', hfollows⟩ := hconn id hid c connection
        obtain rfl := Server.connection?_id connection
        refine .connected (hs.place ▸ place) hc' ?_
        rw [hs.client]
        exact (hfollows i (h.places i c.id place)).terms _ terms
      · refine Attached.frame (.connected place connection terms) (by rw [hs.client])
          (by rw [hs.place]) fun id' hid' => ?_
        obtain rfl := Place.connected.inj (place.symm.trans hid')
        exact ⟨hs.connection id hid, hs.channel id hid⟩

/-- One handler has acted at its own connection. -/
theorem Civil.serves_one (h : n.Civil) (hs : Serves [id] n n') (hc : n.server.connection? id = some c)
    (hjobs : ∀ job ∈ (n'.channel id).jobs, job.Valid) (hpeers : ∀ e ∈ n'.entries, e.peer.Valid)
    (hc' : n'.server.connection? id = some c')
    (hf : ∀ i, n.holder id = some i → n.Follows n' c c') : n'.Civil := by
  refine h.serves hs ?_ ?_ hpeers ?_
  · exact fun j hj => List.mem_singleton.mp hj ▸ ⟨c, hc⟩
  · exact fun j hj => List.mem_singleton.mp hj ▸ hjobs
  · intro j hj d hd
    obtain rfl := List.mem_singleton.mp hj
    obtain rfl := Option.some.inj (hc.symm.trans hd)
    exact ⟨c', hc', hf⟩

/-! ## Connections are made -/

theorem Civil.exists_of_busy (h : n.Civil) {job : Job} {later : List Job}
    (hjobs : (n.channel id).jobs = job :: later) : ∃ c, n.server.connection? id = some c :=
  exists_of_jobs h.fresh (by simp [hjobs])

/-- Someone connects to the server. -/
theorem Civil.enter (h : n.Civil) (address : IpAddress) :
    ({ n with server := n.server.accept address } : Network ι).Civil := by
  obtain ⟨hchannel, hholder⟩ := h.fresh _ (Server.connection?_nextId h.ids)
  have hconn : ∀ j, (n.server.accept address).connection? j =
      if j = n.server.nextId then some ⟨n.server.nextId, address, .registering, [], [], true⟩
      else n.server.connection? j := fun j => Server.connection?_accept h.ids address
  have hold : ∀ j, j ≠ n.server.nextId →
      (n.server.accept address).connection? j = n.server.connection? j :=
    fun j hj => (hconn j).trans (if_neg hj)
  have hheld : ∀ i id, n.holder id = some i → id ≠ n.server.nextId := by
    rintro i id hh rfl
    exact absurd (hholder.symm.trans hh) (by simp)
  refine ⟨?_, ?_, h.jobs, h.peers, h.clients, h.places, ?_, ?_⟩
  · intro c hm
    rcases List.mem_append.mp hm with hm | hm
    · exact Nat.lt_succ_of_lt (h.ids c hm)
    · rw [List.mem_singleton.mp hm]
      exact Nat.lt_succ_self _
  · intro id hid
    have hne : id ≠ n.server.nextId := by
      rintro rfl
      rw [hconn, if_pos rfl] at hid
      exact absurd hid (by simp)
    exact h.fresh id ((hold id hne).symm.trans hid)
  · intro i id c hh hc
    exact h.served i id c hh ((hold id (hheld i id hh)).symm.trans hc)
  · intro i
    exact (h.attached i).frame rfl rfl fun id hp => ⟨hold id (hheld i id (h.places i id hp)), rfl⟩

/-! ## Strangers -/

/-- Something is done to a connection that is nobody's of the clients. -/
theorem Civil.onStranger (h : n.Civil) {f : Channel → Channel} (hf : ∀ ch, (f ch).jobs = ch.jobs) :
    (n.onStranger id f).Civil := by
  unfold Network.onStranger
  split
  · rename_i hid
    obtain ⟨hholder, hconn⟩ := hid
    have hheld : ∀ i j, n.holder j = some i → (n.onChannel id f).channel j = n.channel j := by
      intro i j hh
      refine channel_onChannel_of_ne n f ?_
      rintro rfl
      exact absurd (hholder.symm.trans hh) (by simp)
    refine ⟨h.ids, fun j hj => ?_, fun j job hm => ?_, h.peers, h.clients, h.places,
      fun i j c hh hc => ?_, fun i => ?_⟩
    · have hne : j ≠ id := by
        rintro rfl
        rw [show n.server.connection? j = none from hj] at hconn
        exact absurd hconn (by simp)
      rw [channel_onChannel_of_ne n f hne]
      exact h.fresh j hj
    · by_cases hj : j = id
      · rw [hj, channel_onChannel, hf] at hm
        exact h.jobs id job hm
      · rw [channel_onChannel_of_ne n f hj] at hm
        exact h.jobs j job hm
    · rw [hheld i j hh]
      exact h.served i j c hh hc
    · exact (h.attached i).frame rfl rfl fun j hp => ⟨rfl, hheld i j (h.places i j hp)⟩
  · exact h

end PeerChat.Network
