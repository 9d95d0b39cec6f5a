import PeerChat.Proofs.Server.Roll
import PeerChat.Proofs.Wire.Announcement
import PeerChat.Proofs.Wire.Command
import PeerChat.Server.Jobs

/-!
# What the steps of a handler do

Each step changes one connection, or the directory, and leaves all others as they are.
-/

namespace PeerChat

/-- What a job queues is understood by the client that it is for. -/
def Job.Valid : Job → Prop
  | .reply m => m.Valid
  | .announce m | .deliver _ m => ∃ name, m = .newcomer name ∧ isName name = true
  | .withdraw | .forget => True

theorem Job.valid_closing : ∀ job ∈ Server.closing, job.Valid := by
  intro job hm
  rcases List.mem_cons.mp hm with rfl | hm
  · trivial
  · rw [List.mem_singleton.mp hm]
    trivial

namespace Server

variable {s : Server} {id j : ConnectionId} {c : Connection}

/-! ## One connection -/

theorem connection?_id (h : s.connection? id = some c) : c.id = id := (connection?_mem h).2

theorem connection?_update {f : Connection → Connection} (hf : ∀ c, (f c).id = c.id) :
    (s.update id f).connection? j =
      if j = id then (s.connection? id).map f else s.connection? j := by
  have hfind : ∀ cs : List Connection,
      (cs.map fun c => if c.id = id then f c else c).find? (fun c => c.id = j) =
        if j = id then (cs.find? fun c => c.id = id).map f else cs.find? fun c => c.id = j := by
    intro cs
    induction cs with
    | nil => simp
    | cons c cs ih =>
      rw [List.map_cons, List.find?_cons, List.find?_cons, List.find?_cons]
      by_cases hc : c.id = id
      · rw [if_pos hc, hf c]
        by_cases hj : j = id
        · simp [hc, hj]
        · have hne : id ≠ j := fun h => hj h.symm
          simp [hj, hc, hne, ih]
      · rw [if_neg hc]
        by_cases hj : c.id = j
        · have hne : j ≠ id := fun h => hc (hj.trans h)
          simp [hj, hne]
        · simp [hj, hc, ih]
  exact hfind s.connections

theorem connection?_update_self {f : Connection → Connection} (hf : ∀ c, (f c).id = c.id)
    (h : s.connection? id = some c) : (s.update id f).connection? id = some (f c) := by
  rw [connection?_update hf, if_pos rfl, h]
  rfl

theorem ids_update {f : Connection → Connection} (hf : ∀ c, (f c).id = c.id) :
    (s.update id f).connections.map (·.id) = s.connections.map (·.id) := by
  rw [update, List.map_map]
  refine List.map_congr_left fun c _ => ?_
  rw [Function.comp_apply]
  split
  · exact hf c
  · rfl

/-- The next connection is a new one. -/
theorem connection?_nextId (hs : ∀ c ∈ s.connections, c.id < s.nextId) :
    s.connection? s.nextId = none := by
  cases hc : s.connection? s.nextId with
  | none => rfl
  | some c =>
    obtain ⟨hm, hid⟩ := connection?_mem hc
    exact absurd hid (Nat.ne_of_lt (hs c hm))

theorem connection?_accept (hs : ∀ c ∈ s.connections, c.id < s.nextId) (address : IpAddress) :
    (s.accept address).connection? j =
      if j = s.nextId then some ⟨s.nextId, address, .registering, [], [], true⟩ else s.connection? j := by
  rw [connection?, accept, List.find?_append]
  by_cases hj : j = s.nextId
  · have hnone : (s.connections.find? fun c => c.id = j) = none := by
      refine List.find?_eq_none.mpr fun c hc => ?_
      simp only [decide_eq_true_eq]
      exact Nat.ne_of_lt (hj ▸ hs c hc)
    rw [hnone, if_pos hj]
    simp [hj]
  · rw [if_neg hj]
    have hne : s.nextId ≠ j := fun h => hj h.symm
    simp [hne, connection?]

theorem connection?_queue (m : ServerMessage) (hr : s.hasRoom id = true) :
    (s.queue id m).connection? j =
      if j = id then (s.connection? id).map fun c => { c with outbox := c.outbox ++ [m] }
      else s.connection? j := by
  rw [queue, if_pos hr]
  exact connection?_update fun c => rfl

theorem connection?_congr {t : Server} (h : t.connections = s.connections) :
    t.connection? j = s.connection? j := by rw [connection?, connection?, h]

theorem connections_withdrawOwn : (s.withdrawOwn id).connections = s.connections := by
  unfold withdrawOwn
  split
  · exact withdraw_connections s _
  · rfl

theorem connection?_withdrawOwn : (s.withdrawOwn id).connection? j = s.connection? j :=
  connection?_congr connections_withdrawOwn

theorem nextId_withdrawOwn : (s.withdrawOwn id).nextId = s.nextId := by
  unfold withdrawOwn
  split
  · exact withdraw_nextId s _
  · rfl

theorem entries_eraseOwned_subset (d : Directory) (name : String) (owner : OwnerId) :
    (d.eraseOwned name owner).entries ⊆ d.entries := by
  unfold Directory.eraseOwned
  split
  · exact fun e he => (Directory.mem_erase.mp he).1
  · exact fun e he => he

theorem entries_withdrawOwn_subset :
    (s.withdrawOwn id).directory.entries ⊆ s.directory.entries := by
  unfold withdrawOwn withdraw
  split
  · split
    · exact entries_eraseOwned_subset _ _ _
    · exact fun e he => he
  · exact fun e he => he

theorem mem_audience {except : ConnectionId} (h : s.connection? id = some c) (ho : c.phase ≠ .closed)
    (hne : id ≠ except) : id ∈ s.audience except := by
  obtain ⟨hm, hid⟩ := connection?_mem h
  refine List.mem_filter.mpr ⟨List.mem_map.mpr ⟨c, List.mem_filter.mpr ⟨hm, ?_⟩, hid⟩, ?_⟩
  · simpa using ho
  · simpa using hne

/-! ## The first step about a command -/

theorem begin_text {command : Command} (h : command.Valid) :
    s.begin c (.text command.text) = s.beginCommand c command := by
  rw [begin, if_neg (Command.trim_text_ne command), Command.parse_text h]

/-- A registration enters the peer under a free name, or is refused. -/
theorem beginRegister_cases (s : Server) (c : Connection) (name : String) (port : UInt16) :
    (∃ directory others, s.directory.insert ⟨name, c.address, port⟩ (some c.id) =
        .ok (directory, others) ∧
      s.beginRegister c name port =
        (({ s with directory } : Server).update c.id fun c => { c with phase := .registered name },
          [.reply (.peerList others), .announce (.newcomer name)])) ∨
      ∃ m, (m = .nameTaken ∨ m = .serverFull) ∧ s.beginRegister c name port = (s, [.reply m]) := by
  unfold beginRegister
  split
  · rename_i directory others h
    exact .inl ⟨directory, others, h, rfl⟩
  · exact .inr ⟨.nameTaken, .inl rfl, rfl⟩
  · exact .inr ⟨.serverFull, .inr rfl, rfl⟩

end Server

end PeerChat
