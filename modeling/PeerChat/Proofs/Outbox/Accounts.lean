import PeerChat.Proofs.Crowd.Run
import PeerChat.Proofs.Network.Alone
import PeerChat.Proofs.Server.Replies
import PeerChat.Proofs.Wire.Transcript

/-!
# What a step does to an outbox

The server among strangers (`Network.strangers`), who connect to it and say what they like.  For each
connection, a step queues what it has for it, if there is room, and writes the first message of an
outbox (`accounts_step`).  All that was ever queued is therefore on the wire or in the outbox, in this
order (`Told.run`).
-/

namespace PeerChat

theorem ServerMessage.transcript_append (messages later : List ServerMessage) :
    transcript (messages ++ later) = transcript messages ++ transcript later := List.flatMap_append

namespace Network

/-- A server to which nobody is connected yet, and only strangers will be. -/
def strangers (capacity : Nat) : Network Empty :=
  start capacity Empty.elim Empty.elim Empty.elim

theorem civil_strangers (capacity : Nat) (steps : List (Crowd.Step Empty)) :
    (Crowd.run (strangers capacity) steps).Civil := (civil_start ..).run steps

variable {ι : Type}

/-- What a step has for a connection: the reply that its handler has come to, or the notice that
another handler passes on. -/
def owes (n : Network ι) (id : ConnectionId) : Crowd.Step ι → List ServerMessage
  | .work k =>
    if k = id then
      match (n.channel k).jobs with
      | .reply m :: _ => [m]
      | _ => []
    else []
  | .deliver k target =>
    if target = id then
      match (n.channel k).jobs with
      | .deliver ids m :: _ => if target ∈ ids then [m] else []
      | _ => []
    else []
  | _ => []

/-- What a step queues for a connection. -/
def queues (n : Network ι) (id : ConnectionId) (f : Crowd.Step ι) : List ServerMessage :=
  if n.server.hasRoom id then n.owes id f else []

end Network

/-- How many messages of an outbox a step writes, if there are so many. -/
def Crowd.Step.written {ι : Type} (id : ConnectionId) : Crowd.Step ι → Nat
  | .write k => if k = id then 1 else 0
  | _ => 0

namespace Network

variable {n n' : Network Empty} {id k target : ConnectionId} {f : Crowd.Step Empty}
  {queued : List ServerMessage} {written : Nat}

/-- From `n` to `n'` these messages were queued for a connection, and then so many written. -/
structure Accounts (id : ConnectionId) (queued : List ServerMessage) (written : Nat)
    (n n' : Network Empty) : Prop where
  told : (n'.channel id).told = (n.channel id).told ++ queued
  outbox : n'.server.outboxOf id = (n.server.outboxOf id ++ queued).drop written
  down : (n'.channel id).down = (n.channel id).down ++
    ServerMessage.transcript ((n.server.outboxOf id ++ queued).take written)

/-- All that was queued has been written or is in the outbox. -/
def Told (n : Network Empty) (id : ConnectionId) : Prop :=
  (n.channel id).down ++ ServerMessage.transcript (n.server.outboxOf id) =
    ServerMessage.transcript (n.channel id).told

namespace Accounts

theorem of_same (htold : (n'.channel id).told = (n.channel id).told)
    (hdown : (n'.channel id).down = (n.channel id).down)
    (hout : n'.server.outboxOf id = n.server.outboxOf id) : Accounts id [] 0 n n' where
  told := by rw [htold, List.append_nil]
  outbox := by rw [hout, List.append_nil, List.drop_zero]
  down := by rw [hdown, List.take_zero, ServerMessage.transcript, List.flatMap_nil, List.append_nil]

/-- A handler has come to other jobs. -/
theorem setJobs (n : Network Empty) (jobs : List Job) : Accounts id [] 0 n (n.setJobs k jobs) := by
  by_cases h : id = k
  · subst h
    exact .of_same (by rw [channel_setJobs]) (by rw [channel_setJobs]) rfl
  · have hch : (n.setJobs k jobs).channel id = n.channel id := channel_onChannel_of_ne n _ h
    exact .of_same (by rw [hch]) (by rw [hch]) rfl

theorem onServer {s : Server} (hout : s.outboxOf id = n.server.outboxOf id) :
    Accounts id [] 0 n { n with server := s } := .of_same rfl rfl hout

theorem trans {m : Network Empty} (h : Accounts id [] 0 n m) (g : Accounts id queued written m n') :
    Accounts id queued written n n' := by
  obtain ⟨htold, hout, hdown⟩ := h
  rw [List.append_nil] at htold hout
  rw [List.drop_zero] at hout
  rw [List.take_zero, ServerMessage.transcript, List.flatMap_nil, List.append_nil] at hdown
  exact ⟨htold ▸ g.told, hout ▸ g.outbox, hdown ▸ hout ▸ g.down⟩

theorem queue (n : Network Empty) (m : ServerMessage) :
    Accounts id (if n.server.hasRoom id then if k = id then [m] else [] else []) 0 n
      (n.queue k m) := by
  have hout : (n.queue k m).server.outboxOf id =
      n.server.outboxOf id ++ if n.server.hasRoom id then if k = id then [m] else [] else [] := by
    rw [server_queue, Server.outboxOf_queue]
    by_cases hk : k = id <;> by_cases hr : n.server.hasRoom id = true <;> simp [hk, hr]
  have hchannel : (n.queue k m).channel id = { n.channel id with
      told := (n.channel id).told ++ if n.server.hasRoom id then if k = id then [m] else [] else [] } := by
    by_cases hk : k = id
    · subst hk
      by_cases hr : n.server.hasRoom k = true
      · rw [channel_queue hr, if_pos hr, if_pos rfl]
      · rw [Network.queue, if_neg hr, if_neg hr, List.append_nil]
    · rw [if_neg hk, ite_self, List.append_nil]
      by_cases hr : n.server.hasRoom k = true
      · exact channel_queue_of_ne hr (Ne.symm hk)
      · rw [Network.queue, if_neg hr]
  refine ⟨by rw [hchannel], by rw [hout, List.drop_zero], ?_⟩
  rw [hchannel, List.take_zero, ServerMessage.transcript, List.flatMap_nil, List.append_nil]

theorem setJobs_queue (n : Network Empty) (m : ServerMessage) (jobs : List Job) :
    Accounts id (if n.server.hasRoom id then if k = id then [m] else [] else []) 0 n
      ((n.setJobs target jobs).queue k m) :=
  (Accounts.setJobs n jobs).trans (Accounts.queue (n.setJobs target jobs) m)

/-- What is queued comes behind what there is, and what is written goes from the front. -/
theorem of_told (h : Accounts id queued written n n') (ht : n.Told id) : n'.Told id := by
  rw [Told] at ht ⊢
  rw [h.down, h.outbox, h.told, List.append_assoc, ← ServerMessage.transcript_append,
    List.take_append_drop, ServerMessage.transcript_append, ServerMessage.transcript_append,
    ← List.append_assoc, ht]

end Accounts

/-! ## Steps -/

theorem outboxOf_eq {s : Server} {c : Connection} (hc : s.connection? id = some c) :
    s.outboxOf id = c.outbox := by
  simp only [Server.outboxOf, hc]

theorem outboxOf_update {s : Server} {g : Connection → Connection} (hid : ∀ c, (g c).id = c.id)
    (hout : ∀ c, (g c).outbox = c.outbox) : (s.update k g).outboxOf id = s.outboxOf id := by
  rw [Server.outboxOf, Server.outboxOf, Server.connection?_update hid]
  by_cases h : id = k
  · rw [if_pos h, h]
    cases s.connection? k with
    | none => rfl
    | some c => exact hout c
  · rw [if_neg h]

/-- What the first step about an item that was read from `c` can come to. -/
inductive Begun (s : Server) (c : Connection) : Server × List Job → Prop
  | answers (m : ServerMessage) : Begun s c (s, [.reply m])
  | enters {name : String} {port : UInt16} {directory : Directory} {others : List Peer}
      (phase : c.phase = .registering)
      (inserted : s.directory.insert ⟨name, c.address, port⟩ (some c.id) = .ok (directory, others)) :
      Begun s c (s.entered c.id name directory, [.reply (.peerList others), .announce (.newcomer name)])
  | erases (name : String) {jobs : List Job} (ends : jobs = [] ∨ jobs = Server.closing) :
      Begun s c ({ s with directory := s.directory.erase name }, jobs)
  | goesOn {jobs : List Job} (ends : jobs = [] ∨ jobs = Server.closing) : Begun s c (s, jobs)

theorem begun_begin (s : Server) (c : Connection) (item : Line.Item) : Begun s c (s.begin c item) := by
  cases item with
  | tooLong => exact .goesOn (.inr rfl)
  | ended => exact .goesOn (.inr rfl)
  | text line =>
    unfold Server.begin
    simp only []
    split
    · exact .goesOn (.inl rfl)
    · split
      · unfold Server.beginCommand
        split
        · rename_i name port hphase _
          rcases Server.beginRegister_cases s c name port with ⟨d, others, hi, hb⟩ | ⟨m, -, hb⟩
          · exact hb ▸ .enters hphase hi
          · exact hb ▸ .answers m
        · exact .answers _
        · exact .erases _ (.inr rfl)
        · exact .erases _ (.inl rfl)
        · exact .answers _
      · exact .answers _

theorem Begun.outboxOf {s : Server} {c : Connection} {step : Server × List Job} (h : Begun s c step) :
    step.1.outboxOf id = s.outboxOf id := by
  cases h with
  | answers m => rfl
  | @enters name port directory others phase inserted =>
    exact outboxOf_update (s := { s with directory }) (fun _ => rfl) fun _ => rfl
  | erases name ends => rfl
  | goesOn ends => rfl

theorem accounts_take (c : Connection) (item : Line.Item) (rest : Bytes) :
    Accounts id [] 0 n (n.take c item rest) := by
  have hout : (n.server.begin c item).1.outboxOf id = n.server.outboxOf id :=
    (begun_begin n.server c item).outboxOf
  by_cases h : id = c.id
  · subst h
    exact .of_same (by rw [take, channel_onChannel]) (by rw [take, channel_onChannel]) hout
  · have hch : (n.take c item rest).channel id = n.channel id := channel_onChannel_of_ne _ _ h
    exact .of_same (by rw [hch]) (by rw [hch]) hout

theorem accounts_read : Accounts id [] 0 n (n.read k) := by
  unfold Network.read
  split
  · split
    · exact .of_same rfl rfl rfl
    · split
      · exact accounts_take _ _ _
      · exact accounts_take _ _ _
      · exact accounts_take _ _ _
      · exact .of_same rfl rfl rfl
  · exact .of_same rfl rfl rfl

theorem accounts_work : Accounts id (n.queues id (.work k)) 0 n (n.work k) := by
  have hnone : (∀ m later, (n.channel k).jobs ≠ .reply m :: later) → n.queues id (.work k) = [] := by
    intro h
    rw [queues, owes]
    split
    · split
      · split
        · rename_i m later hjobs
          exact absurd hjobs (h m later)
        · rfl
      · rfl
    · rfl
  unfold Network.work
  split
  · rename_i m later hjobs
    have howes : n.queues id (.work k) =
        if n.server.hasRoom id then if k = id then [m] else [] else [] := by
      rw [queues, owes, hjobs]
    rw [howes]
    by_cases hr : n.server.hasRoom k = true
    · rw [if_pos hr]
      exact .setJobs_queue n m later
    · have hnot : (if n.server.hasRoom id then if k = id then [m] else [] else []) = [] := by
        by_cases hk : k = id
        · rw [← hk, if_neg hr]
        · rw [if_neg hk, ite_self]
      rw [if_neg hr, hnot]
      exact Accounts.trans (m := { n with intact := false }) (.of_same rfl rfl rfl) (.setJobs _ _)
  · rename_i m later hjobs
    rw [hnone (by simp [hjobs])]
    exact .setJobs n _
  · rename_i m later hjobs
    rw [hnone (by simp [hjobs])]
    exact .setJobs n _
  · rename_i hjobs
    rw [hnone (by simp [hjobs])]
    exact .of_same rfl rfl rfl
  · rename_i later hjobs
    rw [hnone (by simp [hjobs])]
    have hout : (n.server.withdrawOwn k).outboxOf id = n.server.outboxOf id :=
      Server.outboxOf_congr Server.connection?_withdrawOwn
    exact (Accounts.onServer hout).trans (.setJobs _ _)
  · rename_i later hjobs
    rw [hnone (by simp [hjobs])]
    have hout : (n.server.forget k).outboxOf id = n.server.outboxOf id :=
      outboxOf_update (fun _ => rfl) fun _ => rfl
    exact (Accounts.onServer hout).trans (.setJobs _ _)
  · rename_i hjobs
    rw [hnone (by simp [hjobs])]
    exact .of_same rfl rfl rfl

theorem accounts_deliver : Accounts id (n.queues id (.deliver k target)) 0 n (n.deliver k target) := by
  unfold Network.deliver
  split
  · rename_i ids m later hjobs
    have howes : n.owes id (.deliver k target) =
        if target = id then if target ∈ ids then [m] else [] else [] := by
      rw [owes, hjobs]
    rw [queues, howes]
    by_cases ht : target ∈ ids
    · rw [if_pos ht, if_pos ht]
      exact .setJobs_queue n m _
    · rw [if_neg ht, if_neg ht, ite_self, ite_self]
      exact .of_same rfl rfl rfl
  · rename_i hnot
    have hnone : n.queues id (.deliver k target) = [] := by
      rw [queues, owes]
      split
      · split
        · split
          · rename_i ids m later hjobs
            exact absurd hjobs (hnot ids m later)
          · rfl
        · rfl
      · rfl
    rw [hnone]
    exact .of_same rfl rfl rfl

theorem accounts_write : Accounts id [] ((Crowd.Step.write k : Crowd.Step Empty).written id) n
    (n.write k) := by
  have hempty : n.server.outboxOf k = [] → Accounts id []
      ((Crowd.Step.write k : Crowd.Step Empty).written id) n n := by
    intro hout
    rw [Crowd.Step.written]
    split
    · rename_i hk
      subst hk
      exact ⟨by rw [List.append_nil], by rw [hout]; rfl, by rw [hout]; exact (List.append_nil _).symm⟩
    · exact .of_same rfl rfl rfl
  unfold Network.write
  split
  · rename_i c hc
    split
    · rename_i m rest hm
      have hout : ∀ j, (n.server.unqueue k).outboxOf j =
          if j = k then (n.server.outboxOf j).drop 1 else n.server.outboxOf j := by
        intro j
        rw [Server.outboxOf, Server.outboxOf, Server.unqueue,
          Server.connection?_update (by exact fun _ => rfl)]
        by_cases hj : j = k
        · rw [if_pos hj, if_pos hj, hj, hc]
          rfl
        · rw [if_neg hj, if_neg hj]
      rw [Crowd.Step.written]
      split
      · rename_i hk
        subst hk
        have hfull : n.server.outboxOf k = m :: rest := (outboxOf_eq hc).trans hm
        refine ⟨?_, ?_, ?_⟩
        · rw [channel_onChannel, List.append_nil]
        · rw [server_onChannel, hout, if_pos rfl, List.append_nil]
        · rw [channel_onChannel, hfull, List.append_nil]
          change _ = _ ++ ServerMessage.transcript [m]
          rw [ServerMessage.transcript, List.flatMap_singleton]
      · rename_i hk
        have hch : ∀ g : Channel → Channel,
            (({ n with server := n.server.unqueue k } : Network Empty).onChannel k g).channel id =
              n.channel id := fun g => channel_onChannel_of_ne _ g (Ne.symm hk)
        refine .of_same (by rw [hch]) (by rw [hch]) ?_
        rw [server_onChannel, hout, if_neg (Ne.symm hk)]
    · rename_i hm
      exact hempty ((outboxOf_eq hc).trans hm)
  · rename_i hc
    refine hempty ?_
    simp only [Server.outboxOf, hc]

theorem accounts_onStranger {g : Channel → Channel}
    (hg : ∀ ch, (g ch).told = ch.told ∧ (g ch).down = ch.down) :
    Accounts id [] 0 n (n.onStranger k g) := by
  unfold Network.onStranger
  split
  · by_cases h : id = k
    · subst h
      exact .of_same (by rw [channel_onChannel, (hg _).1]) (by rw [channel_onChannel, (hg _).2]) rfl
    · have hch : (n.onChannel k g).channel id = n.channel id := channel_onChannel_of_ne n g h
      exact .of_same (by rw [hch]) (by rw [hch]) rfl
  · exact .of_same rfl rfl rfl

theorem outboxOf_accept (hids : ∀ c ∈ n.server.connections, c.id < n.server.nextId)
    (address : IpAddress) : (n.server.accept address).outboxOf id = n.server.outboxOf id := by
  rw [Server.outboxOf, Server.outboxOf, Server.connection?_accept hids]
  by_cases h : id = n.server.nextId
  · rw [if_pos h, h, Server.connection?_nextId hids]
  · rw [if_neg h]

/-- What a step does to a connection's outbox, to what was queued for it, and to what is written. -/
theorem accounts_step (hids : ∀ c ∈ n.server.connections, c.id < n.server.nextId)
    (f : Crowd.Step Empty) (id : ConnectionId) :
    Accounts id (n.queues id f) (f.written id) n (Crowd.step n f) := by
  have hquiet : ∀ {f : Crowd.Step Empty}, n.owes id f = [] → f.written id = 0 → ∀ {n'},
      Accounts id [] 0 n n' → Accounts id (n.queues id f) (f.written id) n n' := by
    intro f ho hw n' h
    rw [queues, ho, hw, ite_self]
    exact h
  cases f with
  | event i | move i | connect i | unreachable i | arrive i | finish i | fail i | clog i => exact i.elim
  | read k => exact hquiet rfl rfl accounts_read
  | work k => exact accounts_work
  | deliver k target => exact accounts_deliver
  | write k =>
    have hnone : n.queues id (.write k) = [] := ite_self _
    rw [hnone]
    exact accounts_write
  | drop k =>
    refine hquiet rfl rfl ?_
    unfold Crowd.step
    simp only []
    split
    · exact Accounts.trans (m := { n with intact := false }) (.of_same rfl rfl rfl) (.setJobs _ _)
    · exact .of_same rfl rfl rfl
  | spurn k =>
    refine hquiet rfl rfl ?_
    unfold Crowd.step Network.spurn
    simp only []
    split
    · exact .setJobs n _
    · exact .of_same rfl rfl rfl
  | miss k target =>
    refine hquiet rfl rfl ?_
    unfold Crowd.step Network.miss
    simp only []
    split
    · exact .setJobs n _
    · exact .of_same rfl rfl rfl
  | enter address => exact hquiet rfl rfl (.of_same rfl rfl (outboxOf_accept hids address))
  | say k bytes => exact hquiet rfl rfl (accounts_onStranger fun _ => ⟨rfl, rfl⟩)
  | hangUp k => exact hquiet rfl rfl (accounts_onStranger fun _ => ⟨rfl, rfl⟩)

/-! ## Runs -/

theorem Told.run (h : n.Told id) (hn : n.Civil) (steps : List (Crowd.Step Empty)) :
    (Crowd.run n steps).Told id := by
  induction steps generalizing n with
  | nil => exact h
  | cons f steps ih => exact ih ((accounts_step hn.ids f id).of_told h) (hn.step f)

/-- What was queued stays queued, and what was written stays written. -/
theorem grows_run (hn : n.Civil) (steps : List (Crowd.Step Empty)) (id : ConnectionId) :
    (n.channel id).told <+: ((Crowd.run n steps).channel id).told ∧
      (n.channel id).down <+: ((Crowd.run n steps).channel id).down := by
  induction steps generalizing n with
  | nil => exact ⟨List.prefix_rfl, List.prefix_rfl⟩
  | cons f steps ih =>
    obtain ⟨htold, hdown⟩ := ih (hn.step f)
    have h := accounts_step hn.ids f id
    exact ⟨(List.prefix_append _ _).trans (h.told ▸ htold), (List.prefix_append _ _).trans (h.down ▸ hdown)⟩

end Network

end PeerChat
