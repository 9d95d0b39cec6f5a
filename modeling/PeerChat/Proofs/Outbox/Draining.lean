import Mathlib.Algebra.GroupWithZero.Nat
import PeerChat.Proofs.Outbox.Handlers

/-!
# Outboxes are drained

What the server has still to do about what it has read, and about its outboxes, is bounded by its
`toil`, which each of its own steps lowers (`length_le_toil`); whoever reads on can therefore wait for
all that is queued.  A closed connection that is `Spent` gets nothing any more: that is the end of its
stream (`Spent.run`).
-/

namespace PeerChat

/-! ## Toil -/

/-- How many steps a job comes to at most, if there are so many connections. -/
def Job.toil (connections : Nat) : Job → Nat
  | .reply _ => 3
  | .announce _ => 2 * connections + 2
  | .deliver ids _ => 2 * ids.length + 1
  | .withdraw | .forget => 1

def Job.toilAll (connections : Nat) (jobs : List Job) : Nat := (jobs.map (Job.toil connections)).sum

/-- The steps that the server can take whatever comes from outside. -/
def Crowd.Step.isServers {ι : Type} : Crowd.Step ι → Bool
  | .work _ | .deliver _ _ | .write _ => true
  | _ => false

/-- The steps that it takes for the client of one connection to get what is for it. -/
def Crowd.Step.Attends {ι : Type} (id : ConnectionId) (f : Crowd.Step ι) : Prop :=
  f = .write id ∨ (∃ k, f = .work k) ∨ ∃ k target, f = .deliver k target

theorem Crowd.Step.Attends.isServers {ι : Type} {id : ConnectionId} {f : Crowd.Step ι}
    (h : f.Attends id) : f.isServers = true := by
  rcases h with rfl | ⟨k, rfl⟩ | ⟨k, target, rfl⟩ <;> rfl

/-- The server goes on with what it has read, and each step does something. -/
def Crowd.Toils (n : Network Empty) : List (Crowd.Step Empty) → Prop
  | [] => True
  | f :: later => f.isServers = true ∧ Crowd.step n f ≠ n ∧ Toils (Crowd.step n f) later

theorem sum_map_change {ids : List Nat} (hids : ids.Nodup) {id : Nat} (hid : id ∈ ids) {f g : Nat → Nat}
    (h : ∀ j, j ≠ id → g j = f j) : (ids.map g).sum + f id = (ids.map f).sum + g id := by
  induction ids with
  | nil => exact absurd hid List.not_mem_nil
  | cons k ids ih =>
    obtain ⟨hk, hids⟩ := List.nodup_cons.mp hids
    rw [List.map_cons, List.map_cons, List.sum_cons, List.sum_cons]
    rcases List.mem_cons.mp hid with rfl | hid
    · have hsame : ids.map g = ids.map f :=
        List.map_congr_left fun j hj => h j fun he => hk (he ▸ hj)
      rw [hsame]
      omega
    · have hne : k ≠ id := fun he => hk (he ▸ hid)
      have hrest := ih hids hid
      rw [h k hne]
      omega

namespace Network

variable {n n' : Network Empty} {id k : ConnectionId} {jobs later : List Job}

/-- What is left to do for a connection. -/
def toilAt (connections : Nat) (n : Network Empty) (id : ConnectionId) : Nat :=
  (n.server.outboxOf id).length + Job.toilAll connections (n.channel id).jobs

/-- How many steps the server can take at most, if nothing comes from outside. -/
def toil (n : Network Empty) : Nat :=
  ((n.server.connections.map (·.id)).map (toilAt n.server.connections.length n)).sum

theorem toil_change (ht : n.server.Tidy)
    (hids : n'.server.connections.map (·.id) = n.server.connections.map (·.id))
    (hid : id ∈ n.server.connections.map (·.id))
    (hother : ∀ j, j ≠ id → n'.server.outboxOf j = n.server.outboxOf j ∧
      (n'.channel j).jobs = (n.channel j).jobs) :
    n'.toil + toilAt n.server.connections.length n id =
      n.toil + toilAt n.server.connections.length n' id := by
  have hlength : n'.server.connections.length = n.server.connections.length := by
    simpa only [List.length_map] using congrArg List.length hids
  rw [toil, toil, hlength, hids]
  refine sum_map_change ht.ids_unique hid fun j hj => ?_
  rw [toilAt, toilAt, (hother j hj).1, (hother j hj).2]

theorem mem_ids {c : Connection} (hc : n.server.connection? id = some c) :
    id ∈ n.server.connections.map (·.id) := by
  obtain ⟨hm, rfl⟩ := Server.connection?_mem hc
  exact List.mem_map_of_mem hm

theorem length_audience_le (s : Server) (id : ConnectionId) :
    (s.audience id).length ≤ s.connections.length := by
  calc (s.audience id).length ≤ (s.openConnections.map (·.id)).length := List.length_filter_le _ _
    _ = s.openConnections.length := List.length_map _
    _ ≤ s.connections.length := List.length_filter_le _ _

theorem Advances.outboxOf {s s' : Server} (h : Advances s k jobs s' later) :
    s'.outboxOf id = s.outboxOf id := by
  cases h with
  | withdrawn => exact Server.outboxOf_congr Server.connection?_withdrawOwn
  | forgotten => exact outboxOf_update (fun _ => rfl) fun _ => rfl
  | _ => rfl

theorem Advances.toilAll_lt {s s' : Server} (h : Advances s k jobs s' later) :
    Job.toilAll s.connections.length later < Job.toilAll s.connections.length jobs := by
  cases h with
  | spurned m later =>
    simp only [Job.toilAll, List.map_append, List.sum_append, List.map_cons, List.sum_cons, Job.toil,
      Server.closing, List.map_nil, List.sum_nil]
    omega
  | announced m later =>
    have haudience := length_audience_le s k
    simp only [Job.toilAll, List.map_cons, List.sum_cons, Job.toil]
    omega
  | @passed ids m later target listed =>
    have hpos := List.length_pos_of_mem listed
    simp only [Job.toilAll, List.map_cons, List.sum_cons, Job.toil, List.length_erase_of_mem listed]
    omega
  | _ =>
    simp only [Job.toilAll, List.map_cons, List.sum_cons, Job.toil]
    omega

theorem toil_setJobs (jobs : List Job) (ht : n.server.Tidy)
    (hid : id ∈ n.server.connections.map (·.id)) :
    (n.setJobs id jobs).toil + Job.toilAll n.server.connections.length (n.channel id).jobs =
      n.toil + Job.toilAll n.server.connections.length jobs := by
  have hids : (n.setJobs id jobs).server.connections.map (·.id) =
      n.server.connections.map (·.id) := rfl
  have h := toil_change ht hids hid fun j hj => ⟨rfl, by rw [jobs_setJobs, if_neg hj]⟩
  have hout : (n.setJobs id jobs).server.outboxOf id = n.server.outboxOf id := rfl
  rw [toilAt, toilAt, jobs_setJobs, if_pos rfl, hout] at h
  omega

theorem toil_queue_le (ht : n.server.Tidy) (m : ServerMessage) : (n.queue k m).toil ≤ n.toil + 1 := by
  by_cases hr : n.server.hasRoom k = true
  · obtain ⟨c, hc⟩ := exists_of_hasRoom hr
    have hids : (n.queue k m).server.connections.map (·.id) = n.server.connections.map (·.id) := by
      rw [server_queue]
      exact Server.ids_of_frame (Server.Frame.queue _ _ _)
    have h := toil_change ht hids (mem_ids hc) fun j hj => ⟨by
      rw [server_queue, Server.outboxOf_queue, if_neg fun hk => hj hk.1.symm, List.append_nil],
      jobs_queue n k m⟩
    have hout : (n.queue k m).server.outboxOf k = n.server.outboxOf k ++ [m] := by
      rw [server_queue, Server.outboxOf_queue, if_pos ⟨rfl, hr⟩]
    rw [toilAt, toilAt, jobs_queue, hout, List.length_append, List.length_singleton] at h
    omega
  · rw [Network.queue, if_neg hr]
    exact Nat.le_succ _

/-- Whatever the server does about what it has read, and about its outboxes, there is less left to do. -/
theorem Works.toil_lt (h : n.Works n') (hp : n.Proper) (hn : n.Civil) : n'.toil < n.toil := by
  have hids := h.ids
  cases h with
  | @advances k s jobs intact advance =>
    have hknown : k ∈ n.server.connections.map (·.id) := by
      cases hjobs : (n.channel k).jobs with
      | nil =>
        rw [hjobs] at advance
        cases advance
      | cons job later =>
        obtain ⟨c, hc⟩ := hn.exists_of_busy hjobs
        exact mem_ids hc
    have hchange := toil_change hp.tidy hids hknown fun j hj =>
      ⟨advance.outboxOf, by rw [jobs_setJobs, if_neg hj]⟩
    have hout : (({ n with server := s, intact } : Network Empty).setJobs k jobs).server.outboxOf k =
        n.server.outboxOf k := advance.outboxOf
    have hless := advance.toilAll_lt
    rw [toilAt, toilAt, jobs_setJobs, if_pos rfl, hout] at hchange
    omega
  | @replies k m later jobs =>
    obtain ⟨c, hc⟩ := hn.exists_of_busy jobs
    have hset := toil_setJobs later hp.tidy (mem_ids hc)
    have hqueue := toil_queue_le (n := n.setJobs k later) (k := k) hp.tidy m
    rw [jobs, Job.toilAll, List.map_cons, List.sum_cons, Job.toil, ← Job.toilAll] at hset
    omega
  | @delivers k target ids m later jobs listed =>
    obtain ⟨c, hc⟩ := hn.exists_of_busy jobs
    have hset := toil_setJobs (.deliver (ids.erase target) m :: later) hp.tidy (mem_ids hc)
    have hqueue := toil_queue_le (n := n.setJobs k (.deliver (ids.erase target) m :: later))
      (k := target) hp.tidy m
    have hpos := List.length_pos_of_mem listed
    rw [jobs, Job.toilAll, Job.toilAll, List.map_cons, List.map_cons, List.sum_cons, List.sum_cons,
      Job.toil, Job.toil, List.length_erase_of_mem listed] at hset
    omega
  | @writes k c m rest found first =>
    have hout : ∀ j, (n.server.unqueue k).outboxOf j =
        if j = k then rest else n.server.outboxOf j := by
      intro j
      rw [Server.outboxOf, Server.unqueue, Server.connection?_update (by exact fun _ => rfl)]
      by_cases hj : j = k
      · rw [if_pos hj, if_pos hj, found]
        simp only [Option.map_some, first, List.drop_one, List.tail_cons]
      · rw [if_neg hj, if_neg hj]
        rfl
    have hchange := toil_change hp.tidy hids (mem_ids found) fun j hj => by
      refine ⟨?_, ?_⟩
      · rw [server_onChannel, hout, if_neg hj]
      · rw [channel_onChannel_of_ne _ _ hj]
    simp only [toilAt, channel_onChannel, server_onChannel, hout, if_true, outboxOf_eq found, first,
      List.length_cons] at hchange
    omega

theorem works_of_isServers {f : Crowd.Step Empty} (hf : f.isServers = true) :
    Crowd.step n f = n ∨ n.Works (Crowd.step n f) := by
  cases f with
  | work k => exact works_work n k
  | deliver k target => exact works_deliver n k target
  | write k => exact works_write n k
  | _ => exact absurd hf (by simp [Crowd.Step.isServers])

/-- The server does not go on for ever with what it has read. -/
theorem length_le_toil (hp : n.Proper) (hn : n.Civil) {steps : List (Crowd.Step Empty)}
    (h : Crowd.Toils n steps) : steps.length ≤ n.toil := by
  induction steps generalizing n with
  | nil => exact Nat.zero_le _
  | cons f steps ih =>
    obtain ⟨hf, hne, hrest⟩ := h
    have hlt := ((works_of_isServers hf).resolve_left hne).toil_lt hp hn
    have hle := ih (hp.evolves hn (evolves_step n f)) (hn.step f) hrest
    exact Nat.lt_of_le_of_lt hle hlt

/-! ## Rest -/

/-- No handler has anything left to do, and nothing is left to be written on the connection. -/
def Rests (n : Network Empty) (id : ConnectionId) : Prop :=
  ∀ f : Crowd.Step Empty, f.Attends id → Crowd.step n f = n

/-- Whoever else reads or not, it can come to that. -/
theorem exists_rests (hp : n.Proper) (hn : n.Civil) (id : ConnectionId) :
    ∃ steps : List (Crowd.Step Empty), (∀ f ∈ steps, f.Attends id) ∧ (Crowd.run n steps).Rests id := by
  induction htoil : n.toil using Nat.strongRecOn generalizing n with
  | ind toil ih =>
    by_cases hrests : n.Rests id
    · exact ⟨[], fun f hf => absurd hf List.not_mem_nil, hrests⟩
    · rw [Rests] at hrests
      push Not at hrests
      obtain ⟨f, hf, hne⟩ := hrests
      have hworks := (works_of_isServers hf.isServers).resolve_left hne
      obtain ⟨steps, hsteps, hend⟩ := ih _ (htoil ▸ hworks.toil_lt hp hn)
        (hp.evolves hn (evolves_step n f)) (hn.step f) rfl
      exact ⟨f :: steps, List.forall_mem_cons.mpr ⟨hf, hsteps⟩, hend⟩

namespace Rests

variable (h : n.Rests id)
include h

theorem idle (k : ConnectionId) : (n.channel k).jobs = [] := by
  have hwork : n.work k = n := h (.work k) (.inr (.inl ⟨k, rfl⟩))
  have hjobs : ((n.work k).channel k).jobs = (n.channel k).jobs := by rw [hwork]
  cases hj : (n.channel k).jobs with
  | nil => rfl
  | cons job later =>
    rw [Network.work, hj] at hjobs
    cases job with
    | reply m =>
      have hlength := congrArg List.length hjobs
      simp only [] at hlength
      split at hlength
      · rw [jobs_queue, jobs_setJobs, if_pos rfl, List.length_cons] at hlength
        omega
      · rw [jobs_setJobs, if_pos rfl, List.length_append, List.length_cons] at hlength
        simp [Server.closing] at hlength
    | announce m =>
      rw [jobs_setJobs, if_pos rfl] at hjobs
      simp at hjobs
    | deliver ids m =>
      cases ids with
      | nil =>
        rw [jobs_setJobs, if_pos rfl] at hjobs
        simp at hjobs
      | cons target ids =>
        have hdeliver : n.deliver k target = n := h (.deliver k target) (.inr (.inr ⟨k, target, rfl⟩))
        have hjobs' : ((n.deliver k target).channel k).jobs = (n.channel k).jobs := by rw [hdeliver]
        rw [Network.deliver, hj] at hjobs'
        simp only [List.mem_cons_self, if_true, List.erase_cons_head] at hjobs'
        rw [jobs_queue, jobs_setJobs, if_pos rfl] at hjobs'
        simp at hjobs'
    | withdraw =>
      rw [jobs_setJobs, if_pos rfl] at hjobs
      simp at hjobs
    | forget =>
      rw [jobs_setJobs, if_pos rfl] at hjobs
      simp at hjobs

theorem outbox (hn : n.Civil) : n.server.outboxOf id = [] := by
  have hwrite : Crowd.step n (.write id) = n := h _ (.inl rfl)
  have hout := (accounts_step hn.ids (.write id) id).outbox
  have hnone : n.queues id (.write id) = [] := ite_self _
  rw [hwrite, hnone, List.append_nil, Crowd.Step.written, if_pos rfl] at hout
  have hlength := congrArg List.length hout
  rw [List.length_drop] at hlength
  exact List.eq_nil_of_length_eq_zero (by omega)

/-- All that was queued has been written. -/
theorem down (hn : n.Civil) (ht : n.Told id) :
    (n.channel id).down = ServerMessage.transcript (n.channel id).told := by
  have hout := h.outbox hn
  rw [Told, hout] at ht
  exact (List.append_nil _).symm.trans ht

end Rests

/-! ## The end of a stream -/

/-- The connection is closed, its outbox is empty, and nobody has a notice for it. -/
structure Spent (n : Network Empty) (id : ConnectionId) : Prop where
  closed : ∃ c, n.server.connection? id = some c ∧ c.phase = .closed
  outbox : n.server.outboxOf id = []
  unlisted : ∀ k ids m, .deliver ids m ∈ (n.channel k).jobs → id ∉ ids

namespace Spent

theorem of_rests (h : n.Rests id) (hn : n.Civil) {c : Connection}
    (hc : n.server.connection? id = some c) (hphase : c.phase = .closed) : n.Spent id where
  closed := ⟨c, hc, hphase⟩
  outbox := h.outbox hn
  unlisted k _ _ hm := absurd (h.idle k ▸ hm) List.not_mem_nil

/-- Nothing is queued any more. -/
theorem owes (h : n.Spent id) (hp : n.Proper) (f : Crowd.Step Empty) : n.owes id f = [] := by
  obtain ⟨c, hc, hphase⟩ := h.closed
  cases f with
  | work k =>
    rw [Network.owes]
    split
    · rename_i hk
      split
      · rename_i m later hjobs
        subst hk
        have hm := hp.closed k c hc hphase (.reply m) (hjobs ▸ List.mem_cons_self ..)
        exact absurd hm (by simp [Server.closing])
      · rfl
    · rfl
  | deliver k target =>
    rw [Network.owes]
    split
    · rename_i ht
      split
      · rename_i ids m later hjobs
        subst ht
        exact if_neg (h.unlisted k ids m (hjobs ▸ List.mem_cons_self ..))
      · rfl
    · rfl
  | _ => rfl

theorem step (h : n.Spent id) (hp : n.Proper) (hn : n.Civil) (f : Crowd.Step Empty) :
    (Crowd.step n f).Spent id ∧ ((Crowd.step n f).channel id).told = (n.channel id).told ∧
      ((Crowd.step n f).channel id).down = (n.channel id).down := by
  have haccounts := accounts_step hn.ids f id
  have hevolves := evolves_step n f
  have hnone : n.queues id f = [] := by rw [queues, h.owes hp f, ite_self]
  obtain ⟨c, hc, hphase⟩ := h.closed
  obtain ⟨c', hc', hpass⟩ := hevolves.passes hp hc
  refine ⟨⟨⟨c', hc', hpass.stays_closed hphase⟩, ?_, fun k ids m hm => ?_⟩, ?_, ?_⟩
  · rw [haccounts.outbox, hnone, h.outbox]
    exact List.drop_nil
  · cases hk : n.server.connection? k with
    | none =>
      -- a handler without a connection has nothing to do
      cases hk' : (Crowd.step n f).server.connection? k with
      | none => exact absurd (((hn.step f).fresh k hk').1 ▸ hm) List.not_mem_nil
      | some d => exact absurd ((hevolves.newcomer hn hk hk').2 ▸ hm) List.not_mem_nil
    | some d =>
      obtain ⟨d', -, hpassk⟩ := hevolves.passes hp hk
      exact hpassk.unlisted (h.unlisted k) ((hp.of_closed hc hphase).2 k) ids m hm
  · rw [haccounts.told, hnone, List.append_nil]
  · rw [haccounts.down, hnone, h.outbox, List.append_nil, List.take_nil]
    exact List.append_nil _

/-- The client has come to the end of its stream. -/
theorem run (h : n.Spent id) (hp : n.Proper) (hn : n.Civil) (steps : List (Crowd.Step Empty)) :
    ((Crowd.run n steps).channel id).told = (n.channel id).told ∧
      ((Crowd.run n steps).channel id).down = (n.channel id).down := by
  induction steps generalizing n with
  | nil => exact ⟨rfl, rfl⟩
  | cons f steps ih =>
    obtain ⟨hspent, htold, hdown⟩ := h.step hp hn f
    obtain ⟨htold', hdown'⟩ := ih hspent (hp.evolves hn (evolves_step n f)) (hn.step f)
    exact ⟨htold'.trans htold, hdown'.trans hdown⟩

end Spent

end Network

end PeerChat
