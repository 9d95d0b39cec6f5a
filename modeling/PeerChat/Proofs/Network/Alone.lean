import PeerChat.Proofs.Network.Handlers

/-!
# A handler that is left alone

When no other step comes between, a handler that reads something and does all its jobs changes the
server as `Server.handle` does (`comesTo_take`).
-/

namespace PeerChat

namespace Server

variable {s : Server} {id : ConnectionId}

theorem update_of_none (h : s.connection? id = none) (f : Connection → Connection) :
    s.update id f = s := by
  have hmap : (s.connections.map fun c => if c.id = id then f c else c) = s.connections := by
    refine (List.map_congr_left fun c hc => if_neg ?_).trans (List.map_id _)
    simpa using List.find?_eq_none.mp h c hc
  rw [update, hmap]

/-- What the last two jobs of a connection come to. -/
theorem forget_withdrawOwn (s : Server) (id : ConnectionId) :
    (s.withdrawOwn id).forget id = s.close id := by
  unfold close
  split
  · rename_i c hc
    rw [withdrawOwn, hc]
    rfl
  · rename_i hc
    rw [withdrawOwn, hc]
    exact update_of_none hc _

end Server

namespace Network

variable {ι : Type} {n : Network ι} {id : ConnectionId} {s t : Server} {m : ServerMessage}
  {ids : List ConnectionId} {jobs later : List Job}

theorem server_queue (n : Network ι) (target : ConnectionId) (m : ServerMessage) :
    (n.queue target m).server = n.server.queue target m := by
  unfold Network.queue
  split
  · rfl
  · rename_i hr
    rw [Server.queue, if_neg hr]

theorem jobs_queue (n : Network ι) (target : ConnectionId) (m : ServerMessage) :
    ((n.queue target m).channel id).jobs = (n.channel id).jobs := by
  unfold Network.queue
  split
  · by_cases h : id = target
    · rw [h, channel_onChannel]
    · rw [channel_onChannel_of_ne _ _ h]
  · rfl

variable [DecidableEq ι]

/-- The handler of the connection can go on to where the server is `s` and these jobs are left, if no
other step comes between. -/
def ComesTo (n : Network ι) (id : ConnectionId) (s : Server) (jobs : List Job) : Prop :=
  ∃ steps : List (Step ι), (∀ f ∈ steps, f = .work id ∨ ∃ target, f = .deliver id target) ∧
    (n.run steps).server = s ∧ ((n.run steps).channel id).jobs = jobs

namespace ComesTo

theorem refl (hs : n.server = s) (hj : (n.channel id).jobs = jobs) : n.ComesTo id s jobs :=
  ⟨[], by simp, hs, hj⟩

theorem step {f : Step ι} (hf : f = .work id ∨ ∃ target, f = .deliver id target)
    (h : (n.step f).ComesTo id s jobs) : n.ComesTo id s jobs := by
  obtain ⟨steps, hsteps, hs, hj⟩ := h
  exact ⟨f :: steps, List.forall_mem_cons.mpr ⟨hf, hsteps⟩, hs, hj⟩

theorem work (h : (n.work id).ComesTo id s jobs) : n.ComesTo id s jobs := h.step (.inl rfl)

/-- All notices of a list are queued. -/
theorem deliver (hj : (n.channel id).jobs = .deliver ids m :: later)
    (h : ∀ n' : Network ι, n'.server = n.server.notify ids m → (n'.channel id).jobs = later →
      n'.ComesTo id t jobs) : n.ComesTo id t jobs := by
  induction ids generalizing n with
  | nil =>
    refine .work (h _ ?_ ?_)
    · simp only [Network.work, hj]
      rfl
    · simp only [Network.work, hj]
      rw [channel_setJobs]
  | cons target ids ih =>
    have hstep : n.deliver id target = (n.setJobs id (.deliver ids m :: later)).queue target m := by
      simp only [Network.deliver, hj, List.mem_cons_self, if_true, List.erase_cons_head]
    refine .step (.inr ⟨target, rfl⟩) (ih (n := n.deliver id target) ?_ fun n' hs hl => h n' ?_ hl)
    · rw [hstep, jobs_queue, channel_setJobs]
    · rw [hs, hstep, server_queue]
      rfl

/-- A newcomer is announced. -/
theorem announce (hj : (n.channel id).jobs = .announce m :: later)
    (h : ∀ n' : Network ι, n'.server = n.server.broadcast m id → (n'.channel id).jobs = later →
      n'.ComesTo id t jobs) : n.ComesTo id t jobs := by
  have hstep : n.work id = n.setJobs id (.deliver (n.server.audience id) m :: later) := by
    simp only [Network.work, hj]
  refine .work (.deliver (n := n.work id) (by rw [hstep, channel_setJobs]) fun n' hs hl => h n' ?_ hl)
  rw [hs, hstep]
  rfl

/-- The connection is closed. -/
theorem closing (hj : (n.channel id).jobs = Server.closing) :
    n.ComesTo id (n.server.close id) [] := by
  have hfirst : n.work id = { n with server := n.server.withdrawOwn id }.setJobs id [.forget] := by
    simp only [Network.work, hj, Server.closing]
  have hjobs : ((n.work id).channel id).jobs = [.forget] := by rw [hfirst, channel_setJobs]
  have hsecond : (n.work id).work id =
      { n.work id with server := (n.work id).server.forget id }.setJobs id [] := by
    rw [Network.work, hjobs]
  refine .work (.work (.refl ?_ ?_))
  · rw [hsecond, hfirst]
    exact Server.forget_withdrawOwn n.server id
  · rw [hsecond, channel_setJobs]

/-- A reply is queued, or there is no room for it and the connection ends behind the other jobs. -/
theorem reply (hj : (n.channel id).jobs = .reply m :: later)
    (h : ∀ n' : Network ι, n'.server = n.server.queue id m → (n'.channel id).jobs =
      (if n.server.hasRoom id then later else later ++ Server.closing) → n'.ComesTo id t jobs) :
    n.ComesTo id t jobs := by
  refine .work (h _ ?_ ?_)
  · simp only [Network.work, hj]
    split
    · exact server_queue _ id m
    · rename_i hr
      rw [Server.queue, if_neg hr]
      rfl
  · simp only [Network.work, hj]
    split
    · rw [jobs_queue, channel_setJobs]
    · rw [channel_setJobs]

/-- A direct reply is made. -/
theorem reply_only (hj : (n.channel id).jobs = [.reply m]) :
    n.ComesTo id (n.server.reply id m) [] := by
  refine .reply hj fun n' hs hl => ?_
  rw [Server.reply]
  split at hl
  · rename_i hr
    rw [if_pos hr]
    exact .refl hs hl
  · rename_i hr
    have hsame : n'.server = n.server := by rw [hs, Server.queue, if_neg hr]
    rw [if_neg hr, ← hsame]
    exact .closing hl

end ComesTo

/-! ## Whole lines -/

section

variable {c : Connection} (hc : s.connection? id = some c)
include hc

theorem comesTo_register (name : String) (port : UInt16)
    (hs : n.server = (s.beginRegister c name port).1)
    (hj : (n.channel id).jobs = (s.beginRegister c name port).2) :
    n.ComesTo id (s.register c name port) [] := by
  obtain rfl := Server.connection?_id hc
  unfold Server.beginRegister at hs hj
  unfold Server.register
  cases hins : s.directory.insert ⟨name, c.address, port⟩ (some c.id) with
  | ok entered =>
    simp only [hins] at hs hj ⊢
    rw [← hs]
    refine .reply hj fun n' hs' hj' => ?_
    split at hj'
    · rename_i hr
      rw [if_pos hr, ← hs']
      exact .announce hj' fun m hm hl => .refl hm hl
    · rename_i hr
      rw [if_neg hr, ← hs']
      refine .announce hj' fun m hm hl => ?_
      rw [← hm]
      exact .closing hl
  | error reason =>
    cases reason with
    | nameTaken taken =>
      simp only [hins] at hs hj ⊢
      rw [← hs]
      exact .reply_only hj
    | full capacity =>
      simp only [hins] at hs hj ⊢
      rw [← hs]
      exact .reply_only hj

theorem comesTo_obey (command : Command) (hs : n.server = (s.beginCommand c command).1)
    (hj : (n.channel id).jobs = (s.beginCommand c command).2) :
    n.ComesTo id (s.obey c command) [] := by
  have hreply : ∀ m, n.server = s → (n.channel id).jobs = [.reply m] →
      n.ComesTo id (s.reply c.id m) [] := by
    intro m hs hj
    rw [Server.connection?_id hc, ← hs]
    exact .reply_only hj
  cases hphase : c.phase with
  | registering =>
    cases command with
    | register name port =>
      simp only [Server.beginCommand, hphase] at hs hj
      simp only [Server.obey, hphase]
      exact comesTo_register hc name port hs hj
    | listPeers =>
      simp only [Server.beginCommand, hphase] at hs hj
      simp only [Server.obey, hphase]
      exact hreply _ hs hj
    | remove name =>
      simp only [Server.beginCommand, hphase] at hs hj
      simp only [Server.obey, hphase]
      exact hreply _ hs hj
    | reportGone name =>
      simp only [Server.beginCommand, hphase] at hs hj
      simp only [Server.obey, hphase]
      exact hreply _ hs hj
  | registered own =>
    cases command with
    | register name port =>
      simp only [Server.beginCommand, hphase] at hs hj
      simp only [Server.obey, hphase]
      exact hreply _ hs hj
    | listPeers =>
      simp only [Server.beginCommand, hphase] at hs hj
      simp only [Server.obey, hphase]
      exact hreply _ hs hj
    | remove name =>
      simp only [Server.beginCommand, hphase] at hs hj
      simp only [Server.obey, hphase]
      rw [Server.connection?_id hc, ← hs]
      exact .closing hj
    | reportGone name =>
      simp only [Server.beginCommand, hphase] at hs hj
      simp only [Server.obey, hphase]
      exact .refl hs hj
  | closed =>
    have hbegin : s.beginCommand c command = (s, [.reply .invalidCommand]) := by
      cases command with
      | register name port => simp only [Server.beginCommand, hphase]
      | listPeers => simp only [Server.beginCommand, hphase]
      | remove name => simp only [Server.beginCommand, hphase]
      | reportGone name => simp only [Server.beginCommand, hphase]
    have hobey : s.obey c command = s.reply c.id .invalidCommand := by
      cases command with
      | register name port => simp only [Server.obey, hphase]
      | listPeers => simp only [Server.obey, hphase]
      | remove name => simp only [Server.obey, hphase]
      | reportGone name => simp only [Server.obey, hphase]
    rw [hbegin] at hs hj
    rw [hobey]
    exact hreply _ hs hj

/-- Left alone, a handler does about what it has read what the server does about it at once. -/
theorem comesTo_handle (hopen : c.phase ≠ .closed) (item : Line.Item)
    (hs : n.server = (s.begin c item).1) (hj : (n.channel id).jobs = (s.begin c item).2) :
    n.ComesTo id (s.handle id item) [] := by
  cases item with
  | text line =>
    have hhandle : s.handle id (.text line) = s.handleLine id line := rfl
    rw [hhandle, Server.handleLine, hc]
    simp only [hopen, false_or]
    by_cases hblank : Text.trim line = ""
    · simp only [Server.begin, hblank, if_true] at hs hj
      rw [if_pos hblank]
      exact .refl hs hj
    · simp only [Server.begin, hblank, if_false] at hs hj
      rw [if_neg hblank]
      cases hparse : Command.parse line with
      | ok command =>
        simp only [hparse] at hs hj ⊢
        exact comesTo_obey hc command hs hj
      | error cause =>
        simp only [hparse] at hs hj ⊢
        rw [← hs]
        exact .reply_only hj
  | tooLong =>
    have hs : n.server = s := hs
    rw [← hs]
    exact .closing hj
  | ended =>
    have hs : n.server = s := hs
    rw [← hs]
    exact .closing hj

end

/-- What follows on a line, with no other step between, is `Server.handle`. -/
theorem comesTo_take {c : Connection} (hc : n.server.connection? id = some c) (hopen : c.phase ≠ .closed)
    (item : Line.Item) (rest : Bytes) :
    (n.take c item rest).ComesTo id (n.server.handle id item) [] := by
  obtain rfl := Server.connection?_id hc
  refine comesTo_handle hc hopen item rfl ?_
  rw [take, channel_onChannel]

end Network

end PeerChat
