import PeerChat.Proofs.Directory
import PeerChat.Proofs.Server.Jobs
import PeerChat.Proofs.Server.Registry
import PeerChat.Server.Journal

/-!
# What a step comes to

`Outcome` says once what each step of a run can do, guards included (`step_outcome`); what is kept by
a run, and what a run queues, is read off its cases.  `Tidy` is what every step keeps: connections have
ids of their own, and the directory is in order.
-/

namespace PeerChat.Server

variable {s t : Server} {f : Step} {id j : ConnectionId} {line : String} {c : Connection}

/-- A line that is not blank, from an open connection. -/
structure Speaks (s : Server) (id : ConnectionId) (line : String) (c : Connection) : Prop where
  found : s.connection? id = some c
  is_open : c.phase ≠ .closed
  not_blank : Text.trim line ≠ ""

inductive Outcome (s : Server) : Step → Server → Prop
  | accept (address : IpAddress) : Outcome s (.accepted address) (s.accept address)
  | write (id : ConnectionId) (count : Nat) :
      Outcome s (.written id count) (s.update id fun c => { c with outbox := c.outbox.drop count })
  | abandon (id : ConnectionId) : Outcome s (.broken id) (s.abandon id)
  | flush : Outcome s .flushed s.flush.2
  | close {f : Step} {id : ConnectionId} : f.Ends id → Outcome s f (s.close id)
  | ignore {id : ConnectionId} {line : String} : (∀ c, ¬ Speaks s id line c) →
      Outcome s (.read id (.text line)) s
  | reply {id : ConnectionId} {line : String} {c : Connection} {m : ServerMessage} :
      Speaks s id line c → s.replyDue c line = some m → s.entering? (.read id (.text line)) = none →
      Outcome s (.read id (.text line)) (s.reply id m)
  | enter {id : ConnectionId} {line : String} {c : Connection} {name : String} {port : UInt16}
      {directory : Directory} {others : List Peer} : Speaks s id line c → c.phase = .registering →
      Command.parse line = .ok (.register name port) →
      s.directory.insert ⟨name, c.address, port⟩ (some id) = .ok (directory, others) →
      Outcome s (.read id (.text line)) (s.register c name port)
  | remove {id : ConnectionId} {line : String} {c : Connection} {own name : String} :
      Speaks s id line c → c.phase = .registered own → Command.parse line = .ok (.remove name) →
      Outcome s (.read id (.text line)) (({ s with directory := s.directory.erase name } : Server).close id)
  | reportGone {id : ConnectionId} {line : String} {c : Connection} {own name : String} :
      Speaks s id line c → c.phase = .registered own → Command.parse line = .ok (.reportGone name) →
      Outcome s (.read id (.text line)) { s with directory := s.directory.erase name }

/-! ## Lines -/

/-- A line from an open connection that does not count is blank. -/
theorem done_of_silent (h : ∀ c, ¬ Speaks s id line c) (hc : s.connection? id = some c) :
    c.phase = .closed ∨ Text.trim line = "" := by
  by_cases ho : c.phase = .closed
  · exact .inl ho
  · exact .inr (Classical.not_not.mp fun hb => h c ⟨hc, ho, hb⟩)

theorem heard?_of_speaks (h : Speaks s id line c) {command : Command}
    (hp : Command.parse line = .ok command) :
    s.heard? (.read id (.text line)) = some (c, command) := by
  have hd : ¬ (c.phase = .closed ∨ Text.trim line = "") := not_or.mpr ⟨h.is_open, h.not_blank⟩
  simp only [heard?, h.found, if_neg hd, hp]

theorem heard?_of_invalid (h : Speaks s id line c) {cause : WireError}
    (hp : Command.parse line = .error cause) : s.heard? (.read id (.text line)) = none := by
  have hd : ¬ (c.phase = .closed ∨ Text.trim line = "") := not_or.mpr ⟨h.is_open, h.not_blank⟩
  simp only [heard?, h.found, if_neg hd, hp]

theorem entering?_of_insert (h : Speaks s id line c) (hphase : c.phase = .registering)
    {name : String} {port : UInt16} (hp : Command.parse line = .ok (.register name port))
    {directory : Directory} {others : List Peer}
    (hi : s.directory.insert ⟨name, c.address, port⟩ (some id) = .ok (directory, others)) :
    s.entering? (.read id (.text line)) = some (id, name) := by
  obtain rfl := connection?_id h.found
  simp only [entering?, heard?_of_speaks h hp, hphase, if_true, hi]

theorem entering?_of_not_register (h : Speaks s id line c) {command : Command}
    (hp : Command.parse line = .ok command)
    (hc : ∀ name port, c.phase = .registering → command ≠ .register name port) :
    s.entering? (.read id (.text line)) = none := by
  rw [entering?, heard?_of_speaks h hp]
  cases command with
  | register name port => exact if_neg fun hphase => hc name port hphase rfl
  | _ => rfl

theorem entering?_id (h : Speaks s id line c) {name : String}
    (he : s.entering? (.read id (.text line)) = some (j, name)) : j = id := by
  cases hp : Command.parse line with
  | error cause => simp [entering?, heard?_of_invalid h hp] at he
  | ok command =>
    rw [entering?, heard?_of_speaks h hp] at he
    cases command with
    | register own port =>
      by_cases hphase : c.phase = .registering
      · simp only [if_pos hphase] at he
        split at he
        · obtain ⟨rfl, -⟩ := Prod.mk.inj (Option.some.inj he)
          exact connection?_id h.found
        · exact absurd he (by simp)
      · exact absurd (he.symm.trans (if_neg hphase)) (by simp)
    | _ => exact absurd he (by simp)

theorem step_speaks (h : Speaks s id line c) {command : Command}
    (hp : Command.parse line = .ok command) :
    s.step (.read id (.text line)) = s.obey c command := by
  have hd : ¬ (c.phase = .closed ∨ Text.trim line = "") := not_or.mpr ⟨h.is_open, h.not_blank⟩
  simp only [step, handle, handleLine, h.found, if_neg hd, hp]

/-- The list for one that has registered, and the notice for all others. -/
def welcome (s : Server) (id : ConnectionId) (name : String) (others : List Peer) : Server :=
  (s.queue id (.peerList others)).broadcast (.newcomer name) id

theorem Frame.welcome (s : Server) (id : ConnectionId) (name : String) (others : List Peer) :
    Frame s (s.welcome id name others) :=
  (Frame.queue s id _).trans (Frame.broadcast _ _ id)

theorem register_eq {name : String} {port : UInt16} {directory : Directory} {others : List Peer}
    (hi : s.directory.insert ⟨name, c.address, port⟩ (some c.id) = .ok (directory, others)) :
    s.register c name port = if (s.entered c.id name directory).hasRoom c.id then
      (s.entered c.id name directory).welcome c.id name others
      else ((s.entered c.id name directory).welcome c.id name others).close c.id := by
  simp only [register, hi]
  rfl

theorem register_cases {name : String} {port : UInt16} {directory : Directory} {others : List Peer}
    (hi : s.directory.insert ⟨name, c.address, port⟩ (some c.id) = .ok (directory, others)) :
    ∃ t, Frame (s.entered c.id name directory) t ∧
      (s.register c name port = t ∨ s.register c name port = t.close c.id) := by
  refine ⟨_, Frame.welcome _ c.id name others, ?_⟩
  rw [register_eq hi]
  split
  · exact .inl rfl
  · exact .inr rfl

/-- A registration is refused with the reply that is due, or succeeds. -/
theorem outcome_register (h : Speaks s id line c) (hphase : c.phase = .registering) {name : String}
    {port : UInt16} (hp : Command.parse line = .ok (.register name port)) :
    Outcome s (.read id (.text line)) (s.step (.read id (.text line))) := by
  obtain rfl := connection?_id h.found
  have hdue : s.replyDue c line = if s.directory.contains name then some .nameTaken
      else if s.directory.capacity ≤ s.directory.size then some .serverFull
      else some (.peerList (s.directory.peers none)) := by
    simp only [replyDue, hphase, hp]
  have hstep : s.step (.read c.id (.text line)) = s.register c name port := by
    rw [step_speaks h hp]
    simp only [obey, hphase]
  have hnone : ∀ cause, s.directory.insert ⟨name, c.address, port⟩ (some c.id) = .error cause →
      s.entering? (.read c.id (.text line)) = none := by
    intro cause hi
    simp only [entering?, heard?_of_speaks h hp, hphase, if_true, hi]
  by_cases hc : s.directory.contains name = true
  · have hi : s.directory.insert ⟨name, c.address, port⟩ (some c.id) = .error (.nameTaken name) := by
      rw [Directory.insert, if_pos hc]
    rw [hstep, show s.register c name port = s.reply c.id .nameTaken by simp only [register, hi]]
    exact .reply h (by rw [hdue, if_pos hc]) (hnone _ hi)
  · by_cases hs : s.directory.capacity ≤ s.directory.size
    · have hi : s.directory.insert ⟨name, c.address, port⟩ (some c.id) =
          .error (.full s.directory.capacity) := by
        rw [Directory.insert, if_neg hc, if_pos hs]
      rw [hstep, show s.register c name port = s.reply c.id .serverFull by simp only [register, hi]]
      exact .reply h (by rw [hdue, if_neg hc, if_pos hs]) (hnone _ hi)
    · obtain ⟨⟨directory, others⟩, hi⟩ := Directory.exists_insert_of_room
        ⟨name, c.address, port⟩ (some c.id) hc hs
      rw [hstep]
      exact .enter h hphase hp hi

theorem outcome_line (h : Speaks s id line c) :
    Outcome s (.read id (.text line)) (s.step (.read id (.text line))) := by
  obtain rfl := connection?_id h.found
  have hd : ¬ (c.phase = .closed ∨ Text.trim line = "") := not_or.mpr ⟨h.is_open, h.not_blank⟩
  cases hp : Command.parse line with
  | error cause =>
    have hstep : s.step (.read c.id (.text line)) = s.reply c.id .invalidCommand := by
      simp only [step, handle, handleLine, h.found, if_neg hd, hp]
    rw [hstep]
    refine .reply h ?_ ?_
    · unfold replyDue
      rw [hp]
      cases c.phase <;> rfl
    · rw [entering?, heard?_of_invalid h hp]
  | ok command =>
    have hstep := step_speaks h hp
    cases hphase : c.phase with
    | closed => exact absurd hphase h.is_open
    | registering =>
      cases command with
      | register name port => exact outcome_register h hphase hp
      | listPeers | remove name | reportGone name =>
        rw [hstep]
        simp only [obey, hphase]
        exact .reply h (by simp only [replyDue, hphase, hp])
          (entering?_of_not_register h hp fun _ _ _ => by simp)
    | registered own =>
      have hnone := entering?_of_not_register h hp (by simp [hphase])
      rw [hstep]
      cases command with
      | register name port | listPeers =>
        simp only [obey, hphase]
        exact .reply h (by simp only [replyDue, hphase, hp]) hnone
      | remove name =>
        simp only [obey, hphase]
        exact .remove h hphase hp
      | reportGone name =>
        simp only [obey, hphase]
        exact .reportGone h hphase hp

theorem step_outcome (s : Server) (f : Step) : Outcome s f (s.step f) := by
  cases f with
  | accepted address => exact .accept address
  | failed id => exact .close (.inr (.inr rfl))
  | written id count => exact .write id count
  | broken id => exact .abandon id
  | flushed => exact .flush
  | read id item =>
    cases item with
    | tooLong => exact .close (.inr (.inl rfl))
    | ended => exact .close (.inl rfl)
    | text line =>
      by_cases h : ∃ c, Speaks s id line c
      · obtain ⟨c, h⟩ := h
        exact outcome_line h
      · have hnot : ∀ c, ¬ Speaks s id line c := not_exists.mp h
        have hstep : s.step (.read id (.text line)) = s := by
          simp only [step, handle, handleLine]
          cases hc : s.connection? id with
          | none => rfl
          | some c => exact if_pos (done_of_silent hnot hc)
        rw [hstep]
        exact .ignore hnot

/-! ## What every step keeps -/

structure Tidy (s : Server) : Prop where
  ids_unique : (s.connections.map (·.id)).Nodup
  ids_used : ∀ i ∈ s.connections.map (·.id), i < s.nextId
  inOrder : s.directory.InOrder

theorem ids_of_frame (h : Frame s t) : t.connections.map (·.id) = s.connections.map (·.id) := by
  rw [← roll_fst, ← roll_fst, h.roll]

theorem ids_close (s : Server) (id : ConnectionId) :
    (s.close id).connections.map (·.id) = s.connections.map (·.id) := by
  rw [← roll_fst, ← roll_fst, roll_close, List.map_map]
  exact List.map_congr_left fun r _ => struck_fst id r

/-- The end of a connection takes entries away at most. -/
theorem exists_directory_close (s : Server) (id : ConnectionId) : ∃ p : Entry → Bool,
    (s.close id).directory = { s.directory with entries := s.directory.entries.filter p } := by
  have hsame : ∃ p : Entry → Bool, s.directory =
      { s.directory with entries := s.directory.entries.filter p } :=
    ⟨fun _ => true, by rw [List.filter_true]⟩
  unfold close
  cases s.connection? id with
  | none => exact hsame
  | some c =>
    change ∃ p : Entry → Bool, (s.withdraw c).directory = _
    unfold withdraw
    split
    · change ∃ p : Entry → Bool, Directory.eraseOwned _ _ _ = _
      unfold Directory.eraseOwned
      split
      · exact ⟨_, rfl⟩
      · exact hsame
    · exact hsame

namespace Tidy

theorem of_same (h : Tidy s) (hids : t.connections.map (·.id) = s.connections.map (·.id))
    (hnext : t.nextId = s.nextId) (horder : t.directory.InOrder) : Tidy t :=
  ⟨hids ▸ h.ids_unique, hids ▸ hnext ▸ h.ids_used, horder⟩

theorem frame (h : Tidy s) (hf : Frame s t) : Tidy t :=
  h.of_same (ids_of_frame hf) hf.nextId (hf.directory ▸ h.inOrder)

theorem close (h : Tidy s) (id : ConnectionId) : Tidy (s.close id) := by
  obtain ⟨p, hp⟩ := exists_directory_close s id
  exact h.of_same (ids_close s id) (close_nextId s id) (hp ▸ h.inOrder.filter p)

theorem erase (h : Tidy s) (name : String) :
    Tidy { s with directory := s.directory.erase name } :=
  h.of_same rfl rfl (h.inOrder.filter _)

theorem reply (h : Tidy s) (id : ConnectionId) (m : ServerMessage) : Tidy (s.reply id m) := by
  unfold Server.reply
  split
  · exact h.frame (Frame.queue s id m)
  · exact h.close id

theorem accept (h : Tidy s) (address : IpAddress) : Tidy (s.accept address) := by
  have hids : (s.accept address).connections.map (·.id) =
      s.connections.map (·.id) ++ [s.nextId] := by simp [Server.accept]
  refine ⟨?_, fun i hi => ?_, h.inOrder⟩
  · rw [hids, List.nodup_append]
    refine ⟨h.ids_unique, List.nodup_singleton _, fun i hi k hk => ?_⟩
    rw [List.mem_singleton.mp hk]
    exact Nat.ne_of_lt (h.ids_used i hi)
  · change i < s.nextId + 1
    rw [hids, List.mem_append, List.mem_singleton] at hi
    rcases hi with hi | rfl
    · exact Nat.lt_succ_of_lt (h.ids_used i hi)
    · exact Nat.lt_succ_self _

theorem flush (h : Tidy s) : Tidy s.flush.2 := by
  have hids : (s.flush.2.connections.map (·.id)).Sublist (s.connections.map (·.id)) := by
    have he : s.flush.2.connections.map (·.id) = s.openConnections.map (·.id) := by
      simp [Server.flush, Function.comp_def]
    rw [he]
    exact List.Sublist.map _ List.filter_sublist
  exact ⟨h.ids_unique.sublist hids, fun i hi => h.ids_used i (hids.subset hi), h.inOrder⟩

theorem register (h : Tidy s) {name : String} {port : UInt16} {directory : Directory}
    {others : List Peer}
    (hi : s.directory.insert ⟨name, c.address, port⟩ (some c.id) = .ok (directory, others)) :
    Tidy (s.register c name port) := by
  have hentered : Tidy (s.entered c.id name directory) :=
    h.of_same (ids_update fun _ => rfl) rfl (h.inOrder.insert hi)
  obtain ⟨t, hframe, ht | ht⟩ := register_cases hi
  · exact ht ▸ hentered.frame hframe
  · exact ht ▸ (hentered.frame hframe).close c.id

theorem step (h : Tidy s) (f : Step) : Tidy (s.step f) := by
  have ho := step_outcome s f
  generalize s.step f = t at ho
  cases ho with
  | accept address => exact h.accept address
  | write id count => exact h.of_same (ids_update fun _ => rfl) rfl h.inOrder
  | abandon id => exact h.frame (Frame.abandon s id)
  | flush => exact h.flush
  | close hends => exact h.close _
  | ignore hnot => exact h
  | reply hs hdue hnone => exact h.reply _ _
  | enter hs hphase hp hi => exact h.register (connection?_id hs.found ▸ hi)
  | remove hs hphase hp => exact (h.erase _).close _
  | reportGone hs hphase hp => exact h.erase _

theorem start {d : Directory} (hd : d.InOrder) : Tidy (.start d) :=
  ⟨List.nodup_nil, fun _ hi => absurd hi List.not_mem_nil, hd⟩

end Tidy

end PeerChat.Server
