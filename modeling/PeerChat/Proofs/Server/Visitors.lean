import Mathlib.Data.Nat.Count
import PeerChat.Proofs.Server.Steps

/-!
# Connections that never register

`visits` tells of each connection whether it is a visitor: one that comes and goes without completing
a registration.  A run can be told without its visitors (`withoutAll`).  Others then get smaller ids
(`newId`), and nothing else changes for them (`visitors_leave_no_trace`).

Each operation of the server is the same for a connection that is no visitor whether the visitors are
there or not, and does nothing if it is a visitor's.
-/

namespace PeerChat

def Connection.rename (r : OwnerId → OwnerId) (c : Connection) : Connection := { c with id := r c.id }

namespace Server

/-- The id that a connection gets if visitors do not come; the first id is 1. -/
def newId (visits : ConnectionId → Bool) (id : ConnectionId) : ConnectionId :=
  Nat.count (fun j => j = 0 ∨ visits j = false) id

/-- The state without the visitors. -/
def without (visits : ConnectionId → Bool) (s : Server) : Server where
  directory := s.directory.rename (newId visits)
  connections := (s.connections.filter fun c => !visits c.id).map (·.rename (newId visits))
  nextId := newId visits s.nextId

/-- What is left of a step without the visitors; `next` is the id of a connection that it accepts. -/
def Step.without (visits : ConnectionId → Bool) (next : ConnectionId) : Step → List Step
  | .accepted address => if visits next then [] else [.accepted address]
  | .read id item => if visits id then [] else [.read (newId visits id) item]
  | .failed id => if visits id then [] else [.failed (newId visits id)]
  | .written id count => if visits id then [] else [.written (newId visits id) count]
  | .broken id => if visits id then [] else [.broken (newId visits id)]
  | .flushed => [.flushed]

/-- The id of the connection after it. -/
def Step.nextId (next : ConnectionId) : Step → ConnectionId
  | .accepted _ => next + 1
  | _ => next

/-- All steps but those of the visitors. -/
def withoutAll (visits : ConnectionId → Bool) (next : ConnectionId) : List Step → List Step
  | [] => []
  | f :: later => f.without visits next ++ withoutAll visits (f.nextId next) later

variable {visits : ConnectionId → Bool} {s t : Server} {f : Step} {id i j : ConnectionId}
  {c : Connection}

/-! ## Ids -/

theorem newId_inj (hi : visits i = false) (hj : visits j = false)
    (h : newId visits i = newId visits j) : i = j :=
  Nat.count_injective (.inr hi) (.inr hj) h

theorem newId_one : newId visits 1 = 1 := by
  rw [newId, Nat.count_succ, Nat.count_zero, if_pos (.inl rfl)]

theorem newId_succ (h : visits id = false) : newId visits (id + 1) = newId visits id + 1 := by
  rw [newId, Nat.count_succ, if_pos (.inr h)]
  rfl

theorem newId_succ_of_visitor (h : visits id = true) (hpos : 0 < id) :
    newId visits (id + 1) = newId visits id := by
  have hnot : ¬ (id = 0 ∨ visits id = false) := by simp [h, Nat.ne_of_gt hpos]
  rw [newId, Nat.count_succ, if_neg hnot]
  rfl

/-! ## Operations of a connection that is no visitor -/

theorem connection?_without (hid : visits id = false) :
    (s.without visits).connection? (newId visits id) =
      (s.connection? id).map (·.rename (newId visits)) := by
  have hsame : (fun c : Connection => decide ((!visits c.id) = true ∧
      decide ((c.rename (newId visits)).id = newId visits id) = true)) =
        fun c => decide (c.id = id) := by
    funext c
    simp only [Connection.rename, Bool.not_eq_true', decide_eq_decide]
    constructor
    · rintro ⟨hc, h⟩
      exact newId_inj hc hid (of_decide_eq_true h)
    · rintro rfl
      exact ⟨hid, decide_eq_true rfl⟩
  rw [connection?, without, List.find?_map, List.find?_filter]
  exact congrArg (fun p => (s.connections.find? p).map _) hsame

theorem hasRoom_without (hid : visits id = false) :
    (s.without visits).hasRoom (newId visits id) = s.hasRoom id := by
  rw [hasRoom, hasRoom, connection?_without hid]
  cases s.connection? id <;> rfl

theorem outboxOf_without (hid : visits id = false) :
    (s.without visits).outboxOf (newId visits id) = s.outboxOf id := by
  rw [outboxOf, outboxOf, connection?_without hid]
  cases s.connection? id <;> rfl

/-- Whether a connection is a visitor is not for an update to say. -/
theorem filter_update {g : Connection → Connection} (hg : ∀ c, (g c).id = c.id) :
    (s.update id g).connections.filter (fun c => !visits c.id) =
      (s.connections.filter fun c => !visits c.id).map fun c => if c.id = id then g c else c := by
  have hkept : (fun c : Connection => !visits c.id) ∘ (fun c => if c.id = id then g c else c) =
      fun c => !visits c.id := by
    funext c
    by_cases hc : c.id = id <;> simp [hc, hg]
  rw [update, List.filter_map, hkept]

theorem update_without {g : Connection → Connection} (hg : ∀ c, (g c).id = c.id)
    (hr : ∀ c, g (c.rename (newId visits)) = (g c).rename (newId visits)) (hid : visits id = false) :
    (s.update id g).without visits = (s.without visits).update (newId visits id) g := by
  rw [without, filter_update hg, update, without, update]
  congr 1
  rw [List.map_map, List.map_map]
  refine List.map_congr_left fun c hc => ?_
  have hv : visits c.id = false := by simpa using (List.mem_filter.mp hc).2
  change (if c.id = id then g c else c).rename _ =
    if newId visits c.id = newId visits id then g (c.rename _) else c.rename _
  by_cases hcid : c.id = id
  · rw [if_pos hcid, if_pos (congrArg _ hcid), hr]
  · rw [if_neg hcid, if_neg fun h => hcid (newId_inj hv hid h)]

theorem queue_without (m : ServerMessage) (hid : visits id = false) :
    (s.queue id m).without visits = (s.without visits).queue (newId visits id) m := by
  rw [queue, queue, hasRoom_without hid]
  split
  · exact update_without (fun _ => rfl) (fun _ => rfl) hid
  · rfl

theorem openConnections_without : (s.without visits).openConnections =
    (s.openConnections.filter fun c => !visits c.id).map (·.rename (newId visits)) := by
  rw [openConnections, without, List.filter_map, openConnections, List.filter_filter,
    List.filter_filter]
  congr 1
  exact List.filter_congr fun c _ => Bool.and_comm _ _

theorem audience_without {except : ConnectionId} (he : visits except = false) :
    (s.without visits).audience (newId visits except) =
      ((s.audience except).filter fun i => !visits i).map (newId visits) := by
  have hids : (s.without visits).openConnections.map (·.id) =
      ((s.openConnections.map (·.id)).filter fun i => !visits i).map (newId visits) := by
    rw [openConnections_without, List.filter_map, List.map_map, List.map_map]
    rfl
  rw [audience, audience, hids, List.filter_map, List.filter_filter, List.filter_filter]
  refine congrArg (List.map _) (List.filter_congr fun i _ => ?_)
  cases hi : visits i with
  | true => simp
  | false =>
    have hsame : newId visits i = newId visits except ↔ i = except :=
      ⟨newId_inj hi he, congrArg _⟩
    simp [hsame]

/-! ## Operations of a visitor -/

theorem update_of_visitor {g : Connection → Connection} (hg : ∀ c, (g c).id = c.id)
    (hid : visits id = true) : (s.update id g).without visits = s.without visits := by
  rw [without, filter_update hg, update, without]
  congr 1
  rw [List.map_map]
  refine List.map_congr_left fun c hc => congrArg _ (if_neg ?_)
  rintro rfl
  simp [hid] at hc

theorem queue_of_visitor (m : ServerMessage) (hid : visits id = true) :
    (s.queue id m).without visits = s.without visits := by
  unfold queue
  split
  · exact update_of_visitor (fun _ => rfl) hid
  · rfl

theorem notify_without (ids : List ConnectionId) (m : ServerMessage) :
    (s.notify ids m).without visits =
      (s.without visits).notify ((ids.filter fun i => !visits i).map (newId visits)) m := by
  induction ids generalizing s with
  | nil => rfl
  | cons i ids ih =>
    have hrest : s.notify (i :: ids) m = (s.queue i m).notify ids m := rfl
    rw [hrest, ih]
    cases hi : visits i with
    | true => rw [queue_of_visitor m hi, List.filter_cons_of_neg (by simp [hi])]
    | false =>
      rw [queue_without m hi, List.filter_cons_of_pos (by simp [hi])]
      rfl

theorem broadcast_without (m : ServerMessage) (hid : visits id = false) :
    (s.broadcast m id).without visits = (s.without visits).broadcast m (newId visits id) := by
  rw [broadcast, notify_without, broadcast, audience_without hid]

/-! ## What visitors leave alone -/

/-- No visitor is registered, and none owns an entry. -/
structure Clear (visits : ConnectionId → Bool) (s : Server) : Prop where
  registered : ∀ id a name, (id, a, .registered name) ∈ s.roll → visits id = false
  owner : ∀ e ∈ s.directory.entries, ∀ id, e.owner = some id → visits id = false
  nextId_pos : 0 < s.nextId

namespace Clear

theorem phase_ne (h : Clear visits s) (hid : visits id = true) (hc : s.connection? id = some c)
    (name : String) : c.phase ≠ .registered name := by
  obtain ⟨hm, rfl⟩ := connection?_mem hc
  intro hphase
  have hno := h.registered c.id c.address name (hphase ▸ mem_roll hm)
  rw [hid] at hno
  exact absurd hno (by simp)

theorem frame (h : Clear visits s) (hf : Frame s t) : Clear visits t := by
  refine ⟨?_, ?_, ?_⟩
  · rw [hf.roll]
    exact h.registered
  · rw [hf.directory]
    exact h.owner
  · rw [hf.nextId]
    exact h.nextId_pos

theorem filter (h : Clear visits s) (p : Entry → Bool) :
    Clear visits { s with directory := { s.directory with entries := s.directory.entries.filter p } } :=
  ⟨h.registered, fun e he => h.owner e (List.mem_of_mem_filter he), h.nextId_pos⟩

theorem close (h : Clear visits s) (id : ConnectionId) : Clear visits (s.close id) := by
  obtain ⟨p, hp⟩ := exists_directory_close s id
  refine ⟨fun i a name hr => h.registered i a name ((mem_roll_close (by simp)).mp hr).2, ?_, ?_⟩
  · rw [hp]
    exact (h.filter p).owner
  · rw [close_nextId]
    exact h.nextId_pos

theorem reply (h : Clear visits s) (id : ConnectionId) (m : ServerMessage) :
    Clear visits (s.reply id m) := by
  unfold Server.reply
  split
  · exact h.frame (Frame.queue s id m)
  · exact h.close id

theorem entered (h : Clear visits s) (hid : visits id = false) {peer : Peer} {directory : Directory}
    {others : List Peer} (hi : s.directory.insert peer (some id) = .ok (directory, others)) :
    Clear visits (s.entered id peer.name directory) := by
  obtain ⟨-, -, rfl, -⟩ := Directory.insert_eq_ok hi
  refine ⟨fun i a name hr => ?_, fun e he i ho => ?_, h.nextId_pos⟩
  · rcases mem_roll_entered.mp hr with ⟨rfl, -, -⟩ | ⟨-, hm⟩
    · exact hid
    · exact h.registered i a name hm
  · rcases Directory.mem_place.mp he with rfl | he
    · rwa [← Option.some.inj ho]
    · exact h.owner e he i ho

end Clear

theorem close_of_visitor (h : Clear visits s) (hid : visits id = true) :
    (s.close id).without visits = s.without visits := by
  unfold close
  cases hc : s.connection? id with
  | none => rfl
  | some c =>
    have hsame : s.withdraw c = s := by
      unfold withdraw
      split
      · rename_i name hphase
        exact absurd hphase (h.phase_ne hid hc name)
      · rfl
    change ((s.withdraw c).update id _).without visits = _
    rw [hsame]
    exact update_of_visitor (fun _ => rfl) hid

theorem reply_of_visitor (h : Clear visits s) (hid : visits id = true) (m : ServerMessage) :
    (s.reply id m).without visits = s.without visits := by
  unfold reply
  split
  · exact queue_of_visitor m hid
  · exact close_of_visitor h hid

theorem withdraw_without (h : Clear visits s) (hc : visits c.id = false) :
    (s.withdraw c).without visits = (s.without visits).withdraw (c.rename (newId visits)) := by
  have herase : ∀ name, (s.directory.rename (newId visits)).eraseOwned name (newId visits c.id) =
      (s.directory.eraseOwned name c.id).rename (newId visits) := fun name =>
    Directory.eraseOwned_rename fun e he o ho => newId_inj (h.owner e he o ho) hc
  have hphase : (c.rename (newId visits)).phase = c.phase := rfl
  rw [withdraw, withdraw, hphase]
  cases c.phase with
  | registered name => exact congrArg (fun d => Server.mk d _ _) (herase name).symm
  | _ => rfl

theorem close_without (h : Clear visits s) (hid : visits id = false) :
    (s.close id).without visits = (s.without visits).close (newId visits id) := by
  rw [close, close, connection?_without hid]
  cases hc : s.connection? id with
  | none => rfl
  | some c =>
    have hcid : visits c.id = false := by rwa [connection?_id hc]
    change ((s.withdraw c).update id _).without visits =
      ((s.without visits).withdraw (c.rename (newId visits))).update (newId visits id) _
    rw [← withdraw_without h hcid]
    exact update_without (fun _ => rfl) (fun _ => rfl) hid

theorem reply_without (h : Clear visits s) (hid : visits id = false) (m : ServerMessage) :
    (s.reply id m).without visits = (s.without visits).reply (newId visits id) m := by
  rw [reply, reply, hasRoom_without hid]
  split
  · exact queue_without m hid
  · exact close_without h hid

theorem entered_without (hid : visits id = false) (name : String) (directory : Directory) :
    (s.entered id name directory).without visits =
      (s.without visits).entered (newId visits id) name (directory.rename (newId visits)) :=
  update_without (fun _ => rfl) (fun _ => rfl) hid

theorem register_without (h : Clear visits s) (hc : visits c.id = false) (name : String)
    (port : UInt16) : (s.register c name port).without visits =
      (s.without visits).register (c.rename (newId visits)) name port := by
  have hinsert := Directory.insert_rename (r := newId visits) (d := s.directory)
    ⟨name, c.address, port⟩ (some c.id)
  cases hi : s.directory.insert ⟨name, c.address, port⟩ (some c.id) with
  | error cause =>
    have hi' : (s.without visits).directory.insert ⟨name, (c.rename (newId visits)).address, port⟩
        (some (c.rename (newId visits)).id) = .error cause := hinsert.trans (by rw [hi]; rfl)
    simp only [register, hi, hi']
    cases cause <;> exact reply_without h hc _
  | ok result =>
    obtain ⟨directory, others⟩ := result
    have hi' : (s.without visits).directory.insert ⟨name, (c.rename (newId visits)).address, port⟩
        (some (c.rename (newId visits)).id) = .ok (directory.rename (newId visits), others) :=
      hinsert.trans (by rw [hi]; rfl)
    have hclear := (h.entered hc hi).frame (Frame.welcome _ c.id name others)
    have hid : (c.rename (newId visits)).id = newId visits c.id := rfl
    have hwelcome : ∀ t : Server, (t.welcome c.id name others).without visits =
        (t.without visits).welcome (newId visits c.id) name others := fun t => by
      rw [welcome, broadcast_without _ hc, queue_without _ hc, welcome]
    rw [register_eq hi, register_eq hi', hid, ← entered_without hc, hasRoom_without hc, ← hwelcome]
    split
    · rfl
    · exact close_without hclear hc

/-! ## Steps -/

theorem obey_without (h : Clear visits s) (hc : visits c.id = false) (command : Command) :
    (s.obey c command).without visits =
      (s.without visits).obey (c.rename (newId visits)) command := by
  have hphase : (c.rename (newId visits)).phase = c.phase := rfl
  have herase : ∀ name, ({ s with directory := s.directory.erase name } : Server).without visits =
      { s.without visits with directory := (s.without visits).directory.erase name } := fun name =>
    congrArg (fun d => Server.mk d _ _) Directory.erase_rename.symm
  rw [obey.eq_def, obey.eq_def, hphase]
  cases c.phase with
  | closed => exact reply_without h hc _
  | registering =>
    cases command with
    | register name port => exact register_without h hc name port
    | _ => exact reply_without h hc _
  | registered own =>
    cases command with
    | register name port => exact reply_without h hc _
    | listPeers =>
      have hpeers : (s.without visits).directory.peers (some own) = s.directory.peers (some own) :=
        Directory.peers_rename _
      simp only [hpeers]
      exact reply_without h hc _
    | remove name =>
      simp only [← herase]
      exact close_without (h.filter _) hc
    | reportGone name => exact herase name

theorem handle_without (h : Clear visits s) (hid : visits id = false) (item : Line.Item) :
    (s.handle id item).without visits = (s.without visits).handle (newId visits id) item := by
  cases item with
  | tooLong | ended => exact close_without h hid
  | text line =>
    rw [handle, handle, handleLine, handleLine, connection?_without hid]
    cases hc : s.connection? id with
    | none => rfl
    | some c =>
      have hcid : visits c.id = false := by rwa [connection?_id hc]
      have hphase : (c.rename (newId visits)).phase = c.phase := rfl
      simp only [Option.map_some, hphase]
      by_cases hd : c.phase = .closed ∨ Text.trim line = ""
      · rw [if_pos hd, if_pos hd]
      · rw [if_neg hd, if_neg hd]
        cases Command.parse line with
        | error cause => exact reply_without h hid _
        | ok command => exact obey_without h hcid command

theorem accept_without (h : visits s.nextId = false) (address : IpAddress) :
    (s.accept address).without visits = (s.without visits).accept address := by
  rw [accept, without, accept, without]
  simp only [newId_succ h, List.filter_append, List.map_append]
  rw [List.filter_cons_of_pos (by simp [h])]
  rfl

theorem accept_of_visitor (hc : Clear visits s) (h : visits s.nextId = true) (address : IpAddress) :
    (s.accept address).without visits = s.without visits := by
  rw [accept, without, without]
  simp only [newId_succ_of_visitor h hc.nextId_pos, List.filter_append, List.map_append]
  rw [List.filter_cons_of_neg (by simp [h])]
  simp

theorem flush_without : s.flush.2.without visits = (s.without visits).flush.2 := by
  rw [flush, flush, openConnections_without, without, without]
  congr 1
  rw [List.filter_map, List.map_map, List.map_map]
  rfl

/-- What a visitor sends changes nothing for others. -/
theorem read_of_visitor (h : Clear visits s) (hid : visits id = true) {item : Line.Item}
    (hf : ∀ e, s.entering? (.read id item) = some e → visits e.1 = false) :
    (s.step (.read id item)).without visits = s.without visits := by
  have ho := step_outcome s (.read id item)
  generalize s.step (.read id item) = t at ho
  cases ho with
  | @close f j hends =>
    have hj : j = id := by
      rcases hends with he | he | he <;> simp_all
    exact close_of_visitor h (hj ▸ hid)
  | ignore hnot => rfl
  | reply hs hdue hnone => exact reply_of_visitor h hid _
  | @enter id line c name port directory others hs hphase hp hi =>
    have hno := hf _ (entering?_of_insert hs hphase hp hi)
    rw [hid] at hno
    exact absurd hno (by simp)
  | remove hs hphase hp => exact absurd hphase (h.phase_ne hid hs.found _)
  | reportGone hs hphase hp => exact absurd hphase (h.phase_ne hid hs.found _)

/-- What is left of a step does what the step does to all that is no visitor's. -/
theorem step_without (h : Clear visits s)
    (hf : ∀ e, s.entering? f = some e → visits e.1 = false) :
    (s.without visits).run (f.without visits s.nextId) = (s.step f).without visits := by
  cases f with
  | flushed => exact flush_without.symm
  | accepted address =>
    rw [Step.without]
    cases hv : visits s.nextId with
    | true => exact (accept_of_visitor h hv address).symm
    | false => exact (accept_without hv address).symm
  | read id item =>
    rw [Step.without]
    cases hv : visits id with
    | true => exact (read_of_visitor h hv hf).symm
    | false => exact (handle_without h hv item).symm
  | failed id =>
    rw [Step.without]
    cases hv : visits id with
    | true => exact (close_of_visitor h hv).symm
    | false => exact (close_without h hv).symm
  | written id count =>
    rw [Step.without]
    cases hv : visits id with
    | true =>
      exact (update_of_visitor (g := fun c => { c with outbox := c.outbox.drop count })
        (fun _ => rfl) hv).symm
    | false =>
      exact (update_without (g := fun c => { c with outbox := c.outbox.drop count })
        (fun _ => rfl) (fun _ => rfl) hv).symm
  | broken id =>
    rw [Step.without]
    cases hv : visits id with
    | true =>
      exact (update_of_visitor (g := fun c => { c with outbox := [], writable := false })
        (fun _ => rfl) hv).symm
    | false =>
      exact (update_without (g := fun c => { c with outbox := [], writable := false })
        (fun _ => rfl) (fun _ => rfl) hv).symm

theorem Clear.step (h : Clear visits s) (hf : ∀ e, s.entering? f = some e → visits e.1 = false) :
    Clear visits (s.step f) := by
  have ho := step_outcome s f
  generalize s.step f = t at ho
  cases ho with
  | accept address =>
    refine ⟨fun i a name hr => h.registered i a name ?_, h.owner, Nat.succ_pos _⟩
    simpa [roll, Server.accept] using hr
  | write id count => exact h.frame (Frame.update s id fun c => ⟨rfl, rfl, rfl⟩)
  | abandon id => exact h.frame (Frame.abandon s id)
  | flush =>
    refine ⟨fun i a name hr => h.registered i a name ?_, h.owner, h.nextId_pos⟩
    obtain ⟨c, hc, rfl, rfl, hphase⟩ := exists_of_mem_roll hr
    obtain ⟨d, hd, rfl⟩ := List.mem_map.mp hc
    rw [← hphase]
    exact mem_roll (c := d) (List.mem_of_mem_filter hd)
  | close hends => exact h.close _
  | ignore hnot => exact h
  | reply hs hdue hnone => exact h.reply _ _
  | @enter id line c name port directory others hs hphase hp hi =>
    have hv := hf _ (entering?_of_insert hs hphase hp hi)
    obtain rfl := connection?_id hs.found
    obtain ⟨t, hframe, ht | ht⟩ := register_cases hi
    · exact ht ▸ (h.entered hv hi).frame hframe
    · exact ht ▸ ((h.entered hv hi).frame hframe).close c.id
  | remove hs hphase hp => exact (h.filter _).close _
  | reportGone hs hphase hp => exact h.filter _

theorem nextId_step (s : Server) (f : Step) : (s.step f).nextId = f.nextId s.nextId := by
  have ho := step_outcome s f
  generalize s.step f = t at ho
  cases ho with
  | accept address | write id count | abandon id | flush | ignore hnot | reportGone hs hphase hp => rfl
  | @close f id hends =>
    rw [close_nextId]
    rcases hends with rfl | rfl | rfl <;> rfl
  | @reply id line c m hs hdue hnone =>
    unfold reply
    split
    · exact (Frame.queue s id m).nextId
    · exact close_nextId s id
  | @enter id line c name port directory others hs hphase hp hi =>
    obtain rfl := connection?_id hs.found
    obtain ⟨t, hframe, ht | ht⟩ := register_cases hi
    · exact ht ▸ hframe.nextId
    · exact ht ▸ (close_nextId t c.id).trans hframe.nextId
  | remove hs hphase hp => exact close_nextId _ _

/-! ## Runs -/

theorem entering_of_entrants {steps : List Step}
    (h : ∀ e ∈ entrants s (f :: steps), visits e.1 = false) :
    (∀ e, s.entering? f = some e → visits e.1 = false) ∧
      ∀ e ∈ entrants (s.step f) steps, visits e.1 = false := by
  simp only [entrants, log, List.mem_append, Option.mem_toList] at h
  exact ⟨fun e he => h e (.inl he), fun e he => h e (.inr he)⟩

theorem run_withoutAll (hc : Clear visits s) {steps : List Step}
    (h : ∀ e ∈ entrants s steps, visits e.1 = false) :
    (s.without visits).run (withoutAll visits s.nextId steps) = (s.run steps).without visits := by
  induction steps generalizing s with
  | nil => rfl
  | cons f steps ih =>
    obtain ⟨hf, hlater⟩ := entering_of_entrants h
    rw [withoutAll, run_append, step_without hc hf, ← nextId_step]
    exact ih (hc.step hf) hlater

/-- What is left of a step queues the same, and a visitor's step queues nothing. -/
theorem queuedBy_without (hc : Clear visits s)
    (hf : ∀ e, s.entering? f = some e → visits e.1 = false) (hid : visits id = false) :
    log (queuedBy (newId visits id)) (s.without visits) (f.without visits s.nextId) =
      queuedBy id s f := by
  have hsteps : f.without visits s.nextId = [] ∨ ∃ g, f.without visits s.nextId = [g] := by
    cases f with
    | flushed => exact .inr ⟨_, rfl⟩
    | _ =>
      simp only [Step.without]
      split
      · exact .inl rfl
      · exact .inr ⟨_, rfl⟩
  have hstep := step_without hc hf
  rcases hsteps with hg | ⟨g, hg⟩
  · rw [hg] at hstep ⊢
    have hsame : (s.step f).outboxOf id = s.outboxOf id := by
      rw [← outboxOf_without hid, ← outboxOf_without hid, ← hstep]
      rfl
    rw [queuedBy, hsame, List.drop_length]
    rfl
  · rw [hg] at hstep ⊢
    have hrun : (s.without visits).step g = (s.step f).without visits := hstep
    rw [log, log, List.append_nil, queuedBy, hrun, outboxOf_without hid, outboxOf_without hid]
    rfl

theorem log_withoutAll (hc : Clear visits s) {steps : List Step}
    (h : ∀ e ∈ entrants s steps, visits e.1 = false) (hid : visits id = false) :
    log (queuedBy (newId visits id)) (s.without visits) (withoutAll visits s.nextId steps) =
      log (queuedBy id) s steps := by
  induction steps generalizing s with
  | nil => rfl
  | cons f steps ih =>
    obtain ⟨hf, hlater⟩ := entering_of_entrants h
    rw [withoutAll, log_append, step_without hc hf, queuedBy_without hc hf hid, ← nextId_step,
      ih (hc.step hf) hlater]
    rfl

theorem withoutAll_append (visits : ConnectionId → Bool) (next : ConnectionId)
    (steps later : List Step) :
    ∃ rest, withoutAll visits next (steps ++ later) = withoutAll visits next steps ++ rest := by
  induction steps generalizing next with
  | nil => exact ⟨_, rfl⟩
  | cons f steps ih =>
    obtain ⟨rest, hrest⟩ := ih (f.nextId next)
    exact ⟨rest, by rw [List.cons_append, withoutAll, hrest, withoutAll, List.append_assoc]⟩

theorem without_start (visits : ConnectionId → Bool) {d : Directory} (hd : ∀ e ∈ d.entries, e.owner = none) :
    (start d).without visits = start d := by
  have hsame : d.entries.map (Entry.rename (newId visits)) = d.entries := by
    refine (List.map_congr_left fun e he => ?_).trans (List.map_id _)
    rw [Entry.rename, hd e he]
    exact congrArg (Entry.mk e.peer) (hd e he).symm
  rw [start, without, newId_one, Directory.rename, hsame]
  rfl

/-- Up to the ids of connections, the server and all that others are told are at every point as if
those that complete no registration had not been there. -/
theorem visitors_leave_no_trace {d : Directory} (hd : ∀ e ∈ d.entries, e.owner = none)
    (visits : ConnectionId → Bool) (steps : List Step)
    (h : ∀ e ∈ entrants (.start d) steps, visits e.1 = false) :
    (∀ i j, visits i = false → visits j = false → newId visits i = newId visits j → i = j) ∧
    ∀ before later, steps = before ++ later →
      withoutAll visits 1 before <+: withoutAll visits 1 steps ∧
      run (.start d) (withoutAll visits 1 before) = (run (.start d) before).without visits ∧
      ∀ id, visits id = false →
        log (queuedBy (newId visits id)) (.start d) (withoutAll visits 1 before) =
          log (queuedBy id) (.start d) before := by
  refine ⟨fun i j => newId_inj, ?_⟩
  rintro before later rfl
  have hclear : Clear visits (start d) := by
    refine ⟨fun i a name hr => absurd hr List.not_mem_nil, fun e he i ho => ?_, Nat.one_pos⟩
    rw [hd e he] at ho
    exact absurd ho (by simp)
  have hbefore : ∀ e ∈ entrants (.start d) before, visits e.1 = false := by
    intro e he
    refine h e ?_
    rw [entrants, log_append]
    exact List.mem_append_left _ he
  have hstart := without_start visits hd
  obtain ⟨rest, hrest⟩ := withoutAll_append visits 1 before later
  refine ⟨⟨rest, hrest.symm⟩, ?_, fun id hid => ?_⟩
  · have hrun := run_withoutAll hclear hbefore
    rwa [hstart] at hrun
  · have hlog := log_withoutAll hclear hbefore hid
    rwa [hstart] at hlog

/-- Two come for nothing, one of them for a name that is taken, and one leaves before the other. -/
theorem visitors_leave_no_trace_taken :
    let steps : List Step := [.accepted (.v4 10 0 0 1), .accepted (.v4 10 0 0 2),
      .read 2 (.text "REGISTER alice 6002"), .accepted (.v4 10 0 0 3), .read 1 (.text "GET_PEER_LIST"),
      .read 3 (.text "REGISTER alice 6003"), .read 1 .ended, .accepted (.v4 10 0 0 4),
      .read 4 (.text "REGISTER bob 6004"), .read 3 .tooLong]
    (∀ e ∈ entrants (.start (.empty 2)) steps, decide (e.1 = 1 ∨ e.1 = 3) = false) ∧
    log (queuedBy 1) (.start (.empty 2)) [.accepted (.v4 10 0 0 2),
      .read 1 (.text "REGISTER alice 6002"), .accepted (.v4 10 0 0 4),
      .read 2 (.text "REGISTER bob 6004")] = [.peerList [], .newcomer "bob"] := by
  intro steps
  have h : ∀ e ∈ entrants (.start (.empty 2)) steps, decide (e.1 = 1 ∨ e.1 = 3) = false := by
    decide +kernel
  refine ⟨h, ?_⟩
  have hall := (visitors_leave_no_trace (d := .empty 2) (fun _ he => absurd he List.not_mem_nil)
    (fun id => decide (id = 1 ∨ id = 3)) steps h).2 steps [] (List.append_nil _).symm
  have hqueued : log (queuedBy 2) (.start (.empty 2)) steps = [.peerList [], .newcomer "bob"] := by
    decide +kernel
  have hlog := hall.2.2 2 (by decide)
  rwa [hqueued] at hlog

end Server

end PeerChat
