import PeerChat.Proofs.Network.Run

/-!
# Who is discovered

Once all has come to rest, a client lists everybody who is registered but those of whom it was told
too early: before its registration was answered, by a list that was made before they came
(`mem_peers_iff`).
-/

namespace PeerChat

theorem Client.stand_of_idle {c : Client} {l : Link} (ht : c.task = .idle) (hl : c.link = some l) :
    c.stand = .linked l := by
  unfold stand
  rw [ht, hl]
  rfl

theorem Client.task_eq_idle {c : Client}
    (h : (match c.task with | .idle => true | _ => false) = true) : c.task = .idle := by
  split at h
  · assumption
  · exact absurd h (by simp)

namespace Network

variable {ι : Type} {n : Network ι} {i : ι} {id : ConnectionId} {l : Link}

/-- A network in which no handler has anything to do awaits nothing. -/
theorem Quiescent.not_awaited (h : n.Sound) (hq : n.Quiescent) {name : String} :
    ¬ n.Awaited id name := by
  rintro ⟨j, -, job, hm, -⟩
  obtain ⟨c, hconn⟩ := exists_of_jobs h.fresh (List.ne_nil_of_mem hm)
  obtain ⟨hc, rfl⟩ := Server.connection?_mem hconn
  rw [hq.jobs c hc] at hm
  exact absurd hm List.not_mem_nil

/-- At rest, a linked client lists the last list that was queued for it, and what that lacks was
announced too early. -/
theorem Sound.at_rest (h : n.Sound) (hq : n.Quiescent) (hl : (n.client i).link = some l) :
    ∃ id, n.place i = .connected id ∧
      (n.client i).peers = latest [] ((n.channel id).told.map ServerMessage.update) ∧
        ∀ e ∈ n.entries, e.peer.name ≠ (n.client i).name →
          Listed (n.channel id).told e.peer ∨ Overtaken (n.channel id).told e.peer := by
  have hidle := hq.idle i
  have hattended := hq.attended i
  obtain ⟨id, c, hp, hc, -, -, -, hinformed⟩ := h.exists_linked (Client.stand_of_idle hidle hl)
  obtain ⟨hm, hid⟩ := Server.connection?_mem hc
  have hname : l.name = (n.client i).name := by
    have hfits := (h.clients i).fits
    rw [hidle] at hfits
    exact hfits.2.2.2.2 l hl
  have hupdates : l.updates = [] := by
    rw [Client.moveServer, hidle, hl] at hattended
    cases hu : l.updates with
    | nil => rfl
    | cons update updates => simp [hu] at hattended
  have hcoming : n.coming c = [] := by
    rw [coming, hq.down c hm, hq.outbox c hm]
    rfl
  have hjobs : (n.channel id).jobs = [] := hid ▸ hq.jobs c hm
  rw [hjobs] at hinformed
  obtain ⟨hpeers, hknown⟩ := hinformed.at_rest (hid ▸ hq.up c hm) hcoming hupdates
  refine ⟨id, hp, hpeers, fun e he hne => ?_⟩
  exact (hknown e he (hname ▸ hne)).resolve_left (hq.not_awaited h)

variable [DecidableEq ι]

/-- Once all has come to rest, a linked client lists exactly those of the others who were not announced
to it ahead of the one list that it was sent, which lacks them. -/
theorem mem_peers_iff (hr : n.Reachable) (hi : n.intact = true) (hq : n.Quiescent)
    (hl : (n.client i).link = some l) :
    ∃ id, n.place i = .connected id ∧ ∀ e ∈ n.entries, e.peer.name ≠ (n.client i).name →
      (e.peer ∈ (n.client i).peers ↔ ¬ Overtaken (n.channel id).told e.peer) := by
  obtain ⟨id, hp, hpeers, hknown⟩ := (hr.sound hi).at_rest hq hl
  refine ⟨id, hp, fun e he hne => ?_⟩
  rw [hpeers]
  constructor
  · exact fun hlisted hover => hover.not_listed hlisted
  · exact fun hnot => (hknown e he hne).resolve_right hnot

/-! ## Two that come at the same time -/

/-- Two clients that register at once, and their server. -/
def pair : Network Bool :=
  start 2 (fun _ => .v4 127 0 0 1)
    (fun first => ⟨some (if first then "alice" else "bob"), some 6001, false, .counter,
      MlKem512.kem⟩) fun _ => []

/-- The handler of the second has told the first of it before the handler of the first replies. -/
def crossing : List (Step Bool) :=
  [.event true (.listening 6001), .connect true, .event false (.listening 6001), .connect false,
    .read 1, .read 2, .work 2, .work 2, .deliver 2 1, .work 2,
    .work 1, .work 1, .deliver 1 2, .work 1, .write 1, .write 1, .write 2, .write 2,
    .arrive true 64, .move true .server, .move true .own, .move true .server,
    .arrive false 64, .move false .server, .move false .own, .move false .server,
    .move false .server, .read 2, .work 2, .write 2, .arrive false 64, .move false .server]

theorem mem_peers_iff_crossing :
    (pair.run crossing).intact = true ∧ (pair.run crossing).Quiescent ∧
      (∃ e ∈ (pair.run crossing).entries, e.peer.name = "bob" ∧
        e.peer ∉ ((pair.run crossing).client true).peers) ∧
      ∃ id, (pair.run crossing).place true = .connected id ∧
        ∀ e ∈ (pair.run crossing).entries, e.peer.name ≠ ((pair.run crossing).client true).name →
          (e.peer ∈ ((pair.run crossing).client true).peers ↔
            ¬ Overtaken ((pair.run crossing).channel id).told e.peer) := by
  have hintact : (pair.run crossing).intact = true := by decide +kernel
  have hchannels : ∀ c ∈ (pair.run crossing).server.connections,
      ((pair.run crossing).channel c.id).jobs = [] ∧ c.outbox = [] ∧
        ((pair.run crossing).channel c.id).up = [] ∧
          ((pair.run crossing).channel c.id).down = [] := by decide +kernel
  have hclients : ∀ i, (match ((pair.run crossing).client i).task with | .idle => true | _ => false) =
      true ∧ ((pair.run crossing).client i).moveServer.isNone = true := by decide +kernel
  have hmissed : ∃ e ∈ (pair.run crossing).entries, e.peer.name = "bob" ∧
      e.peer ∉ ((pair.run crossing).client true).peers := by decide +kernel
  have hlink : ((pair.run crossing).client true).link.isSome = true := by decide +kernel
  have hquiescent : (pair.run crossing).Quiescent :=
    ⟨fun c hc => (hchannels c hc).1, fun c hc => (hchannels c hc).2.1,
      fun c hc => (hchannels c hc).2.2.1, fun c hc => (hchannels c hc).2.2.2,
      fun i => Client.task_eq_idle (hclients i).1, fun i => (hclients i).2⟩
  obtain ⟨l, hl⟩ := Option.isSome_iff_exists.mp hlink
  exact ⟨hintact, hquiescent, hmissed,
    mem_peers_iff ⟨_, _, _, _, crossing, rfl⟩ hintact hquiescent hl⟩

end Network

end PeerChat
