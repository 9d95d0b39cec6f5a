import Mathlib.Data.List.Nodup
import PeerChat.Proofs.Directory
import PeerChat.Server.Run

/-!
# The roll of connections

The roll is what the directory depends on: the id, the address and the phase of each connection.
Queues and unread bytes do not show in it.  `Frame` says that a step leaves roll and directory as
they are, which is so for everything that only queues messages, `roll_close` and `Sound.close` say
what the end of a connection does, and `Sound.enter` what a registration does.
-/

namespace PeerChat.Server

def roll (s : Server) : List (ConnectionId × IpAddress × Phase) :=
  s.connections.map fun c => (c.id, c.address, c.phase)

theorem mem_roll {s : Server} {c : Connection} (h : c ∈ s.connections) :
    (c.id, c.address, c.phase) ∈ s.roll := List.mem_map_of_mem h

theorem exists_of_mem_roll {s : Server} {id : ConnectionId} {a : IpAddress} {p : Phase}
    (h : (id, a, p) ∈ s.roll) : ∃ c ∈ s.connections, c.id = id ∧ c.address = a ∧ c.phase = p := by
  obtain ⟨c, hc, he⟩ := List.mem_map.mp h
  simp only [Prod.mk.injEq] at he
  exact ⟨c, hc, he⟩

theorem connection?_mem {s : Server} {id : ConnectionId} {c : Connection}
    (h : s.connection? id = some c) : c ∈ s.connections ∧ c.id = id :=
  ⟨List.mem_of_find?_eq_some h, by simpa using List.find?_some h⟩

theorem roll_fst (s : Server) : s.roll.map (·.1) = s.connections.map (·.id) := by
  simp [roll, Function.comp_def]

theorem eq_of_mem_roll {s : Server} (hs : (s.roll.map (·.1)).Nodup) {id : ConnectionId}
    {a b : IpAddress} {p q : Phase} (h : (id, a, p) ∈ s.roll) (h' : (id, b, q) ∈ s.roll) :
    a = b ∧ p = q := by
  have he := List.inj_on_of_nodup_map hs h h' rfl
  simp only [Prod.mk.injEq, true_and] at he
  exact he

/-! ## Steps that do not show -/

structure Frame (s t : Server) : Prop where
  roll : t.roll = s.roll
  directory : t.directory = s.directory
  nextId : t.nextId = s.nextId

namespace Frame

theorem refl (s : Server) : Frame s s := ⟨rfl, rfl, rfl⟩

theorem trans {s t u : Server} (h : Frame s t) (g : Frame t u) : Frame s u :=
  ⟨g.roll.trans h.roll, g.directory.trans h.directory, g.nextId.trans h.nextId⟩

/-- A change to one connection that leaves its id, address and phase alone. -/
theorem update (s : Server) (id : ConnectionId) {f : Connection → Connection}
    (hf : ∀ c, (f c).id = c.id ∧ (f c).address = c.address ∧ (f c).phase = c.phase) :
    Frame s (s.update id f) := by
  refine ⟨?_, rfl, rfl⟩
  rw [Server.roll, Server.roll, Server.update, List.map_map]
  apply List.map_congr_left
  intro c _
  obtain ⟨hi, ha, hp⟩ := hf c
  by_cases h : c.id = id
  · simp [h, ha, hp, hi]
  · simp [h]

theorem queue (s : Server) (id : ConnectionId) (m : ServerMessage) : Frame s (s.queue id m) := by
  unfold Server.queue
  split
  · exact update s id fun c => ⟨rfl, rfl, rfl⟩
  · exact refl s

theorem abandon (s : Server) (id : ConnectionId) : Frame s (s.abandon id) :=
  update s id fun _ => ⟨rfl, rfl, rfl⟩

theorem notify (ids : List ConnectionId) (m : ServerMessage) :
    ∀ s : Server, Frame s (s.notify ids m) := by
  induction ids with
  | nil => exact refl
  | cons id ids ih => exact fun s => (queue s id m).trans (ih _)

theorem broadcast (s : Server) (m : ServerMessage) (except : ConnectionId) :
    Frame s (s.broadcast m except) := notify _ m s

end Frame

/-! ## Ends of connections -/

/-- The roll once a connection is closed. -/
def struck (id : ConnectionId) (r : ConnectionId × IpAddress × Phase) :
    ConnectionId × IpAddress × Phase :=
  if r.1 = id then (r.1, r.2.1, .closed) else r

theorem withdraw_connections (s : Server) (c : Connection) :
    (s.withdraw c).connections = s.connections := by
  unfold withdraw
  split <;> rfl

theorem withdraw_nextId (s : Server) (c : Connection) : (s.withdraw c).nextId = s.nextId := by
  unfold withdraw
  split <;> rfl

theorem close_nextId (s : Server) (id : ConnectionId) : (s.close id).nextId = s.nextId := by
  unfold close
  split
  · exact withdraw_nextId s _
  · rfl

theorem roll_close (s : Server) (id : ConnectionId) :
    (s.close id).roll = s.roll.map (struck id) := by
  unfold close
  split
  · rw [roll, roll, update, withdraw_connections, List.map_map, List.map_map]
    apply List.map_congr_left
    intro d _
    by_cases h : d.id = id <;> simp [struck, h]
  · rename_i hn
    rw [roll, List.map_map]
    apply List.map_congr_left
    intro d hd
    have hne : d.id ≠ id := by
      intro he
      have := List.find?_eq_none.mp hn d hd
      simp [he] at this
    simp [struck, hne]

theorem struck_fst (id : ConnectionId) (r : ConnectionId × IpAddress × Phase) :
    (struck id r).1 = r.1 := by
  unfold struck
  split <;> rfl

theorem mem_roll_close {s : Server} {id j : ConnectionId} {a : IpAddress} {p : Phase}
    (hp : p ≠ .closed) : (j, a, p) ∈ (s.close id).roll ↔ j ≠ id ∧ (j, a, p) ∈ s.roll := by
  rw [roll_close, List.mem_map]
  constructor
  · rintro ⟨⟨i, b, q⟩, hm, he⟩
    unfold struck at he
    by_cases hi : i = id
    · rw [if_pos hi] at he
      simp only [Prod.mk.injEq] at he
      exact absurd he.2.2.symm hp
    · rw [if_neg hi] at he
      obtain ⟨rfl, rfl, rfl⟩ := by simpa only [Prod.mk.injEq] using he
      exact ⟨hi, hm⟩
  · rintro ⟨hj, hm⟩
    exact ⟨_, hm, if_neg hj⟩

/-! ## Sound states -/

/-- Ids are unique and used in order, names are unique and within the capacity, and each entry is
owned by a connection that is registered under its name and has its address. -/
structure Sound (capacity : Nat) (s : Server) : Prop where
  ids_unique : (s.roll.map (·.1)).Nodup
  ids_used : ∀ id a p, (id, a, p) ∈ s.roll → id < s.nextId
  names_unique : s.directory.NamesUnique
  capacity_eq : s.directory.capacity = capacity
  size_le : s.directory.size ≤ capacity
  owned : ∀ e ∈ s.directory.entries, ∃ id, e.owner = some id ∧
    (id, e.peer.address, .registered e.peer.name) ∈ s.roll

namespace Sound

variable {capacity : Nat} {s t : Server}

theorem start (capacity : Nat) : Sound capacity (.start (.empty capacity)) where
  ids_unique := List.nodup_nil
  ids_used := fun _ _ _ h => absurd h (by simp [Server.start, roll])
  names_unique := List.nodup_nil
  capacity_eq := rfl
  size_le := Nat.zero_le _
  owned := fun _ h => absurd h (by simp [Server.start, Directory.empty])

theorem frame (hs : Sound capacity s) (h : Frame s t) : Sound capacity t := by
  obtain ⟨hr, hd, hn⟩ := h
  refine ⟨?_, ?_, ?_, ?_, ?_, ?_⟩
  · rw [hr]; exact hs.ids_unique
  · rw [hr, hn]; exact hs.ids_used
  · rw [hd]; exact hs.names_unique
  · rw [hd]; exact hs.capacity_eq
  · rw [hd]; exact hs.size_le
  · rw [hr, hd]; exact hs.owned

/-- Some entries are taken away. -/
theorem filter (hs : Sound capacity s) (p : Entry → Bool) :
    Sound capacity { s with directory.entries := s.directory.entries.filter p } where
  ids_unique := hs.ids_unique
  ids_used := hs.ids_used
  names_unique := hs.names_unique.filter p
  capacity_eq := hs.capacity_eq
  size_le := Nat.le_trans (Directory.size_filter_le s.directory p) hs.size_le
  owned := fun e he => hs.owned e (List.mem_of_mem_filter he)

/-- The entries of a connection are under the name that it registered. -/
theorem name_of_owner (hs : Sound capacity s) {e : Entry} (he : e ∈ s.directory.entries)
    {id : ConnectionId} (ho : e.owner = some id) {a : IpAddress} {p : Phase}
    (hr : (id, a, p) ∈ s.roll) : a = e.peer.address ∧ p = .registered e.peer.name := by
  obtain ⟨j, hj, hm⟩ := hs.owned e he
  obtain rfl : j = id := Option.some.inj (hj.symm.trans ho)
  exact eq_of_mem_roll hs.ids_unique hr hm

/-- The end of a connection takes away what it owns, and nothing else. -/
theorem directory_close (hs : Sound capacity s) (id : ConnectionId) :
    (s.close id).directory =
      { s.directory with entries := s.directory.entries.filter fun e => e.owner ≠ some id } := by
  have hkeep : (∀ e ∈ s.directory.entries, e.owner ≠ some id) → s.directory =
      { s.directory with entries := s.directory.entries.filter fun e => e.owner ≠ some id } := by
    intro h
    rw [List.filter_eq_self.mpr fun e he => by simpa using h e he]
  unfold close
  cases hc : s.connection? id with
  | none =>
    refine hkeep fun e he ho => ?_
    obtain ⟨j, hj, hm⟩ := hs.owned e he
    obtain rfl : j = id := Option.some.inj (hj.symm.trans ho)
    obtain ⟨c, hmc, hid, -⟩ := exists_of_mem_roll hm
    exact absurd (by simpa using hid) (List.find?_eq_none.mp hc c hmc)
  | some c =>
    obtain ⟨hm, rfl⟩ := connection?_mem hc
    change (s.withdraw c).directory = _
    unfold withdraw
    split
    · rename_i name hp
      apply Directory.eraseOwned_eq_filter hs.names_unique
      intro e he ho
      have hn := (hs.name_of_owner he ho (mem_roll hm)).2
      rw [hp] at hn
      exact (Phase.registered.inj hn).symm
    · rename_i hp
      refine hkeep fun e he ho => ?_
      exact hp _ (hs.name_of_owner he ho (mem_roll hm)).2

theorem close (hs : Sound capacity s) (id : ConnectionId) : Sound capacity (s.close id) := by
  have hd := hs.directory_close id
  refine ⟨?_, ?_, ?_, ?_, ?_, ?_⟩
  · rw [roll_close, List.map_map]
    have : (fun r : ConnectionId × IpAddress × Phase => r.1) ∘ struck id = (·.1) :=
      funext (struck_fst id)
    rw [this]
    exact hs.ids_unique
  · intro j a p h
    rw [roll_close] at h
    obtain ⟨r, hm, he⟩ := List.mem_map.mp h
    have hj : r.1 = j := by rw [← struck_fst id r, he]
    rw [close_nextId, ← hj]
    exact hs.ids_used _ _ _ hm
  · rw [hd]; exact hs.names_unique.filter _
  · rw [hd]; exact hs.capacity_eq
  · rw [hd]; exact Nat.le_trans (Directory.size_filter_le _ _) hs.size_le
  · intro e he
    rw [hd] at he
    obtain ⟨hm, hne⟩ := List.mem_filter.mp he
    obtain ⟨j, hj, hr⟩ := hs.owned e hm
    refine ⟨j, hj, (mem_roll_close (by simp)).mpr ⟨?_, hr⟩⟩
    rintro rfl
    exact absurd hj (by simpa using hne)

end Sound

end PeerChat.Server
