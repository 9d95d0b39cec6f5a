import PeerChat.Proofs.Network.Clients
import PeerChat.Proofs.Network.Reading

/-!
# Runs of the network

A network that has lost nothing has never lost anything (`intact_of_run`), and is sound
(`Reachable.sound`).
-/

namespace PeerChat.Network

variable {ι : Type} [DecidableEq ι] {n : Network ι}

theorem intact_turn (n : Network ι) (i : ι) (t : Turn) : (n.turn i t).intact = n.intact :=
  (Acts.turn n i t).intact

theorem intact_of_step {s : Step ι} (h : (n.step s).intact = true) : n.intact = true := by
  cases s with
  | event i e =>
    unfold step at h
    simp only [] at h
    split at h
    · rwa [intact_turn] at h
    · exact h
  | move i source =>
    unfold step at h
    simp only [] at h
    split at h
    · rwa [intact_turn] at h
    · exact h
  | connect i =>
    unfold step at h
    simp only [] at h
    split at h
    · rwa [connect_eq, intact_turn] at h
    · exact h
  | unreachable i cause =>
    unfold step at h
    simp only [] at h
    split at h
    · rwa [intact_turn] at h
    · exact h
  | arrive i count =>
    have h : (n.arrive i count).intact = true := h
    unfold arrive at h
    split at h
    · exact h
    · exact h
  | lose i broken =>
    unfold step at h
    simp only [intact_turn] at h
    exact absurd h (by simp)
  | read id =>
    have h : (n.read id).intact = true := h
    unfold read at h
    split at h
    · split at h
      · exact h
      · split at h
        · exact h
        · exact h
        · exact h
        · exact h
    · exact h
  | work id =>
    have h : (n.work id).intact = true := h
    unfold work at h
    split at h
    · split at h
      · exact (intact_queue _ h).1
      · exact absurd h (by simp [setJobs])
    · exact h
    · exact h
    · exact h
    · exact h
    · exact h
    · exact h
  | deliver id target =>
    have h : (n.deliver id target).intact = true := h
    unfold deliver at h
    split at h
    · split at h
      · exact (intact_queue _ h).1
      · exact h
    · exact h
  | write id =>
    have h : (n.write id).intact = true := h
    unfold write at h
    split at h
    · split at h
      · exact h
      · exact h
    · exact h
  | drop id =>
    exact absurd h (by simp [step, setJobs])

theorem intact_of_run {steps : List (Step ι)} (h : (n.run steps).intact = true) :
    n.intact = true := by
  induction steps generalizing n with
  | nil => exact h
  | cons s steps ih => exact intact_of_step (ih h)

/-! ## Every step keeps the network sound -/

theorem Sound.step (h : n.Sound) {s : Step ι} (hi : (n.step s).intact = true) : (n.step s).Sound := by
  cases s with
  | event i e =>
    unfold Network.step
    simp only []
    split
    · rename_i he
      exact h.turn (does_of_event (h.clients i) he)
    · exact h
  | move i source =>
    unfold Network.step
    simp only []
    split
    · rename_i t ht
      exact h.turn (does_of_move (h.clients i) ht)
    · exact h
  | connect i =>
    unfold Network.step
    simp only []
    split
    · rename_i hp
      exact h.connect hp
    · exact h
  | unreachable i cause =>
    unfold Network.step
    simp only []
    split
    · rename_i hp
      exact h.unreachable hp cause
    · exact h
  | arrive i count => exact h.arrive i count
  | lose i broken =>
    unfold Network.step at hi
    simp only [intact_turn] at hi
    exact absurd hi (by simp)
  | read id => exact h.read id
  | work id => exact h.work hi
  | deliver id target => exact h.deliver hi
  | write id => exact h.write id
  | drop id => exact absurd hi (by simp [Network.step, Network.setJobs])

theorem Sound.run (h : n.Sound) (steps : List (Step ι)) (hi : (n.run steps).intact = true) :
    (n.run steps).Sound := by
  induction steps generalizing n with
  | nil => exact h
  | cons s steps ih => exact ih (h.step (intact_of_run hi)) hi

omit [DecidableEq ι] in
theorem sound_start (capacity : Nat) (address : ι → IpAddress) (settings : ι → Settings)
    (entropy : ι → Entropy) : (start capacity address settings entropy).Sound where
  ids c hm := absurd hm List.not_mem_nil
  fresh id _ := ⟨rfl, rfl⟩
  holders c hm := absurd hm List.not_mem_nil
  jobs id job hm := absurd hm List.not_mem_nil
  peers e he := absurd he List.not_mem_nil
  owners e he := absurd he List.not_mem_nil
  clients i := (start_spec (settings i) (entropy i)).1.toConsistent
  writable i := (start_spec (settings i) (entropy i)).1.writable
  places i id hp := absurd hp (by simp [start])
  tied i := .apart (start_spec (settings i) (entropy i)).2 rfl
  former i id hh := absurd hh (by simp [start])

/-- A network that has lost nothing is sound, however it came to be as it is. -/
theorem Reachable.sound (h : n.Reachable) (hi : n.intact = true) : n.Sound := by
  obtain ⟨capacity, address, settings, entropy, steps, rfl⟩ := h
  exact (sound_start capacity address settings entropy).run steps hi

end PeerChat.Network
