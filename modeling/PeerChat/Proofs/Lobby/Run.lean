import Mathlib.Data.List.Induction
import PeerChat.Proofs.Lobby.Basic

/-!
# A run in the lobby

Callers only ever go on (`Sound.rank_le_run`), so whoever is gone stays gone, and what a caller has seen
tells where it stands (`Standing.Tells`).  Whatever holds of a run and did not hold at its start was brought
about by one of its steps (`exists_entry`); so an acceptance is traced back to the request.
-/

namespace PeerChat

/-! ## Going on -/

/-- Callers go from each of these to a later one. -/
def Standing.rank : Standing → Nat
  | absent => 0
  | reading _ => 1
  | entering _ => 2
  | queued _ => 3
  | asked _ => 4
  | session => 5
  | gone => 6

/-- Where a caller stands that has seen this. -/
def Standing.Tells (id : CallerId) (told : List Effect) : Standing → Prop
  | session => ∃ talk, told = Effect.acceptance id :: talk ∧ ∀ e ∈ talk, e.IsTalk (some id)
  | gone => told = [.close (.caller id)] ∨ told = Effect.refusal id ∨
    ∃ talk, told = Effect.acceptance id :: (talk ++ [.close (.caller id)]) ∧
      ∀ e ∈ talk, e.IsTalk (some id)
  | _ => told = []

namespace Lobby

variable {n m : Lobby} {s : Step} {steps : List Step} {id : CallerId} {p q : Standing}
  {told new : List Effect}

theorem Course.rank_le (h : Course n s id p q told) : p.rank ≤ q.rank := by
  cases h with
  | client passes => cases passes <;> simp [Standing.rank]
  | still => exact Nat.le_refl _
  | _ => simp [Standing.rank]

theorem Course.tells (h : Course n s id p q new) (ht : p.Tells id told) : q.Tells id (told ++ new) := by
  cases h with
  | still =>
    rw [List.append_nil]
    exact ht
  | client passes =>
    cases passes with
    | rests | put | waits | gone =>
      rw [List.append_nil]
      exact ht
    | turnedAway =>
      obtain rfl : told = [] := ht
      exact .inr (.inl rfl)
    | dropped =>
      obtain rfl : told = [] := ht
      exact .inl rfl
    | accepted =>
      obtain rfl : told = [] := ht
      exact ⟨[], rfl, fun _ he => absurd he List.not_mem_nil⟩
    | refused denied =>
      obtain rfl : told = [] := ht
      exact denied.elim (fun h => .inr (.inl h)) .inl
    | talks talks =>
      obtain ⟨talk, rfl, hs⟩ := ht
      exact ⟨talk ++ new, rfl, fun e he => (List.mem_append.mp he).elim (hs e) (talks e)⟩
    | parts talks =>
      rename_i later
      obtain ⟨talk, rfl, hs⟩ := ht
      refine .inr (.inr ⟨talk ++ later, by rw [List.append_assoc]; rfl, fun e he => ?_⟩)
      exact (List.mem_append.mp he).elim (hs e) (talks e)
  | absent | connects | hears | forwarded | pauses | enters =>
    rw [List.append_nil]
    exact ht
  | denied | shutOut | drained =>
    obtain rfl : told = [] := ht
    exact .inr (.inl rfl)
  | dropped =>
    obtain rfl : told = [] := ht
    exact .inl rfl

/-- Whoever is gone sees nothing more. -/
theorem Course.of_gone (h : Course n s id .gone q told) : q = .gone ∧ told = [] := by
  cases h with
  | still => exact ⟨rfl, rfl⟩
  | client passes => exact passes.of_gone

theorem run_append (n : Lobby) (steps later : List Step) :
    n.run (steps ++ later) = (n.run steps).run later := List.foldl_append

theorem run_concat (n : Lobby) (steps : List Step) (s : Step) :
    n.run (steps ++ [s]) = (n.run steps).step s := run_append n steps [s]

theorem Sound.run (h : n.Sound) (steps : List Step) : (n.run steps).Sound := by
  induction steps generalizing n with
  | nil => exact h
  | cons s steps ih => exact ih (h.step s).1

theorem Sound.rank_le_run (h : n.Sound) (steps : List Step) (id : CallerId) :
    (n.standing id).rank ≤ ((n.run steps).standing id).rank := by
  induction steps generalizing n with
  | nil => exact Nat.le_refl _
  | cons s steps ih =>
    obtain ⟨hs, hadvance⟩ := h.step s
    obtain ⟨told, hc, -⟩ := hadvance id
    exact hc.rank_le.trans (ih hs)

theorem Sound.tells_run (h : n.Sound) (ht : (n.standing id).Tells id (n.told id)) (steps : List Step) :
    ((n.run steps).standing id).Tells id ((n.run steps).told id) := by
  induction steps generalizing n with
  | nil => exact ht
  | cons s steps ih =>
    obtain ⟨hs, hadvance⟩ := h.step s
    obtain ⟨told, hc, htold⟩ := hadvance id
    exact ih hs (htold ▸ hc.tells ht)

theorem Sound.gone_run (h : n.Sound) (hg : n.standing id = .gone) (steps : List Step) :
    (n.run steps).standing id = .gone ∧ (n.run steps).told id = n.told id := by
  induction steps generalizing n with
  | nil => exact ⟨hg, rfl⟩
  | cons s steps ih =>
    obtain ⟨hs, hadvance⟩ := h.step s
    obtain ⟨told, hc, htold⟩ := hadvance id
    rw [hg] at hc
    obtain ⟨hgone, hnil⟩ := hc.of_gone
    obtain ⟨hrun, hsame⟩ := ih hs hgone
    exact ⟨hrun, hsame.trans (by rw [htold, hnil, List.append_nil])⟩

/-- What a run brings about, one of its steps does. -/
theorem exists_entry {P : Lobby → Prop} (h₀ : ¬ P n) (h : P (n.run steps)) :
    ∃ before s after, steps = before ++ s :: after ∧ ¬ P (n.run before) ∧
      ∀ t, t <+: after → P (n.run (before ++ s :: t)) := by
  induction steps using List.reverseRecOn with
  | nil => exact absurd h h₀
  | append_singleton steps s ih =>
    by_cases hp : P (n.run steps)
    · obtain ⟨before, s', after, rfl, hbefore, hafter⟩ := ih hp
      refine ⟨before, s', after ++ [s], by simp, hbefore, fun t ht => ?_⟩
      rcases List.prefix_concat_iff.mp ht with rfl | ht
      · rw [← List.cons_append, ← List.append_assoc]
        exact h
      · exact hafter t ht
    · refine ⟨steps, s, [], rfl, hp, fun t ht => ?_⟩
      obtain rfl := List.prefix_nil.mp ht
      exact h

end Lobby

end PeerChat
