import Mathlib.Logic.Relation
import PeerChat.Proofs.Exchange.Run

/-!
# Nobody waits in a circle

Along a chain of clients that wait for each other, each began to call before the next
(`began_lt_of_transGen`).  So no chain closes, and each ends at a client that waits for nobody
(`no_circular_wait`).
-/

namespace PeerChat.Exchange

open Relation

variable {ι : Type} {n : Exchange ι} {i j k : ι}

theorem Awaits.isCalling (h : n.Awaits i j) : (n.client i).task.isCalling = true :=
  Client.isCalling_of_isAsking h.1

theorem began_lt_of_transGen {began : ι → Nat} (hb : ∀ i j, n.Blocks i j → began i < began j)
    (h : TransGen n.Awaits i j) (hj : (n.client j).task.isCalling = true) : began i < began j := by
  induction h with
  | single h => exact hb _ _ ⟨h, hj⟩
  | tail _ h ih => exact Nat.lt_trans (ih h.isCalling) (hb _ _ ⟨h, hj⟩)

theorem isCalling_of_transGen (h : TransGen n.Awaits i j) : (n.client i).task.isCalling = true := by
  induction h with
  | single h => exact h.isCalling
  | tail _ _ ih => exact ih

/-- The chain that begins at a client comes to an end, because there is a last moment. -/
theorem exists_end {began : ι → Nat} {now : Nat} (hlt : ∀ i, began i < now)
    (hb : ∀ i j, n.Blocks i j → began i < began j) (i : ι) :
    ∃ j, ReflTransGen n.Awaits i j ∧ ∀ k, ¬ n.Awaits j k := by
  induction hm : now - began i using Nat.strongRecOn generalizing i with
  | ind m ih =>
    by_cases hwaits : ∃ j, n.Awaits i j
    · obtain ⟨j, hij⟩ := hwaits
      by_cases hcalling : (n.client j).task.isCalling = true
      · have hlater := hb i j ⟨hij, hcalling⟩
        have hj := hlt j
        obtain ⟨k, hjk, hend⟩ := ih (now - began j) (by omega) j rfl
        exact ⟨k, .head hij hjk, hend⟩
      · exact ⟨j, .single hij, fun k hjk => hcalling hjk.isCalling⟩
    · exact ⟨i, .refl, fun k hik => hwaits ⟨k, hik⟩⟩

variable [DecidableEq ι]

/-- Whatever order things happen in, no clients wait for each other in a circle, nor two for one
another, and whoever waits does so in the end for a client that waits for nobody's answer. -/
theorem no_circular_wait (h : n.Reachable) :
    (∀ i, ¬ TransGen n.Awaits i i) ∧ (∀ i j, n.Awaits i j → ¬ n.Awaits j i) ∧
      ∀ i, ∃ j, ReflTransGen n.Awaits i j ∧ ∀ k, ¬ n.Awaits j k := by
  obtain ⟨began, now, hlt, hb⟩ := h.sound.ordered
  have hnone : ∀ i, ¬ TransGen n.Awaits i i := fun i hi =>
    Nat.lt_irrefl _ (began_lt_of_transGen hb hi (isCalling_of_transGen hi))
  exact ⟨hnone, fun i j hij hji => hnone i (.tail (.single hij) hji), exists_end hlt hb⟩

/-! ## Three in a row -/

/-- Three clients, each of whom can be called at a port of its own. -/
def trio : Exchange (Fin 3) :=
  start (fun _ => .v4 127 0 0 1) (fun i e => e.port.toNat = 6001 + i)
    (fun i => ⟨some (["alice", "bob", "carol"].getD i ""), some (6001 + UInt16.ofNat i), false, .counter,
      MlKem512.kem⟩) fun _ => []

/-- A client signs up, and hears of one peer. -/
def entry (i : Fin 3) (peer : String) : List (Step (Fin 3)) :=
  [.event i (.listening (6001 + UInt16.ofNat i)), .rest i, .event i .serverConnected, .rest i,
    .event i (.serverSent (Utf8.encode ("PEER_LIST\n" ++ peer ++ "\n"))), .rest i,
    .move i .server, .rest i, .move i .own, .rest i, .move i .server, .rest i]

/-- A client calls another, whose attendant reads the request and makes the busy test. -/
def call (i j : Fin 3) (name : String) (id : CallerId) : List (Step (Fin 3)) :=
  [.event i (.typed name), .rest i, .move i .keyboard, .rest i, .connect i j, .rest i,
    .arrive id .callee 64, .attend id, .attend id]

/-- The first request passes the busy test before its callee begins to call, and enters the queue
later. The third would close the circle, and is denied. -/
def row : List (Step (Fin 3)) :=
  entry 0 "bob 127.0.0.1 6002" ++ entry 1 "carol 127.0.0.1 6003" ++ entry 2 "alice 127.0.0.1 6001" ++
    call 0 1 "bob" 0 ++ call 1 2 "carol" 1 ++ [.attend 1, .attend 0] ++ call 2 0 "alice" 2 ++ [.attend 2]

theorem no_circular_wait_row :
    (trio.run row).Awaits 0 1 ∧ (trio.run row).Awaits 1 2 ∧
      ((trio.run row).client 2).isAsking = true ∧ ¬ (trio.run row).Awaits 2 0 ∧
      (∀ i, ¬ TransGen (trio.run row).Awaits i i) ∧
      ∃ j, ReflTransGen (trio.run row).Awaits 0 j ∧ ∀ k, ¬ (trio.run row).Awaits j k := by
  have hfirst : (trio.run row).Awaits 0 1 := by decide +kernel
  have hsecond : (trio.run row).Awaits 1 2 := by decide +kernel
  have hthird : ((trio.run row).client 2).isAsking = true := by decide +kernel
  obtain ⟨hnone, -, hend⟩ := no_circular_wait (n := trio.run row) ⟨_, _, _, _, row, rfl⟩
  refine ⟨hfirst, hsecond, hthird, fun hback => ?_, hnone, hend 0⟩
  exact hnone 0 (.tail (.tail (.single hfirst) hsecond) hback)

end PeerChat.Exchange
