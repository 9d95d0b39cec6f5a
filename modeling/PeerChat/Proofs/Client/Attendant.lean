import PeerChat.Client.Attendant

/-!
# An attendant's work

Each step of an attendant leaves the reception alone, or brings a request into the queue that has
passed the busy test (`step_cases`).  With nothing between its steps, an attendant does what the
reception does at once (`enroll_alone`).
-/

namespace PeerChat.Attendant

variable {a : Attendant} {id : CallerId} {r : Reception} {busy : Bool}

/-- All that the attendant does is for one caller. -/
def Serves (id : CallerId) : Attendant → Prop
  | .reading c => c.id = id
  | .testing call | .entering call | .denying call => call.caller = id
  | .done => True

/-- What one step can do to the reception and to the request. -/
inductive Moves (busy : Bool) (r : Reception) (a : Attendant) : Attendant → Reception → Prop
  | apart {b : Attendant} : (b.isEntering = true → a.isEntering = true ∨ busy = false) →
      Moves busy r a b r
  | enters {call : Call} : a = .entering call →
      Moves busy r a .done (r.enqueue call)

theorem step_cases (busy : Bool) (r : Reception) (a : Attendant) :
    Moves busy r a (a.step busy r).1 (a.step busy r).2.1 := by
  cases a with
  | reading c =>
    unfold step
    simp only []
    split
    · exact .apart fun h => absurd h (by simp [isEntering])
    · exact .apart fun h => absurd h (by simp [isEntering])
    · exact .apart fun h => absurd h (by simp [isEntering])
  | testing call =>
    unfold step
    cases busy with
    | true => exact .apart fun h => absurd h (by simp [isEntering])
    | false => exact .apart fun _ => .inr rfl
  | entering call =>
    unfold step
    simp only []
    split
    · exact .apart fun _ => .inl rfl
    · split
      · exact .enters rfl
      · exact .apart fun _ => .inl rfl
  | denying call => exact .apart fun h => absurd h (by simp [step, isEntering])
  | done => exact .apart fun h => absurd h (by simp [step, isEntering])

theorem Serves.step (h : a.Serves id) (busy : Bool) (r : Reception) :
    (a.step busy r).1.Serves id := by
  cases a with
  | reading c =>
    unfold Attendant.step
    simp only []
    split
    · exact h
    · trivial
    · exact h
  | testing call =>
    unfold Attendant.step
    cases busy with
    | true => exact h
    | false => exact h
  | entering call =>
    unfold Attendant.step
    simp only []
    split
    · exact h
    · split
      · trivial
      · exact h
  | denying call => trivial
  | done => trivial

theorem Serves.receive (h : a.Serves id) (bytes : Bytes) (ended : Bool) :
    (a.receive bytes ended).Serves id := by
  cases a with
  | reading c => exact h
  | testing call => exact h
  | entering call => exact h
  | denying call => exact h
  | done => trivial

theorem isEntering_receive (a : Attendant) (bytes : Bytes) (ended : Bool) :
    (a.receive bytes ended).isEntering = a.isEntering := by
  cases a <;> rfl

/-! ## Alone -/

/-- So many steps with nothing between them. -/
def alone (busy : Bool) : Nat → Attendant → Reception → Attendant × Reception × List Reception.Effect
  | 0, a, r => (a, r, [])
  | count + 1, a, r =>
    let (a, r, effects) := a.step busy r
    let (a, r, rest) := alone busy count a r
    (a, r, effects ++ rest)

/-- The reception with the one whom the attendant has still to deal with. -/
def enroll (r : Reception) : Attendant → Reception
  | .reading c => { r with callers := r.callers ++ [c] }
  | .entering call => { r with waiting := r.waiting ++ [call] }
  | _ => r

theorem attend_enroll (c : Caller) (busy : Bool) (hc : r.callers = []) :
    (enroll r (.reading c)).attend busy c.id =
      match Negotiation.readRequest c.ended c.incoming with
      | .waiting => (enroll r (.reading c), [])
      | .failed _ => (r, [.drop c.id])
      | .done (name, rest) => r.judge busy ⟨c.id, c.address, name, rest, c.ended⟩ := by
  have hfound : (enroll r (.reading c)).caller? c.id = some c := by
    simp [enroll, Reception.caller?, hc]
  have hforget : (enroll r (.reading c)).forget c.id = r := by
    obtain ⟨capacity, isOpen, isClosed, callers, waiting, queue⟩ := r
    obtain rfl : callers = [] := hc
    simp [enroll, Reception.forget]
  cases hread : Negotiation.readRequest c.ended c.incoming <;>
    simp [Reception.attend, hfound, hforget, hread]

/-- Where an attendant comes to that has read a request, with nothing between its steps. -/
theorem judge_alone (call : Call) (busy : Bool) (hw : r.waiting = []) :
    r.judge busy call =
      (enroll (alone busy 3 (.testing call) r).2.1 (alone busy 3 (.testing call) r).1,
        (alone busy 3 (.testing call) r).2.2) := by
  obtain ⟨capacity, isOpen, isClosed, callers, waiting, queue⟩ := r
  obtain rfl : waiting = [] := hw
  cases busy with
  | true => rfl
  | false =>
    cases isClosed with
    | true => rfl
    | false =>
      by_cases hroom : queue.length < capacity
      · have htake : [call].take (capacity - queue.length) = [call] :=
          List.take_of_length_le (by simp; omega)
        have hdrop : [call].drop (capacity - queue.length) = [] :=
          List.drop_of_length_le (by simp; omega)
        simp [Reception.judge, Reception.forward, Reception.enqueue, alone, step, enroll, hroom, htake,
          hdrop]
      · have hnone : capacity - queue.length = 0 := by omega
        simp [Reception.judge, Reception.forward, alone, step, enroll, hroom, hnone]

/-- With nothing between its steps, an attendant comes to what the reception does at once. -/
theorem enroll_alone (c : Caller) (busy : Bool) (hc : r.callers = []) (hw : r.waiting = []) :
    (enroll r (.reading c)).attend busy c.id =
      (enroll (alone busy 4 (.reading c) r).2.1 (alone busy 4 (.reading c) r).1,
        (alone busy 4 (.reading c) r).2.2) := by
  rw [attend_enroll c busy hc]
  cases hread : Negotiation.readRequest c.ended c.incoming with
  | waiting => simp [alone, step, hread]
  | failed cause => simp [alone, step, hread, enroll]
  | done outcome =>
    obtain ⟨name, rest⟩ := outcome
    have hfirst : (Attendant.reading c).step busy r =
        (.testing ⟨c.id, c.address, name, rest, c.ended⟩, r, []) := by simp only [step, hread]
    rw [alone, hfirst]
    exact judge_alone _ busy hw

end PeerChat.Attendant
