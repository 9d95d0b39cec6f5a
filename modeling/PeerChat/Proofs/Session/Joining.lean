import PeerChat.Proofs.Session.Phases

/-!
# A call comes to a chat

Until both ends chat, one of them gets further with what is on the way to it (`Phase.progress`).  So
bytes need only arrive and ends go on for the call to come to a chat, unless the key exchange fails, and
for all that is on the way to be read (`exists_settled`).
-/

namespace PeerChat.Dialogue

variable {u : Setup} {d : Dialogue}

/-- Something arrives or an end goes on; nobody types, and no stream ends. -/
def Step.Delivers : Step → Prop
  | .arrived _ _ | .advanced _ => True
  | _ => False

/-- So many bytes arrive at an end, and it goes on. -/
def deliver (u : Setup) (d : Dialogue) (r : Role) (count : Nat) : Dialogue :=
  step u (step u d (.arrived r count)) (.advanced r)

section Deliver

variable {r : Role} {count : Nat}

theorem side_arrived (h : (d.wire r).length ≤ count) :
    (step u d (.arrived r count)).side r = { d.side r with incoming := d.toward r } := by
  have hside : (step u d (.arrived r count)).side r =
      { d.side r with incoming := (d.side r).incoming ++ (d.wire r).take count } := put_side d r _
  rw [hside, List.take_of_length_le h, toward]

theorem deliver_eq : deliver u d r count = (step u d (.arrived r count)).put r
    (((step u d (.arrived r count)).side r).advance u) := rfl

theorem side_deliver (h : (d.wire r).length ≤ count) :
    (deliver u d r count).side r = (Side.advance u { d.side r with incoming := d.toward r }).1 := by
  rw [deliver_eq, put_side, side_arrived h]

theorem side_deliver_peer : (deliver u d r count).side r.peer = d.side r.peer := by
  rw [deliver_eq, put_side_peer]
  exact put_side_peer d r _

theorem toward_deliver (h : (d.wire r).length ≤ count) : (deliver u d r count).toward r =
    (Side.advance u { d.side r with incoming := d.toward r }).1.incoming := by
  have hwire : (step u d (.arrived r count)).wire r = (d.wire r).drop count := if_pos rfl
  rw [deliver_eq, toward_put, side_arrived h, hwire, List.drop_of_length_le h, List.append_nil]

theorem toward_deliver_peer (h : (d.wire r).length ≤ count) : (deliver u d r count).toward r.peer =
    d.toward r.peer ++ (Side.advance u { d.side r with incoming := d.toward r }).2 := by
  rw [deliver_eq, toward_put_peer, side_arrived h, (sameEnds_arrived d r count).toward]

/-- An end that chats reads all that there is, and writes nothing. -/
theorem deliver_chatting (h : (d.wire r).length ≤ count) {chat : Chat}
    (hs : (d.side r).stage = .chatting chat) :
    (∃ chat', ((deliver u d r count).side r).stage = .chatting chat') ∧
      (deliver u d r count).toward r = [] ∧
        (deliver u d r count).toward r.peer = d.toward r.peer := by
  rw [side_deliver h, toward_deliver h, toward_deliver_peer h,
    advance_of_chatting (s := { d.side r with incoming := d.toward r }) hs]
  exact ⟨⟨_, rfl⟩, rfl, List.append_nil _⟩

end Deliver

/-- How far an end has come. -/
def Stage.rank : Stage → Nat
  | .asking | .listening => 0
  | .responding _ | .concluding _ => 1
  | .chatting _ | .failed => 2

theorem Stage.rank_le (stage : Stage) : stage.rank ≤ 2 := by
  unfold rank
  split <;> decide

/-- Until both ends chat, one of them has something to go on with. -/
theorem Phase.progress (h : Phase u d) (he : EndsLast d) (hn : isName u.caller = true)
    (hk : ¬ u.Fails) : (∀ q, ∃ chat, (d.side q).stage = .chatting chat) ∨ ∃ r,
      (d.side r).stage.rank < ((deliver u d r (d.wire r).length).side r).stage.rank := by
  cases h with
  | requested hi hr ti tr hp hb =>
    have hended : (d.side .responder).ended = false :=
      he.ended_eq_false (by rw [Role.peer, Side.isOver, hi]; simp)
    refine .inr ⟨.responder, ?_⟩
    rw [side_deliver (Nat.le_refl _), advance_listening_done
      (s := { d.side .responder with incoming := d.toward .responder }) hr hended hn tr, hr]
    exact (by decide : 0 < 1)
  | accepted hi hr ti tr hp hb =>
    have hended : (d.side .initiator).ended = false :=
      he.ended_eq_false (by rw [Role.peer, Side.isOver, hr]; simp)
    refine .inr ⟨.initiator, ?_⟩
    cases hkey : u.kem.keyPair (u.pool .initiator) with
    | mk outcome pool =>
      cases outcome with
      | error cause => exact absurd (.inl ⟨cause, pool, hkey⟩) hk
      | ok pair =>
        rw [side_deliver (Nat.le_refl _), advance_asking_done
          (s := { d.side .initiator with incoming := d.toward .initiator }) hi hended ti
          ((congrArg _ (hp .initiator)).trans hkey), hi]
        exact (by decide : 0 < 1)
  | @offered pair pool hkey hi hr ti tr hp hb =>
    have hended : (d.side .responder).ended = false :=
      he.ended_eq_false (by rw [Role.peer, Side.isOver, hi]; simp)
    refine .inr ⟨.responder, ?_⟩
    cases hc : u.kem.encapsulate pair.publicKey (u.pool .responder) with
    | mk outcome later =>
      cases outcome with
      | error cause => exact absurd (.inr ⟨pair, pool, cause, later, hkey, hc⟩) hk
      | ok answer =>
        rw [side_deliver (Nat.le_refl _), advance_responding_done
          (s := { d.side .responder with incoming := d.toward .responder }) hr hended tr
          ((congrArg _ hp).trans hc), hr]
        exact (by decide : 1 < 2)
  | @answered key wrapped keys chat all hi hb hsecret ti hs ht =>
    refine .inr ⟨.initiator, ?_⟩
    rw [side_deliver (Nat.le_refl _), advance_concluding_done
      (s := { d.side .initiator with incoming := d.toward .initiator }) hi wrapped keys.iv ti, hi]
    exact (by decide : 1 < 2)
  | talking keys chat h => exact .inl fun q => ⟨chat q, (h q).stage_eq⟩
  | broken fails hq hp hb => exact absurd fails hk

/-- Both read what there is, first the one and then the other. -/
theorem exists_settled_of_chatting (h : ∀ q, ∃ chat, (d.side q).stage = .chatting chat) :
    ∃ later : List Step, (∀ f ∈ later, f.Delivers) ∧ ∀ q, (later.foldl (step u) d).toward q = [] ∧
      ∃ chat, ((later.foldl (step u) d).side q).stage = .chatting chat := by
  obtain ⟨chat, hi⟩ := h .initiator
  obtain ⟨chat', hr⟩ := h .responder
  obtain ⟨d', hd⟩ : ∃ d', d' = deliver u d .initiator (d.wire .initiator).length := ⟨_, rfl⟩
  obtain ⟨⟨joined, hi'⟩, hread, -⟩ := deliver_chatting (u := u) (Nat.le_refl _) hi
  have hr' : (d'.side .responder).stage = .chatting chat' := by
    have hpeer : d'.side .responder = d.side .responder := by
      rw [hd]
      exact side_deliver_peer (r := .initiator)
    rw [hpeer, hr]
  rw [← hd] at hi' hread
  obtain ⟨hlast, hread', hkept⟩ := deliver_chatting (u := u) (Nat.le_refl _) hr'
  have hpeer : (deliver u d' .responder (d'.wire .responder).length).side .initiator =
      d'.side .initiator := side_deliver_peer (r := .responder)
  refine ⟨[.arrived .initiator (d.wire .initiator).length, .advanced .initiator,
    .arrived .responder (d'.wire .responder).length, .advanced .responder], by simp [Step.Delivers],
    fun q => ?_⟩
  have hrun : [Step.arrived .initiator (d.wire .initiator).length, .advanced .initiator,
      .arrived .responder (d'.wire .responder).length, .advanced .responder].foldl (step u) d =
      deliver u d' .responder (d'.wire .responder).length := by
    rw [hd]
    rfl
  rw [hrun]
  cases q with
  | initiator => exact ⟨hkept.trans hread, joined, by rw [hpeer, hi']⟩
  | responder => exact ⟨hread', hlast⟩

theorem phase_deliver (h : Phase u d) (he : EndsLast d) (hn : isName u.caller = true)
    (hagrees : u.Agrees) (r : Role) (count : Nat) :
    Phase u (deliver u d r count) ∧ EndsLast (deliver u d r count) :=
  ⟨(h.step hn hagrees he _).step hn hagrees (he.step _) _, (he.step _).step _⟩

/-- By induction on how far the two ends still have to come. -/
theorem exists_settled (h : Phase u d) (he : EndsLast d) (hn : isName u.caller = true)
    (hagrees : u.Agrees) (hk : ¬ u.Fails) :
    ∃ later : List Step, (∀ f ∈ later, f.Delivers) ∧ ∀ q, (later.foldl (step u) d).toward q = [] ∧
      ∃ chat, ((later.foldl (step u) d).side q).stage = .chatting chat := by
  induction hm : 4 - ((d.side .initiator).stage.rank + (d.side .responder).stage.rank)
    using Nat.strongRecOn generalizing d with
  | ind m ih =>
    rcases h.progress he hn hk with hchat | ⟨r, hr⟩
    · exact exists_settled_of_chatting hchat
    · have hpeer : (deliver u d r (d.wire r).length).side r.peer = d.side r.peer := side_deliver_peer
      obtain ⟨h', he'⟩ := phase_deliver h he hn hagrees r (d.wire r).length
      have hcloser : 4 - (((deliver u d r (d.wire r).length).side .initiator).stage.rank +
          ((deliver u d r (d.wire r).length).side .responder).stage.rank) < m := by
        have hbound := Stage.rank_le ((deliver u d r (d.wire r).length).side r).stage
        have hbound' := Stage.rank_le (d.side r.peer).stage
        cases r with
        | initiator =>
          simp only [Role.peer] at hpeer hbound'
          rw [hpeer]
          omega
        | responder =>
          simp only [Role.peer] at hpeer hbound'
          rw [hpeer]
          omega
      obtain ⟨later, hlater, hsettled⟩ := ih _ hcloser h' he' rfl
      refine ⟨.arrived r (d.wire r).length :: .advanced r :: later, ?_, hsettled⟩
      exact List.forall_mem_cons.mpr ⟨trivial, List.forall_mem_cons.mpr ⟨trivial, hlater⟩⟩

theorem typed_advance (s : Side) : (s.advance u).1.typed = s.typed := by
  unfold Side.advance
  split
  · split
    · rfl
    · split <;> rfl
    · rfl
  · split <;> rfl
  · split <;> rfl
  · split <;> rfl
  · rfl
  · rfl

theorem typed_of_delivers {later : List Step} (h : ∀ f ∈ later, f.Delivers) (r : Role) :
    ((later.foldl (step u) d).side r).typed = (d.side r).typed := by
  induction later generalizing d with
  | nil => rfl
  | cons f later ih =>
    obtain ⟨hf, hlater⟩ := List.forall_mem_cons.mp h
    refine (ih hlater).trans ?_
    cases f with
    | arrived q count => exact (sameEnds_arrived d q count).typed r
    | advanced q =>
      rw [step]
      by_cases hq : r = q
      · rw [hq, put_side, typed_advance]
      · rw [eq_peer_of_ne hq, put_side_peer]
    | ended q => exact hf.elim
    | typed q line writable => exact hf.elim
    | inputEnded q => exact hf.elim

end PeerChat.Dialogue
