import PeerChat.Proofs.Outbox.Veil

/-!
# What a slow client misses

A network is set beside another that looks the same, but in which slow clients have read more
(`Lags`).  The same steps keep it so, and whatever is queued for a slow client in the one is queued for
it in the other as well; all that it misses is notices (`Lags.run`).
-/

namespace PeerChat

/-- The one list is the other without some of its notices. -/
inductive Misses : List ServerMessage → List ServerMessage → Prop
  | nil : Misses [] []
  | told {few all : List ServerMessage} (m : ServerMessage) : Misses few all → Misses (m :: few) (m :: all)
  | missed {few all : List ServerMessage} (name : String) :
      Misses few all → Misses few (.newcomer name :: all)

namespace Misses

variable {few few' all all' : List ServerMessage}

theorem refl (all : List ServerMessage) : Misses all all := by
  induction all with
  | nil => exact .nil
  | cons m all ih => exact .told m ih

theorem append (h : Misses few all) (g : Misses few' all') : Misses (few ++ few') (all ++ all') := by
  induction h with
  | nil => exact g
  | told m _ ih => exact .told m ih
  | missed name _ ih => exact .missed name ih

end Misses

theorem Server.hasRoom_iff {s : Server} {id : ConnectionId} : s.hasRoom id = true ↔
    (s.connection? id).any (·.writable) = true ∧ (s.outboxOf id).length < Server.outboxCapacity := by
  unfold hasRoom outboxOf
  cases s.connection? id with
  | none => simp
  | some c => simp

namespace Network

variable {n n' : Network Empty} {slow : List ConnectionId} {id : ConnectionId} {f : Crowd.Step Empty}

/-- The two networks look the same, and in `n` the slow clients have as much in their outboxes as in `n'`
or more. -/
structure Lags (slow : List ConnectionId) (n n' : Network Empty) : Prop where
  alike : n'.veil slow = n.veil slow
  shorter : ∀ id ∈ slow, (n'.server.outboxOf id).length ≤ (n.server.outboxOf id).length

/-! ## What a step has for a slow client -/

theorem owes_of_veil (h : n'.veil slow = n.veil slow) : n'.owes id f = n.owes id f := by
  have hjobs := jobs_of_veil h
  cases f with
  | work k => rw [owes, owes, hjobs]
  | deliver k target => rw [owes, owes, hjobs]
  | _ => rfl

/-- What a step has for a slow client, if it is no direct reply, is a notice. -/
theorem Civil.owes_of_quiet (hn : n.Civil) (hq : n.Quiet slow f) (hid : id ∈ slow) :
    n.owes id f = [] ∨ ∃ name, n.owes id f = [.newcomer name] := by
  cases f with
  | work k =>
    refine .inl ?_
    rw [owes]
    split
    · rename_i hk
      split
      · rename_i m later hjobs
        exact absurd hjobs (hq (hk ▸ hid) m later)
      · rfl
    · rfl
  | deliver k target =>
    rw [owes]
    split
    · split
      · rename_i ids m later hjobs
        obtain ⟨name, rfl, -⟩ : (Job.deliver ids m).Valid := (hn.valid_jobs hjobs).1
        split
        · exact .inr ⟨name, rfl⟩
        · exact .inl rfl
      · exact .inl rfl
    · exact .inl rfl
  | _ => exact .inl rfl

theorem writable_of_veil (h : n'.veil slow = n.veil slow) :
    (n'.server.connection? id).any (·.writable) = (n.server.connection? id).any (·.writable) := by
  have hserver : n'.server.veil slow = n.server.veil slow := congrArg Network.server h
  have hconn : ∀ s : Server,
      ((s.veil slow).connection? id).any (·.writable) = (s.connection? id).any (·.writable) := by
    intro s
    rw [Server.connection?_veil]
    cases s.connection? id with
    | none => rfl
    | some c => exact Connection.veil_writable
  rw [← hconn, hserver, hconn]

namespace Lags

/-- Where a message finds room, it finds room in the other outbox. -/
theorem hasRoom (h : Lags slow n n') (hid : id ∈ slow) (hr : n.server.hasRoom id = true) :
    n'.server.hasRoom id = true := by
  obtain ⟨hwritable, hlength⟩ := Server.hasRoom_iff.mp hr
  exact Server.hasRoom_iff.mpr
    ⟨writable_of_veil h.alike ▸ hwritable, Nat.lt_of_le_of_lt (h.shorter id hid) hlength⟩

/-- One step, with what it queues for a slow client. -/
theorem queues (h : Lags slow n n') (hn : n.Civil) (hq : n.Quiet slow f) (hid : id ∈ slow) :
    Misses (n.queues id f) (n'.queues id f) ∧
      (n'.server.outboxOf id ++ n'.queues id f).length ≤
        (n.server.outboxOf id ++ n.queues id f).length := by
  have hshorter := h.shorter id hid
  rw [Network.queues, Network.queues, owes_of_veil h.alike, List.length_append, List.length_append]
  by_cases hr : n.server.hasRoom id = true
  · rw [if_pos hr, if_pos (h.hasRoom hid hr)]
    exact ⟨.refl _, Nat.add_le_add_right hshorter _⟩
  · rw [if_neg hr]
    by_cases hr' : n'.server.hasRoom id = true
    · -- only the other outbox has room: what is missed is a notice, and this outbox is full
      obtain ⟨hwritable, hroom⟩ := Server.hasRoom_iff.mp hr'
      have hfull : Server.outboxCapacity ≤ (n.server.outboxOf id).length :=
        Nat.not_lt.mp fun hlt => hr (Server.hasRoom_iff.mpr ⟨writable_of_veil h.alike ▸ hwritable, hlt⟩)
      rw [if_pos hr']
      rcases hn.owes_of_quiet hq hid with ho | ⟨name, ho⟩
      · rw [ho]
        exact ⟨.nil, hshorter⟩
      · rw [ho]
        exact ⟨.missed name .nil, Nat.le_trans hroom hfull⟩
    · rw [if_neg hr']
      exact ⟨.nil, hshorter⟩

theorem step (h : Lags slow n n') (hn : n.Civil) (hn' : n'.Civil) (hq : n.Quiet slow f) :
    Lags slow (Crowd.step n f) (Crowd.step n' f) where
  alike := veil_step_congr hq h.alike
  shorter id hid := by
    have hlength := (h.queues hn hq hid).2
    rw [(accounts_step hn.ids f id).outbox, (accounts_step hn'.ids f id).outbox, List.length_drop,
      List.length_drop]
    exact Nat.sub_le_sub_right hlength _

/-- The same steps for both: all looks the same, and a slow client misses notices at most. -/
theorem run (h : Lags slow n n') (hn : n.Civil) (hn' : n'.Civil) {steps : List (Crowd.Step Empty)}
    (hq : n.Unanswered slow steps) :
    (Crowd.run n' steps).veil slow = (Crowd.run n steps).veil slow ∧ ∀ id ∈ slow, ∃ few all,
      ((Crowd.run n steps).channel id).told = (n.channel id).told ++ few ∧
        ((Crowd.run n' steps).channel id).told = (n'.channel id).told ++ all ∧ Misses few all := by
  induction steps generalizing n n' with
  | nil =>
    exact ⟨h.alike, fun id _ => ⟨[], [], (List.append_nil _).symm, (List.append_nil _).symm, .nil⟩⟩
  | cons f steps ih =>
    obtain ⟨halike, hslow⟩ := ih (h.step hn hn' hq.1) (hn.step f) (hn'.step f) hq.2
    refine ⟨halike, fun id hid => ?_⟩
    obtain ⟨few, all, hfew, hall, hmisses⟩ := hslow id hid
    refine ⟨n.queues id f ++ few, n'.queues id f ++ all, ?_, ?_, (h.queues hn hq.1 hid).1.append hmisses⟩
    · rw [← List.append_assoc, ← (accounts_step hn.ids f id).told]
      exact hfew
    · rw [← List.append_assoc, ← (accounts_step hn'.ids f id).told]
      exact hall

end Lags

/-! ## Had they read -/

/-- Slow clients read: some of what is in their outboxes is written. -/
theorem lags_relief (hn : n.Civil) {relief : List ConnectionId} (hslow : ∀ id ∈ relief, id ∈ slow) :
    Lags slow n (Crowd.run n (relief.map .write)) ∧
      ∀ id, ((Crowd.run n (relief.map .write)).channel id).told = (n.channel id).told := by
  have hall : ∀ m : Network Empty, m.Civil → Lags slow n m →
      Lags slow n (Crowd.run m (relief.map .write)) ∧
        ∀ id, ((Crowd.run m (relief.map .write)).channel id).told = (m.channel id).told := by
    induction relief with
    | nil => exact fun m _ h => ⟨h, fun _ => rfl⟩
    | cons k relief ih =>
      intro m hm h
      obtain ⟨hk, hrest⟩ := List.forall_mem_cons.mp hslow
      have hwrite := accounts_step hm.ids (.write k)
      have hnone : ∀ id, m.queues id (.write k) = [] := fun id => ite_self _
      have hlags : Lags slow n (Crowd.step m (.write k)) := by
        refine ⟨(veil_write_of_mem hk).trans h.alike, fun id hid => ?_⟩
        rw [(hwrite id).outbox, hnone, List.append_nil, List.length_drop]
        exact Nat.le_trans (Nat.sub_le _ _) (h.shorter id hid)
      obtain ⟨hend, htold⟩ := ih hrest _ (hm.step _) hlags
      refine ⟨hend, fun id => (htold id).trans ?_⟩
      rw [(hwrite id).told, hnone, List.append_nil]
  exact hall n hn ⟨rfl, fun _ _ => Nat.le_refl _⟩

/-- Whether slow clients have read or not, nobody else is told anything else, and the registry is the
same; slow clients that have not read miss notices at most. -/
theorem Civil.relieved (hn : n.Civil) {relief : List ConnectionId} (hslow : ∀ id ∈ relief, id ∈ slow)
    {steps : List (Crowd.Step Empty)} (hq : n.Unanswered slow steps) :
    (Crowd.run n (relief.map .write ++ steps)).veil slow = (Crowd.run n steps).veil slow ∧
      ∀ id ∈ slow, ∃ few all, ((Crowd.run n steps).channel id).told = (n.channel id).told ++ few ∧
        ((Crowd.run n (relief.map .write ++ steps)).channel id).told = (n.channel id).told ++ all ∧
          Misses few all := by
  have hrun : Crowd.run n (relief.map .write ++ steps) =
      Crowd.run (Crowd.run n (relief.map .write)) steps := List.foldl_append
  obtain ⟨hlags, htold⟩ := lags_relief hn hslow
  obtain ⟨halike, hmisses⟩ := hlags.run hn (hn.run _) hq
  rw [hrun]
  refine ⟨halike, fun id hid => ?_⟩
  rw [← htold id]
  obtain ⟨few, all, hfew, hall, hm⟩ := hmisses id hid
  exact ⟨few, all, htold id ▸ hfew, hall, hm⟩

end Network

end PeerChat
