import PeerChat.Proofs.Exchange.Basic

/-!
# Runs of an exchange

Every step keeps an exchange in order (`Sound.step`), so every exchange that can come about is in
order (`Reachable.sound`).
-/

namespace PeerChat

theorem Client.isAsking_congr {c d : Client} (h : c.task = d.task) : c.isAsking = d.isAsking := by
  unfold isAsking
  rw [h]

theorem Client.isCalling_of_isAsking {c : Client} (h : c.isAsking = true) :
    c.task.isCalling = true := by
  unfold isAsking at h
  split at h
  · rename_i ht
    rw [ht]
    rfl
  · exact absurd h (by simp)

theorem Task.Calm.not_isAsking {c : Client} {s : Settings} (h : c.task.Calm s) :
    c.isAsking ≠ true :=
  fun hask => absurd ((Client.isCalling_of_isAsking hask).symm.trans h.not_isCalling) (by simp)

theorem Client.not_anonymous_of_isListening {c : Client} (h : c.isListening = true) :
    c.settings.anonymous = false := by
  unfold isListening at h
  split at h
  · exact absurd h (by simp)
  · exact absurd h (by simp)
  · exact absurd h (by simp)
  · simpa using h

namespace Exchange

variable {ι : Type} {n : Exchange ι} {i j : ι} {id : CallerId} {c : Contact ι} {t : Turn}

theorem admits_of_holds (h : t.Holds (n.client i)) : n.Admits i t.client :=
  fun _ hid => .inl (h.reception.queue hid)

/-! ## Turns -/

variable [DecidableEq ι]

/-- A client that does not begin to call blocks nobody whom it has not blocked before. -/
theorem Sound.ordered_setClient (h : n.Sound) {d : Client} (hq : n.Admits i d)
    (hask : d.isAsking = true → (n.client i).isAsking = true ∨ ∀ c ∈ n.called i, ¬ n.Forwarded c)
    (hcall : d.task.isCalling = true → (n.client i).task.isCalling = true) :
    (n.setClient i d).Ordered := by
  refine h.ordered.mono fun a b hb => ⟨awaits_setClient h hq hask hb.1, ?_⟩
  have hcalling := hb.2
  by_cases hi : b = i
  · rw [hi, client_setClient] at hcalling
    rw [hi]
    exact hcall hcalling
  · rwa [client_setClient_of_ne n d hi] at hcalling

theorem Sound.ordered_of_leads (h : n.Sound) (ht : t.Leads (n.client i)) :
    (n.setClient i t.client).Ordered := by
  have hq := admits_of_holds ht.holds
  cases ht with
  | stays holds task status =>
    have hsame := Client.isAsking_congr task
    exact h.ordered_setClient hq (fun hask => .inl (hsame.symm.trans hask))
      fun hcalling => by rwa [task] at hcalling
  | calms holds calm =>
    exact h.ordered_setClient hq (fun hask => absurd hask calm.not_isAsking)
      fun hcalling => absurd (hcalling.symm.trans calm.not_isCalling) (by simp)
  | dials holds calm task busy =>
    have hask : t.client.isAsking ≠ true := by simp [Client.isAsking, task]
    refine h.ordered.begin i fun a b hb => ⟨?_, ?_⟩
    · rintro rfl
      have hasking := hb.1.1
      rw [client_setClient] at hasking
      exact hask hasking
    · by_cases hi : b = i
      · exact .inl hi
      · refine .inr ⟨awaits_setClient h hq (fun hd => absurd hd hask) hb.1, ?_⟩
        have hcalling := hb.2
        rwa [client_setClient_of_ne n t.client hi] at hcalling

theorem Sound.turn (h : n.Sound) (hp : t.client.Poised)
    (hs : t.client.settings = (n.client i).settings) (hq : n.Admits i t.client)
    (ho : (n.setClient i t.client).Ordered) : (n.turn i t).Sound := by
  unfold Exchange.turn
  simp only []
  split
  · rename_i hbusy
    have hshown := h.setBoard i t.client.status fun _ _ => hbusy
    have hset := hshown.setClient (i := i) hp hs hq (fun _ _ => by rw [board_setBoard]; exact hbusy)
      (ho.mono fun _ _ hb => hb)
    exact ((sends_carryOut _ i t).trans (sends_setReady _ i false)).sound hset
  · rename_i hbusy
    have hset := h.setClient (i := i) hp hs hq (fun hcalling ha => by
      rw [hp.busy hcalling ha] at hbusy
      exact absurd rfl hbusy) ho
    exact ((sends_carryOut n i t).trans (sends_setReady _ i false)).sound hset

theorem Sound.turn_leads (h : n.Sound) (ht : t.Leads (n.client i)) : (n.turn i t).Sound :=
  h.turn (ht.poised (h.poised i)) ht.holds.settings (admits_of_holds ht.holds)
    (h.ordered_of_leads ht)

/-- Only the reception has changed. -/
theorem Sound.setReception (h : n.Sound) {r : Reception} (hr : r.Bare)
    (hq : n.Admits i { n.client i with reception := r }) :
    (n.setClient i { n.client i with reception := r }).Sound :=
  h.setClient ⟨hr, (h.poised i).byAddress, (h.poised i).busy⟩ rfl hq (h.board i)
    (h.ordered_setClient hq .inl id)

theorem Sound.receive (h : n.Sound) {outcome : Reception × List Reception.Effect}
    (hr : outcome.1.Bare) (hq : n.Admits i { n.client i with reception := outcome.1 }) :
    (n.carryOut i ((Turn.of (n.client i)).receive outcome)).Sound := by
  have hsends := sends_carryOut n i ((Turn.of (n.client i)).receive outcome)
  rw [Turn.client_receive] at hsends
  exact hsends.sound (h.setReception hr hq)

theorem Sound.drain (h : n.Sound) (i : ι) : (n.drain i).Sound := by
  unfold Exchange.drain
  split
  · split
    · exact h
    · have hwithin := (h.poised i).bare.denyQueued
      exact h.receive hwithin.toBare fun id hid => .inl (hwithin.queue hid)
  · exact h

theorem Sound.rest (h : n.Sound) (i : ι) : (n.rest i).Sound := by
  have hshown := h.setBoard i (n.client i).status fun hcalling ha => by
    rw [(h.poised i).busy hcalling ha]
    rfl
  exact (sends_setReady _ i true).sound hshown

/-! ## Connections -/

/-- A connection that has just come about, from a client to one that can be called. -/
theorem Sound.setContact (h : n.Sound) (hid : c.id = n.next) (hserves : c.attendant.Serves n.next)
    (hentering : c.attendant.isEntering = false)
    (ha : (n.client c.callee).settings.anonymous = false) :
    (({ n with next := n.next + 1 }.setContact c).setOutgoing c.caller (.connected c.id)).Sound ∧
    ∀ d ∈ (({ n with next := n.next + 1 }.setContact c).setOutgoing c.caller
      (.connected c.id)).called c.caller, ¬ n.Forwarded d := by
  have hfresh : ¬ n.Forwarded c := by
    rintro (hf | hf)
    · exact absurd (hf.symm.trans hentering) (by simp)
    · have hlt := h.queued hf
      rw [hid] at hlt
      exact Nat.lt_irrefl _ hlt
  refine ⟨⟨h.poised, h.board, fun {k d} hd => ?_, fun hk => ?_, ?_⟩, fun d hd => ?_⟩
  · have hd : (if k = c.id then some c else n.contact k) = some d := hd
    split at hd
    · rename_i hk
      obtain rfl := Option.some.inj hd
      rw [hk, hid]
      exact ⟨hid, Nat.lt_succ_self _, hserves, ha⟩
    · have hreg := h.contact hd
      exact ⟨hreg.id_eq, Nat.lt_succ_of_lt hreg.lt_next, hreg.serves, hreg.named⟩
  · exact Nat.lt_succ_of_lt (h.queued hk)
  · refine h.ordered.mono fun a b hb => ?_
    obtain ⟨⟨hask, d, hd, hcallee, hf⟩, hcalling⟩ := hb
    obtain ⟨k, ho, hd⟩ := mem_called.mp hd
    have hd : (if k = c.id then some c else n.contact k) = some d := hd
    have ho : (if a = c.caller then .connected c.id else n.outgoing a) = Outgoing.connected k := ho
    have hf : n.Forwarded d := hf
    split at hd
    · obtain rfl := Option.some.inj hd
      exact absurd hf hfresh
    · rename_i hk
      split at ho
      · exact absurd (Outgoing.connected.inj ho).symm hk
      · exact ⟨⟨hask, d, mem_called.mpr ⟨k, ho, hd⟩, hcallee, hf⟩, hcalling⟩
  · obtain ⟨k, ho, hd⟩ := mem_called.mp hd
    have hd : (if k = c.id then some c else n.contact k) = some d := hd
    have ho : (if c.caller = c.caller then .connected c.id else n.outgoing c.caller) =
        Outgoing.connected k := ho
    rw [if_pos rfl] at ho
    rw [if_pos (Outgoing.connected.inj ho).symm] at hd
    obtain rfl := Option.some.inj hd
    exact hfresh

theorem Sound.connect (h : n.Sound) (i : ι) (hj : (n.client j).settings.anonymous = false) :
    (n.connect i j).Sound := by
  obtain ⟨hnew, hnone⟩ := h.setContact
    (c := ⟨n.next, i, j, [], [], .reading ⟨n.next, n.address i, [], false⟩⟩) rfl rfl rfl hj
  obtain ⟨hh, hp, hcall⟩ := dialed_spec (h.poised i)
  have hq : Admits (({ n with next := n.next + 1 }.setContact
      ⟨n.next, i, j, [], [], .reading ⟨n.next, n.address i, [], false⟩⟩).setOutgoing i
      (.connected n.next)) i ((n.client i).onEvent .dialed).client := fun id hid => .inl
        (hh.reception.queue hid)
  exact hnew.turn hp hh.settings hq (hnew.ordered_setClient hq (fun _ => .inr hnone) hcall)

/-- A request comes into the queue, and its attendant has done its work. -/
theorem Sound.enter (h : n.Sound) (hc : n.contact id = some c) {call : Call}
    (hatt : c.attendant = .entering call) (effects : List Reception.Effect) :
    ((n.onContact id fun d => { d with attendant := .done }).carryOut c.callee
      ((Turn.of (n.client c.callee)).receive
        ((n.client c.callee).reception.enqueue call, effects))).Sound := by
  have hcaller : call.caller = id := by
    have hserves := (h.contact hc).serves
    rwa [hatt] at hserves
  have hadmits : n.Admits c.callee { n.client c.callee with
      reception := (n.client c.callee).reception.enqueue call } := by
    intro k hk
    rw [Reception.enqueue, List.map_append] at hk
    rcases List.mem_append.mp hk with hold | hnew
    · exact .inl hold
    · obtain rfl := List.mem_singleton.mp hnew
      rw [hcaller]
      exact .inr ⟨c, hc, by rw [hatt]; rfl⟩
  have hbare : ((n.client c.callee).reception.enqueue call).Bare :=
    ⟨(h.poised _).bare.callers, (h.poised _).bare.waiting⟩
  -- The request is in the queue before its attendant lets go of it.
  have hdone := (h.setReception hbare hadmits).onContact id (f := fun d => { d with attendant := .done })
    (fun _ => rfl) (fun _ => rfl) (fun _ _ => trivial)
    fun _ _ he => absurd he (by simp [Attendant.isEntering])
  have hsends := sends_carryOut (n.onContact id fun d => { d with attendant := .done }) c.callee
    ((Turn.of (n.client c.callee)).receive ((n.client c.callee).reception.enqueue call, effects))
  rw [Turn.client_receive] at hsends
  exact hsends.sound hdone

theorem Sound.attend (h : n.Sound) (id : CallerId) : (n.attend id).Sound := by
  unfold Exchange.attend
  split
  · rename_i c hc
    simp only []
    split
    · have hreg := h.contact hc
      have hserves := hreg.serves.step (n.board c.callee).isBusy (n.client c.callee).reception
      have hmoves := Attendant.step_cases (n.board c.callee).isBusy (n.client c.callee).reception
        c.attendant
      generalize c.attendant.step (n.board c.callee).isBusy (n.client c.callee).reception = outcome
        at hserves hmoves
      obtain ⟨b, r, effects⟩ := outcome
      cases hmoves with
      | apart hentering =>
        have hnext : (n.onContact id fun d => { d with attendant := b }).Sound := by
          refine h.onContact id (fun _ => rfl) (fun _ => rfl) (fun _ _ => hserves) fun d hd he => ?_
          obtain rfl := Option.some.inj (hc.symm.trans hd)
          rcases hentering he with hold | hfree
          · exact .inl hold
          · -- Whoever is called in the main loop and calls is seen to be busy.
            refine .inr (Bool.eq_false_iff.mpr fun hcalling => ?_)
            exact absurd (hfree.symm.trans (h.board _ hcalling hreg.named)) (by simp)
        exact hnext.receive (h.poised _).bare fun k hk => .inl hk
      | enters hatt => exact h.enter hc hatt effects
    · exact h
  · exact h

theorem Sound.tell (h : n.Sound) (c : Contact ι) (side : Side) (bytes : Bytes) (ended : Bool) :
    (n.tell c side bytes ended).Sound := by
  unfold Exchange.tell
  split
  · refine h.onContact c.id (fun _ => rfl) (fun _ => rfl) (fun d hd => ?_) (fun d hd he => ?_)
    · exact (h.contact hd).serves.receive bytes ended
    · exact .inl ((Attendant.isEntering_receive d.attendant bytes ended).symm.trans he)
  · exact h.turn_leads (leads_onDirect (h.poised _) _ bytes ended)

theorem Sound.arrive (h : n.Sound) (id : CallerId) (side : Side) (count : Nat) :
    (n.arrive id side count).Sound := by
  unfold Exchange.arrive
  split
  · split
    · refine Sound.tell (Sends.sound (Sends.onContact n id fun c => ?_) h) _ side _ false
      cases side <;> exact ⟨rfl, rfl, rfl⟩
    · exact h
  · exact h

/-! ## Steps -/

theorem Sound.step (h : n.Sound) (s : Step ι) : (n.step s).Sound := by
  cases s with
  | event i e =>
    unfold Exchange.step
    simp only []
    split
    · rename_i he
      have hdirect : e.isDirect = false := by simpa using (Bool.and_eq_true_iff.mp he).2
      refine h.turn_leads (leads_of_event (h.poised i) ?_ ?_)
      · rintro rfl
        exact absurd hdirect (by simp [Event.isDirect])
      · rintro id address rfl
        exact absurd hdirect (by simp [Event.isDirect])
    · exact h
  | move i source =>
    unfold Exchange.step
    simp only []
    split
    · split
      · rename_i t ht
        exact h.turn_leads (leads_of_move (h.poised i) ht)
      · exact h
    · exact h
  | rest i => exact h.rest i
  | drain i => exact h.drain i
  | connect i j =>
    unfold Exchange.step
    simp only []
    split
    · rename_i hready
      have hreaches := (Bool.and_eq_true_iff.mp hready).2
      unfold reaches at hreaches
      split at hreaches
      · exact h.connect i (Client.not_anonymous_of_isListening (Bool.and_eq_true_iff.mp hreaches).2)
      · exact absurd hreaches (by simp)
    · exact h
  | refuse i cause =>
    unfold Exchange.step
    simp only []
    split
    · have hgone := (sends_setOutgoing n i .none (by simp)).sound h
      exact hgone.turn_leads (leads_of_event (hgone.poised i) (by simp) (by simp))
    · exact h
  | attend id => exact h.attend id
  | arrive id side count => exact h.arrive id side count
  | endFor id side =>
    show (n.endFor id side).Sound
    unfold Exchange.endFor
    split
    · split
      · exact h.tell _ side [] true
      · exact h
    · exact h
  | breakFor id side =>
    show (n.breakFor id side).Sound
    unfold Exchange.breakFor
    split
    · split
      · exact h.turn_leads (leads_of_event (e := .broken _) (h.poised _) (by simp) (by simp))
      · exact h
    · exact h

theorem Sound.run (h : n.Sound) (steps : List (Step ι)) : (n.run steps).Sound := by
  induction steps generalizing n with
  | nil => exact h
  | cons s steps ih => exact ih (h.step s)

omit [DecidableEq ι] in
theorem sound_start (address : ι → IpAddress) (site : ι → Endpoint → Bool) (settings : ι → Settings)
    (entropy : ι → Entropy) : (start address site settings entropy).Sound := by
  refine ⟨fun i => poised_start _ _, fun i hcalling => ?_, fun hc => absurd hc (by simp [start]), ?_, ?_⟩
  · exact absurd hcalling (by simp [start, isCalling_start])
  · intro j id hid
    exact absurd hid (by simp [start, queue_start])
  · refine ⟨fun _ => 0, 1, fun _ => Nat.zero_lt_one, fun i j hb => ?_⟩
    obtain ⟨c, hc, -⟩ := hb.1.2
    exact absurd hc (by simp [called, start])

theorem Reachable.sound (h : n.Reachable) : n.Sound := by
  obtain ⟨address, site, settings, entropy, steps, rfl⟩ := h
  exact (sound_start address site settings entropy).run steps

end Exchange

end PeerChat
