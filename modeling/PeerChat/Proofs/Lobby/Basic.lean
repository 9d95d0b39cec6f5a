import PeerChat.Proofs.Client.Attendant
import PeerChat.Proofs.Lobby.Standings

/-!
# One step in the lobby

A caller is with its attendant, or stands with the client, or is gone.  Each step moves every caller along
one of a few ways (`Course`), and nobody is at two places at once (`Sound.step`).
-/

namespace PeerChat

namespace Attendant

variable {busy : Bool} {r : Reception}

theorem serve_reading (c : Caller) : (reading c).serve busy r =
    match Negotiation.readRequest c.ended c.incoming with
    | .waiting => (reading c, r, [])
    | .failed _ => (done, r, [.drop c.id])
    | .done (name, rest) =>
      if busy then (done, r, [.deny c.id])
      else (entering ⟨c.id, c.address, name, rest, c.ended⟩, r, []) := by
  cases hr : Negotiation.readRequest c.ended c.incoming with
  | waiting => simp [serve, step, hr]
  | failed cause => simp [serve, step, hr]
  | done request =>
    obtain ⟨name, rest⟩ := request
    cases busy <;> simp [serve, step, hr]

theorem serve_entering (call : Call) : (entering call).serve busy r =
    if r.isClosed then (done, r, [.deny call.caller])
    else if r.queue.length < r.capacity then (done, r.enqueue call, [])
    else (entering call, r, []) := by
  cases hc : r.isClosed with
  | true => simp [serve, step, hc]
  | false => by_cases hr : r.queue.length < r.capacity <;> simp [serve, step, hc, hr]

end Attendant

namespace Lobby

variable {n n' : Lobby} {s : Step} {id : CallerId}

/-! ## Standings -/

/-- Where a caller stands. -/
def standing (n : Lobby) (id : CallerId) : Standing :=
  match n.attendant id with
  | none => .absent
  | some (.reading c) => .reading c
  | some (.entering call) => .entering call.name
  | some _ => n.client.standing id

/-- What an attendant has at hand is its caller's. -/
def Attends (n : Lobby) (id : CallerId) : Attendant → Prop
  | .reading c => c.id = id ∧ c.incoming = n.said id
  | .entering call => call.caller = id
  | .testing _ | .denying _ => False
  | .done => True

structure Sound (n : Lobby) : Prop where
  attentive : n.client.Attentive
  served : ∀ id, n.client.standing id ≠ .gone → n.attendant id = some .done
  attends : ∀ id a, n.attendant id = some a → n.Attends id a
  fresh : ∀ id, n.next ≤ id → n.attendant id = none
  unheard : ∀ id, n.attendant id = none → n.said id = []
  board : n.client.status.isBusy = true → n.board.isBusy = true

/-- How a step moves one caller, and what the caller sees of it. -/
inductive Course (n : Lobby) (s : Step) (id : CallerId) : Standing → Standing → List Effect → Prop
  | still {p : Standing} (puts : n.puts? s = none) (answer : n.answer? s = none) : Course n s id p p []
  | client {p q : Standing} {told : List Effect}
      (passes : Passes (n.puts? s) (n.answer? s) id p q told) : Course n s id p q told
  | absent : Course n s id .absent .absent []
  | connects {c : Caller} : Course n s id .absent (.reading c) []
  | hears {c d : Caller} : Course n s id (.reading c) (.reading d) []
  | forwarded {c : Caller} {name : String} {rest : Bytes} (attend : s = .attend id)
      (request : Negotiation.readRequest c.ended c.incoming = .done (name, rest))
      (calm : n.board.isBusy = false) : Course n s id (.reading c) (.entering name) []
  | denied {c : Caller} : Course n s id (.reading c) .gone (Effect.refusal id)
  | dropped {c : Caller} : Course n s id (.reading c) .gone [.close (.caller id)]
  | pauses {name : String} : Course n s id (.entering name) (.entering name) []
  | enters {name : String} : Course n s id (.entering name) (.queued name) []
  | shutOut {name : String} : Course n s id (.entering name) .gone (Effect.refusal id)
  | drained {name : String} (drain : s = .drain) :
      Course n s id (.queued name) .gone (Effect.refusal id)

/-- Every caller goes some way. -/
def Advances (n : Lobby) (s : Step) (n' : Lobby) : Prop :=
  ∀ id, ∃ told, Course n s id (n.standing id) (n'.standing id) told ∧
    n'.told id = n.told id ++ told

theorem Attends.of_said {a : Attendant} (h : n.Attends id a) (hsaid : n'.said id = n.said id) :
    n'.Attends id a := by
  cases a with
  | reading c => exact ⟨h.1, h.2.trans hsaid.symm⟩
  | _ => exact h

theorem standing_of_done (h : n.attendant id = some .done) : n.standing id = n.client.standing id := by
  rw [standing, h]

theorem standing_of_none (h : n.attendant id = none) : n.standing id = .absent := by
  rw [standing, h]

theorem standing_of_reading {c : Caller} (h : n.attendant id = some (.reading c)) :
    n.standing id = .reading c := by
  rw [standing, h]

theorem standing_of_entering {call : Call} (h : n.attendant id = some (.entering call)) :
    n.standing id = .entering call.name := by
  rw [standing, h]

theorem told_carryOut (n : Lobby) (t : Turn) (id : CallerId) :
    (n.carryOut t).told id = n.told id ++ t.told id := List.filter_append ..

theorem told_turn (n : Lobby) (t : Turn) (id : CallerId) :
    (n.turn t).told id = n.told id ++ t.told id := List.filter_append ..

/-- An attendant is with its caller, or has done its work. -/
theorem Sound.attendant_cases (h : n.Sound) (id : CallerId) :
    n.attendant id = none ∨ (∃ c, n.attendant id = some (.reading c)) ∨
      (∃ call, n.attendant id = some (.entering call)) ∨ n.attendant id = some .done := by
  cases ha : n.attendant id with
  | none => exact .inl rfl
  | some a =>
    have hattends := h.attends id a ha
    cases a with
    | reading c => exact .inr (.inl ⟨c, rfl⟩)
    | entering call => exact .inr (.inr (.inl ⟨call, rfl⟩))
    | done => exact .inr (.inr (.inr rfl))
    | testing call => exact hattends.elim
    | denying call => exact hattends.elim

/-! ## Turns of the client -/

/-- A turn moves those who stand with the client, and nobody else sees any of it. -/
theorem Sound.advances_turn (h : n.Sound) {m : Lobby} (hm : m.attendant = n.attendant)
    {x : Incident} {t : Turn} (hr : n.client.Receives x t) (hclient : m.client = t.client)
    (htold : ∀ id, m.told id = n.told id ++ t.told id)
    (hputs : n.puts? s = n.client.puts? x) (hanswer : n.answer? s = n.client.answer? x) :
    n.Advances s m := by
  intro id
  have hpass := Client.passes h.attentive hr id
  rw [← hputs, ← hanswer] at hpass
  have hapart : n.client.standing id = .gone → t.told id = [] := by
    intro hgone
    rw [hgone] at hpass
    exact hpass.of_gone.2
  have hunserved : n.attendant id ≠ some .done → t.told id = [] := by
    intro ha
    by_contra hne
    exact ha (h.served id fun hgone => hne (hapart hgone))
  refine ⟨t.told id, ?_, htold id⟩
  rcases h.attendant_cases id with ha | ⟨c, ha⟩ | ⟨call, ha⟩ | ha
  · rw [hunserved (by rw [ha]; simp), standing_of_none ha, standing_of_none (hm ▸ ha)]
    exact .absent
  · rw [hunserved (by rw [ha]; simp), standing_of_reading ha, standing_of_reading (hm ▸ ha)]
    exact .hears
  · rw [hunserved (by rw [ha]; simp), standing_of_entering ha, standing_of_entering (hm ▸ ha)]
    exact .pauses
  · rw [standing_of_done ha, standing_of_done (hm ▸ ha), hclient]
    exact .client hpass

/-- Whoever stands with the client after an incident did so before. -/
theorem Sound.served_turn (h : n.Sound) {x : Incident} {t : Turn} (hr : n.client.Receives x t)
    (id : CallerId) (hid : t.client.standing id ≠ .gone) : n.attendant id = some .done := by
  refine h.served id fun hgone => hid ?_
  have hpass := Client.passes h.attentive hr id
  rw [hgone] at hpass
  exact hpass.of_gone.1

theorem Sound.turn (h : n.Sound) {x : Incident} {t : Turn} (hr : n.client.Receives x t) :
    (n.turn t).Sound := by
  refine ⟨hr.attentive h.attentive, fun id hid => h.served_turn hr id hid, ?_, h.fresh, h.unheard, ?_⟩
  · exact fun id a ha => (h.attends id a ha).of_said rfl
  · intro hbusy
    have hbusy : t.client.status.isBusy = true := hbusy
    simp only [Lobby.turn, if_pos hbusy]
    exact hbusy

/-! ## Steps of one attendant -/

/-- Only one attendant has gone on, and only its caller has seen anything. -/
structure Tends (n m : Lobby) (id : CallerId) (b : Attendant) (told : List Effect) : Prop where
  client : m.client = n.client
  board : m.board = n.board
  next : n.next ≤ m.next
  known : id < m.next
  attendant : ∀ k, m.attendant k = if k = id then some b else n.attendant k
  said : ∀ k, k ≠ id → m.said k = n.said k
  attends : m.Attends id b
  served : n.client.standing id ≠ .gone → b = .done
  told : ∀ k, m.told k = n.told k ++ if k = id then told else []

section Tends

variable {m : Lobby} {b : Attendant} {told : List Effect}

theorem Tends.self (h : Tends n m id b told) : m.attendant id = some b := by
  rw [h.attendant, if_pos rfl]

theorem Tends.other (h : Tends n m id b told) {k : CallerId} (hk : k ≠ id) :
    m.attendant k = n.attendant k := by
  rw [h.attendant, if_neg hk]

theorem Tends.sound (h : Tends n m id b told) (hn : n.Sound) : m.Sound := by
  refine ⟨h.client ▸ hn.attentive, ?_, ?_, ?_, ?_, ?_⟩
  · intro k hk
    rw [h.client] at hk
    by_cases he : k = id
    · subst he
      rw [h.self, h.served hk]
    · rw [h.other he]
      exact hn.served k hk
  · intro k a ha
    by_cases he : k = id
    · subst he
      obtain rfl := Option.some.inj (h.self.symm.trans ha)
      exact h.attends
    · exact (hn.attends k a (h.other he ▸ ha)).of_said (h.said k he)
  · intro k hk
    have hother : k ≠ id := (Nat.lt_of_lt_of_le h.known hk).ne'
    rw [h.other hother]
    exact hn.fresh k (h.next.trans hk)
  · intro k hk
    have hother : k ≠ id := by
      rintro rfl
      exact absurd (h.self.symm.trans hk) (by simp)
    rw [h.said k hother]
    exact hn.unheard k (h.other hother ▸ hk)
  · rw [h.client, h.board]
    exact hn.board

theorem Tends.advances (h : Tends n m id b told) (hputs : n.puts? s = none)
    (hanswer : n.answer? s = none) (hc : Course n s id (n.standing id) (m.standing id) told) :
    n.Advances s m := by
  intro k
  by_cases he : k = id
  · subst he
    exact ⟨told, hc, by rw [h.told, if_pos rfl]⟩
  · refine ⟨[], ?_, by rw [h.told, if_neg he]⟩
    have hsame : m.standing k = n.standing k := by
      rw [standing, standing, h.other he, h.client]
    rw [hsame]
    exact .still hputs hanswer

/-- An attendant that has done its work leaves nobody with the client. -/
theorem Tends.standing_done (h : Tends n m id .done told)
    (hgone : n.client.standing id = .gone) : m.standing id = .gone := by
  rw [standing_of_done h.self, h.client, hgone]

end Tends

/-- Who is not done with its attendant does not stand with the client. -/
theorem Sound.gone (h : n.Sound) (id : CallerId) (ha : n.attendant id ≠ some .done) : n.client.standing id = .gone := by
  by_contra hne
  exact ha (h.served id hne)

theorem Sound.known (h : n.Sound) (id : CallerId) (ha : n.attendant id ≠ none) : id < n.next := by
  by_contra hle
  exact ha (h.fresh id (Nat.le_of_not_lt hle))

theorem told_receive (c : Client) (r : Reception) (effects : List Reception.Effect) (id : CallerId) :
    ((Turn.of c).receive (r, effects)).told id =
      Effect.toCaller id (effects.flatMap Reception.Effect.told) := by
  rw [Turn.told_eq, Turn.toCallers_receive]
  rfl

/-- The attendant of a caller goes on, and leaves the reception alone. -/
theorem Sound.tends (h : n.Sound) (b : Attendant) (effects : List Reception.Effect)
    (told : List Effect) (ha : n.attendant id ≠ none) (hb : n.Attends id b)
    (hserved : n.client.standing id ≠ .gone → b = .done)
    (heffects : effects.flatMap Reception.Effect.told = told)
    (htold : ∀ e ∈ told, e.caller? = some id) :
    Tends n ((n.setAttendant id b).carryOut
      ((Turn.of n.client).receive (n.client.reception, effects))) id b told := by
  refine ⟨?_, rfl, Nat.le_refl _, h.known id ha, fun _ => rfl, fun _ _ => rfl, ?_, hserved, ?_⟩
  · exact Turn.client_receive _ _
  · cases b <;> exact hb
  · intro k
    rw [told_carryOut, told_receive, heffects]
    congr 1
    split
    · rename_i hk
      exact Effect.toCaller_eq_self (hk ▸ htold)
    · rename_i hk
      exact Effect.toCaller_eq_nil fun e he h' => hk (Option.some.inj (h'.symm.trans (htold e he)))

/-- A caller comes into the queue. -/
theorem Sound.enters (h : n.Sound) {call : Call} (ha : n.attendant id = some (.entering call))
    {m : Lobby} (hm : m = (n.setAttendant id .done).carryOut
      ((Turn.of n.client).receive (n.client.reception.enqueue call, [])))
    (hputs : n.puts? s = none) (hanswer : n.answer? s = none) : m.Sound ∧ n.Advances s m := by
  obtain rfl : call.caller = id := h.attends id _ ha
  have hgone := h.gone call.caller (by rw [ha]; simp)
  have hknown := h.known call.caller (by rw [ha]; simp)
  have hclient : m.client = { n.client with reception := n.client.reception.enqueue call } := by
    rw [hm]
    exact Turn.client_receive _ _
  have hstanding : ∀ k, m.client.standing k =
      if k = call.caller then .queued call.name else n.client.standing k := by
    rw [hclient]
    exact Client.standing_enqueue (Client.free_of_gone h.attentive hgone).1
  have hattendant : ∀ k, m.attendant k = if k = call.caller then some .done else n.attendant k := by
    intro k
    rw [hm]
    rfl
  have hstatus : m.client.status = n.client.status := by rw [hclient]
  have hboard : m.board = n.board := by rw [hm]; rfl
  have hsaid : m.said = n.said := by rw [hm]; rfl
  have hnext : m.next = n.next := by rw [hm]; rfl
  refine ⟨⟨hclient ▸ h.attentive.enqueue hgone, fun k hk => ?_, fun k a hk => ?_, fun k hk => ?_,
    fun k hk => ?_, fun hbusy => ?_⟩, fun k => ?_⟩
  · rw [hattendant]
    split
    · rfl
    · rename_i he
      rw [hstanding, if_neg he] at hk
      exact h.served k hk
  · rw [hattendant] at hk
    split at hk
    · obtain rfl := Option.some.inj hk
      trivial
    · exact (h.attends k a hk).of_said (congrFun hsaid k)
  · rw [hnext] at hk
    rw [hattendant, if_neg (Nat.lt_of_lt_of_le hknown hk).ne']
    exact h.fresh k hk
  · rw [hattendant] at hk
    split at hk
    · exact absurd hk (by simp)
    · rw [hsaid]
      exact h.unheard k hk
  · rw [hboard]
    exact h.board (hstatus ▸ hbusy)
  · refine ⟨[], ?_, ?_⟩
    · by_cases he : k = call.caller
      · subst he
        have hdone : m.attendant call.caller = some .done := by rw [hattendant, if_pos rfl]
        rw [standing_of_entering ha, standing_of_done hdone, hstanding, if_pos rfl]
        exact .enters
      · have hsame : m.standing k = n.standing k := by
          rw [standing, standing, hattendant, if_neg he, hstanding, if_neg he]
        rw [hsame]
        exact .still hputs hanswer
    · rw [hm, told_carryOut, told_receive]
      rfl

/-! ## Each step -/

/-- What comes of an attendant's going on. -/
def attended (n : Lobby) (id : CallerId) (out : Attendant × Reception × List Reception.Effect) : Lobby :=
  (n.setAttendant id out.1).carryOut ((Turn.of n.client).receive out.2)

theorem Sound.attend_reading (h : n.Sound) {c : Caller} (ha : n.attendant id = some (.reading c)) :
    (n.attended id ((Attendant.reading c).serve n.board.isBusy n.client.reception)).Sound ∧
      n.Advances (.attend id)
        (n.attended id ((Attendant.reading c).serve n.board.isBusy n.client.reception)) := by
  have hsome : n.attendant id ≠ none := by rw [ha]; simp
  have hid : c.id = id := (h.attends id _ ha).1
  have hgone := h.gone id (by rw [ha]; simp)
  have hserved (b : Attendant) (hk : n.client.standing id ≠ .gone) : b = .done := absurd hgone hk
  rw [Attendant.serve_reading]
  cases hr : Negotiation.readRequest c.ended c.incoming with
  | waiting =>
    have htends := h.tends (.reading c) [] [] hsome
      (h.attends id _ ha) (hserved _) rfl (by simp)
    refine ⟨htends.sound h, htends.advances rfl rfl ?_⟩
    rw [standing_of_reading ha, standing_of_reading htends.self]
    exact .hears
  | failed cause =>
    have htends := h.tends .done [.drop c.id] [.close (.caller id)]
      hsome trivial (hserved _) (by rw [hid]; rfl) (by simp [Effect.caller?])
    refine ⟨htends.sound h, htends.advances rfl rfl ?_⟩
    rw [standing_of_reading ha, htends.standing_done hgone]
    exact .dropped
  | done request =>
    obtain ⟨name, rest⟩ := request
    cases hbusy : n.board.isBusy with
    | true =>
      have htends := h.tends .done [.deny c.id] (Effect.refusal id)
        hsome trivial (hserved _) (by rw [hid]; rfl) Effect.caller?_of_mem_refusal
      refine ⟨htends.sound h, htends.advances rfl rfl ?_⟩
      rw [standing_of_reading ha, htends.standing_done hgone]
      exact .denied
    | false =>
      have htends := h.tends (.entering ⟨c.id, c.address, name, rest, c.ended⟩) [] [] hsome hid (hserved _) rfl (by simp)
      refine ⟨htends.sound h, htends.advances rfl rfl ?_⟩
      rw [standing_of_reading ha, standing_of_entering htends.self]
      exact .forwarded rfl hr hbusy

theorem Sound.attend_entering (h : n.Sound) {call : Call}
    (ha : n.attendant id = some (.entering call)) :
    (n.attended id ((Attendant.entering call).serve n.board.isBusy n.client.reception)).Sound ∧
      n.Advances (.attend id)
        (n.attended id ((Attendant.entering call).serve n.board.isBusy n.client.reception)) := by
  have hsome : n.attendant id ≠ none := by rw [ha]; simp
  have hid : call.caller = id := h.attends id _ ha
  have hgone := h.gone id (by rw [ha]; simp)
  have hserved (b : Attendant) (hk : n.client.standing id ≠ .gone) : b = .done := absurd hgone hk
  rw [Attendant.serve_entering]
  split
  · have htends := h.tends .done [.deny call.caller] (Effect.refusal id) hsome trivial (hserved _) (by rw [hid]; rfl)
      Effect.caller?_of_mem_refusal
    refine ⟨htends.sound h, htends.advances rfl rfl ?_⟩
    rw [standing_of_entering ha, htends.standing_done hgone]
    exact .shutOut
  · split
    · exact h.enters ha rfl rfl rfl
    · have htends := h.tends (.entering call) [] [] hsome
        (h.attends id _ ha) (hserved _) rfl (by simp)
      refine ⟨htends.sound h, htends.advances rfl rfl ?_⟩
      rw [standing_of_entering ha, standing_of_entering htends.self]
      exact .pauses

theorem Sound.idle (h : n.Sound) (hputs : n.puts? s = none) (hanswer : n.answer? s = none) :
    n.Sound ∧ n.Advances s n :=
  ⟨h, fun _ => ⟨[], .still hputs hanswer, (List.append_nil _).symm⟩⟩

theorem Sound.attend (h : n.Sound) (id : CallerId) :
    (n.attend id).Sound ∧ n.Advances (.attend id) (n.attend id) := by
  unfold Lobby.attend
  split
  · rename_i a ha
    split
    · rcases h.attendant_cases id with hn | ⟨c, hn⟩ | ⟨call, hn⟩ | hn
      · exact absurd (ha.symm.trans hn) (by simp)
      · obtain rfl := Option.some.inj (ha.symm.trans hn)
        exact h.attend_reading ha
      · obtain rfl := Option.some.inj (ha.symm.trans hn)
        exact h.attend_entering ha
      · obtain rfl := Option.some.inj (ha.symm.trans hn)
        have htends := h.tends .done [] [] (by rw [ha]; simp) trivial
          (fun _ => rfl) rfl (by simp)
        refine ⟨htends.sound h, htends.advances rfl rfl ?_⟩
        rw [standing_of_done ha, standing_of_done htends.self, htends.client]
        exact .still rfl rfl
    · exact h.idle rfl rfl
  · exact h.idle rfl rfl

theorem Sound.lose (h : n.Sound) (id : CallerId) :
    (n.lose id).Sound ∧ n.Advances (.lose id) (n.lose id) := by
  unfold Lobby.lose
  split
  · rename_i c ha
    have hgone := h.gone id (by rw [ha]; simp)
    have htends := h.tends .done [.drop id] [.close (.caller id)]
      (by rw [ha]; simp) trivial (fun _ => rfl) rfl (by simp [Effect.caller?])
    refine ⟨htends.sound h, htends.advances rfl rfl ?_⟩
    rw [standing_of_reading ha, htends.standing_done hgone]
    exact .dropped
  · exact h.idle rfl rfl

theorem Sound.connect (h : n.Sound) (address : IpAddress) :
    (n.connect address).Sound ∧ n.Advances (.connect address) (n.connect address) := by
  unfold Lobby.connect
  split
  · have hnone := h.fresh n.next (Nat.le_refl _)
    have hgone := h.gone n.next (by rw [hnone]; simp)
    have htends : Tends n ({ n with next := n.next + 1 }.setAttendant n.next
        (.reading ⟨n.next, address, [], false⟩)) n.next (.reading ⟨n.next, address, [], false⟩) [] := by
      refine ⟨rfl, rfl, Nat.le_succ _, Nat.lt_succ_self _, fun _ => rfl, fun _ _ => rfl,
        ⟨rfl, (h.unheard _ hnone).symm⟩, fun hk => absurd hgone hk, fun k => ?_⟩
      rw [ite_self, List.append_nil]
      rfl
    refine ⟨htends.sound h, htends.advances rfl rfl ?_⟩
    rw [standing_of_none hnone, standing_of_reading htends.self]
    exact .connects
  · exact h.idle rfl rfl

theorem Sound.hear (h : n.Sound) (ha : n.attendant id = some .done) (bytes : Bytes) :
    (n.hear id bytes).Sound := by
  have hother : ∀ k, k ≠ id → (n.hear id bytes).said k = n.said k := fun k hk => if_neg hk
  refine ⟨h.attentive, h.served, ?_, h.fresh, ?_, h.board⟩
  · intro k a hk
    have hattends := h.attends k a hk
    cases a with
    | reading c =>
      have hne : k ≠ id := by
        rintro rfl
        exact absurd (ha.symm.trans hk) (by simp)
      exact ⟨hattends.1, hattends.2.trans (hother k hne).symm⟩
    | _ => exact hattends
  · intro k hk
    have hne : k ≠ id := by
      rintro rfl
      exact absurd (ha.symm.trans hk) (by simp)
    exact (hother k hne).trans (h.unheard k hk)

/-- What comes while an attendant has the caller stays with the attendant. -/
theorem Sound.tends_receive (h : n.Sound) {a : Attendant} (ha : n.attendant id = some a)
    (hd : a ≠ .done) (bytes : Bytes) (ended : Bool) :
    Tends n ((n.hear id bytes).setAttendant id (a.receive bytes ended)) id (a.receive bytes ended) [] := by
  have hgone := h.gone id (by rw [ha]; exact fun he => hd (Option.some.inj he))
  have hattends := h.attends id a ha
  refine ⟨rfl, rfl, Nat.le_refl _, h.known id (by rw [ha]; simp), fun _ => rfl, fun k hk => if_neg hk, ?_,
    fun hk => absurd hgone hk, fun k => by rw [ite_self, List.append_nil]; rfl⟩
  cases a with
  | reading c =>
    refine ⟨hattends.1, ?_⟩
    have hsaid : (n.hear id bytes).said id = n.said id ++ bytes := if_pos rfl
    exact (congrArg (· ++ bytes) hattends.2).trans hsaid.symm
  | _ => exact hattends

theorem Sound.arrive (h : n.Sound) (id : CallerId) (bytes : Bytes) (ended : Bool) :
    (n.arrive id bytes ended).Sound ∧
      n.Advances (.arrive id bytes ended) (n.arrive id bytes ended) := by
  unfold Lobby.arrive
  split
  · rename_i ha
    split
    · have hr := Client.receives_onDirect (x := .act (.event (.sent (.caller id) bytes)))
        h.attentive.toHosts (.caller id) bytes ended rfl rfl
      exact ⟨(h.hear ha bytes).turn hr, h.advances_turn (m := (n.hear id bytes).turn _) rfl hr rfl
        (fun k => told_turn _ _ k) rfl rfl⟩
    · exact h.idle rfl rfl
  · rename_i a hd ha
    have htends := h.tends_receive ha (fun he => hd (he ▸ rfl)) bytes ended
    refine ⟨htends.sound h, htends.advances rfl rfl ?_⟩
    rcases h.attendant_cases id with hn | ⟨c, hn⟩ | ⟨call, hn⟩ | hn
    · exact absurd (ha.symm.trans hn) (by simp)
    · obtain rfl := Option.some.inj (ha.symm.trans hn)
      rw [standing_of_reading ha, standing_of_reading htends.self]
      exact .hears
    · obtain rfl := Option.some.inj (ha.symm.trans hn)
      rw [standing_of_entering ha, standing_of_entering htends.self]
      exact .pauses
    · exact absurd (Option.some.inj (ha.symm.trans hn)) (fun he => hd (he ▸ rfl))
  · exact h.idle rfl rfl

theorem Sound.drain (h : n.Sound) : n.drain.Sound ∧ n.Advances .drain n.drain := by
  unfold Lobby.drain
  split
  · rename_i name ht
    split
    · exact h.idle rfl rfl
    · generalize hm : n.carryOut ((Turn.of n.client).receive n.client.reception.denyQueued) = m
      have hdeny := h.attentive.bare.denyQueued_eq
      have hclient : m.client =
          { n.client with reception := { n.client.reception with queue := [] } } := by
        rw [← hm, hdeny]
        exact Turn.client_receive _ _
      have hattendant : m.attendant = n.attendant := by rw [← hm]; rfl
      have hsaid : m.said = n.said := by rw [← hm]; rfl
      have hdrained : ∀ k ∈ n.client.reception.queue.map Call.caller, m.client.standing k = .gone := by
        intro k hk
        rw [hclient, Client.standing_drained h.attentive, if_pos hk]
      have hkept : ∀ k, k ∉ n.client.reception.queue.map Call.caller →
          m.client.standing k = n.client.standing k := by
        intro k hk
        rw [hclient, Client.standing_drained h.attentive, if_neg hk]
      refine ⟨⟨hclient ▸ h.attentive.drained, ?_, ?_, ?_, ?_, ?_⟩, ?_⟩
      · intro k hk
        rw [hattendant]
        exact h.served k (hkept k (fun hmem => hk (hdrained k hmem)) ▸ hk)
      · exact fun k a ha => (h.attends k a (hattendant ▸ ha)).of_said (congrFun hsaid k)
      · intro k hk
        rw [hattendant]
        exact h.fresh k (by rw [← hm] at hk; exact hk)
      · intro k hk
        rw [hsaid]
        exact h.unheard k (hattendant ▸ hk)
      · rw [hclient, ← hm]
        exact h.board
      · intro k
        refine ⟨if k ∈ n.client.reception.queue.map Call.caller then Effect.refusal k else [], ?_, ?_⟩
        · split
          · rename_i hmem
            obtain ⟨name, hname⟩ := Option.ne_none_iff_exists'.mp
              (mt Client.lookup_requests_eq_none.mp (not_not_intro hmem))
            have hqueued := Client.standing_of_lookup hname
            have hdone := h.served k (by rw [hqueued]; simp)
            rw [standing_of_done hdone, standing_of_done (hattendant ▸ hdone), hqueued, hdrained k hmem]
            exact .drained rfl
          · rename_i hmem
            have hsame : m.standing k = n.standing k := by
              rw [standing, standing, hattendant, hkept k hmem]
            rw [hsame]
            exact .still rfl rfl
        · rw [← hm, told_carryOut, hdeny, told_receive, List.flatMap_map]
          congr 1
          have hall : (fun call : Call => Reception.Effect.told (.deny call.caller)) =
              fun call => Effect.refusal call.caller := rfl
          rw [hall, ← List.flatMap_map]
          exact Effect.toCaller_flatMap _ (fun _ => Effect.caller?_of_mem_refusal) h.attentive.nodup
  · exact h.idle rfl rfl

theorem Sound.rest (h : n.Sound) : n.rest.Sound ∧ n.Advances .rest n.rest := by
  refine ⟨⟨h.attentive, h.served, ?_, h.fresh, h.unheard, fun hbusy => hbusy⟩, ?_⟩
  · exact fun id a ha => (h.attends id a ha).of_said rfl
  · exact fun id => ⟨[], .still rfl rfl, (List.append_nil _).symm⟩

theorem Sound.meet (h : n.Sound) (x : Incident) :
    (n.meet x).Sound ∧ n.Advances (.meet x) (n.meet x) := by
  unfold Lobby.meet
  split
  · rename_i hx
    obtain ⟨hready, hinbound⟩ := Bool.and_eq_true_iff.mp hx
    have hr := Client.receives h.attentive.toHosts (x := x) fun id address he => by
      rw [he] at hinbound
      exact absurd hinbound (by simp [Incident.isInbound])
    exact ⟨h.turn hr, h.advances_turn (m := n.turn _) rfl hr rfl (fun k => told_turn _ _ k)
      (if_pos hready) (if_pos hready)⟩
  · rename_i hx
    have hquiet : n.puts? (.meet x) = none ∧ n.answer? (.meet x) = none := by
      cases hready : n.ready with
      | false => exact ⟨if_neg (by simp [hready]), if_neg (by simp [hready])⟩
      | true =>
        have hinbound : x.isInbound = true := by simpa [hready] using hx
        have hnone : n.client.puts? x = none ∧ n.client.answer? x = none := by
          unfold Incident.isInbound at hinbound
          split at hinbound <;> first | exact ⟨rfl, rfl⟩ | exact absurd hinbound (by simp)
        exact ⟨(if_pos hready).trans hnone.1, (if_pos hready).trans hnone.2⟩
    exact h.idle hquiet.1 hquiet.2

/-- **Every step moves every caller along one of the ways**, and nobody is at two places at once. -/
theorem Sound.step (h : n.Sound) (s : Step) : (n.step s).Sound ∧ n.Advances s (n.step s) := by
  cases s with
  | meet x => exact h.meet x
  | rest => exact h.rest
  | drain => exact h.drain
  | connect address => exact h.connect address
  | attend id => exact h.attend id
  | arrive id bytes ended => exact h.arrive id bytes ended
  | lose id => exact h.lose id

/-! ## The start -/

/-- Nobody is there to begin with, and the client is not busy. -/
theorem client_start (settings : Settings) (entropy : Entropy) :
    (Client.start settings entropy).client.direct = none ∧
      (Client.start settings entropy).client.reception = .start 8 false ∧
      (Client.start settings entropy).client.task.isDeciding = false ∧
      (Client.start settings entropy).client.status.isBusy = false ∧
      (Client.start settings entropy).toCallers = [] := by
  unfold Client.start
  simp only []
  split
  · exact ⟨rfl, rfl, rfl, rfl, rfl⟩
  · split
    · exact ⟨rfl, rfl, rfl, rfl, rfl⟩
    · exact ⟨rfl, rfl, rfl, rfl, rfl⟩

theorem standing_start (settings : Settings) (entropy : Entropy) (id : CallerId) :
    (start settings entropy).standing id = .absent := rfl

theorem told_start (settings : Settings) (entropy : Entropy) (id : CallerId) :
    (start settings entropy).told id = [] := by
  have htold := Turn.told_eq (Client.start settings entropy) id
  rw [(client_start settings entropy).2.2.2.2] at htold
  exact htold

theorem sound_start (settings : Settings) (entropy : Entropy) : (start settings entropy).Sound := by
  obtain ⟨hdirect, hreception, htask, hstatus, -⟩ := client_start settings entropy
  have hguest : (start settings entropy).client.guest = none := by
    rw [Client.guest]
    exact congrArg (Option.bind · _) hdirect
  have hqueue : (start settings entropy).client.reception.queue = [] :=
    congrArg Reception.queue hreception
  have hbare : (start settings entropy).client.reception.Bare :=
    ⟨congrArg Reception.callers hreception, congrArg Reception.waiting hreception⟩
  refine ⟨⟨⟨hbare, ?_, ?_⟩, ?_, ?_⟩, ?_, ?_, fun _ _ => rfl, fun _ _ => rfl, ?_⟩
  · rw [hguest]
    exact fun h => absurd h (by simp)
  · exact fun h => absurd (h.symm.trans htask) (by simp)
  · rw [hqueue]
    exact List.nodup_nil
  · rw [hqueue]
    exact fun _ _ => List.not_mem_nil
  · intro id hid
    refine absurd (Client.standing_of_gone ?_ (by rw [hguest]; simp)) hid
    rw [Client.lookup_requests_eq_none, hqueue]
    exact List.not_mem_nil
  · exact fun _ _ ha => absurd ha (by simp [start])
  · exact fun h => absurd (h.symm.trans hstatus) (by simp)

end Lobby

end PeerChat
