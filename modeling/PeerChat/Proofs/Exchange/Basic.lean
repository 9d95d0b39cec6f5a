import PeerChat.Exchange
import PeerChat.Proofs.Client.Attendant
import PeerChat.Proofs.Client.Calling

/-!
# An exchange in order

Whoever waits for a client that is calling itself began to call before that client did.  So the
clients can be ranked such that every client that blocks another caller has the higher rank
(`Ordered`).  Nobody comes to wait for a client that is already calling, because its status tells
that it is busy (`Sound`).
-/

namespace PeerChat

namespace Exchange

variable {ι : Type} {n n' : Exchange ι} {i j : ι} {id : CallerId} {c : Contact ι}

theorem mem_called : c ∈ n.called i ↔ ∃ id, n.outgoing i = .connected id ∧ n.contact id = some c := by
  unfold called
  cases n.outgoing i with
  | none => simp
  | reaching endpoint => simp
  | connected id => simp

/-! ## Order -/

/-- One client waits for another that is calling. -/
def Blocks (n : Exchange ι) (i j : ι) : Prop :=
  n.Awaits i j ∧ (n.client j).task.isCalling = true

/-- The moments at which clients began to call can be told apart: each is before `now`, and who is
blocked began before the one it is blocked by. -/
def Ordered (n : Exchange ι) : Prop :=
  ∃ (began : ι → Nat) (now : Nat), (∀ i, began i < now) ∧ ∀ i j, n.Blocks i j → began i < began j

theorem Ordered.mono (h : n.Ordered) (hb : ∀ i j, n'.Blocks i j → n.Blocks i j) : n'.Ordered := by
  obtain ⟨began, now, hlt, hord⟩ := h
  exact ⟨began, now, hlt, fun i j hij => hord i j (hb i j hij)⟩

/-- A client that begins to call blocks those who wait for it, and nobody blocks it yet. -/
theorem Ordered.begin [DecidableEq ι] (h : n.Ordered) (i : ι)
    (hb : ∀ a b, n'.Blocks a b → a ≠ i ∧ (b = i ∨ n.Blocks a b)) : n'.Ordered := by
  obtain ⟨began, now, hlt, hord⟩ := h
  refine ⟨fun k => if k = i then now else began k, now + 1, fun k => ?_, fun a b hab => ?_⟩
  · have hk := hlt k
    show (if k = i then now else began k) < now + 1
    split <;> omega
  · obtain ⟨ha, hblocks⟩ := hb a b hab
    simp only [if_neg ha]
    by_cases hbi : b = i
    · rw [if_pos hbi]
      exact hlt a
    · rw [if_neg hbi]
      exact hord a b (hblocks.resolve_left hbi)

/-! ## Soundness -/

structure Regular (n : Exchange ι) (id : CallerId) (c : Contact ι) : Prop where
  id_eq : c.id = id
  lt_next : id < n.next
  serves : c.attendant.Serves id
  /-- A client that is called by address only takes no calls. -/
  named : (n.client c.callee).settings.anonymous = false

structure Sound (n : Exchange ι) : Prop where
  poised : ∀ i, (n.client i).Poised
  /-- Whoever calls from the main loop is seen to be busy. -/
  board : ∀ i, (n.client i).task.isCalling = true → (n.client i).settings.anonymous = false →
    (n.board i).isBusy = true
  contact : ∀ {id c}, n.contact id = some c → n.Regular id c
  queued : ∀ {j id}, id ∈ (n.client j).reception.queue.map Call.caller → id < n.next
  ordered : n.Ordered

/-! ## Sending -/

/-- Only bytes have been sent, and connections given up. -/
structure Sends (n n' : Exchange ι) : Prop where
  client : n'.client = n.client
  board : n'.board = n.board
  next : n'.next = n.next
  outgoing : ∀ {i id}, n'.outgoing i = .connected id → n.outgoing i = .connected id
  contact : ∀ {id c'}, n'.contact id = some c' →
    ∃ c, n.contact id = some c ∧ c'.id = c.id ∧ c'.callee = c.callee ∧ c'.attendant = c.attendant

namespace Sends

theorem refl (n : Exchange ι) : Sends n n :=
  ⟨rfl, rfl, rfl, id, fun h => ⟨_, h, rfl, rfl, rfl⟩⟩

theorem trans {m : Exchange ι} (h : Sends n m) (g : Sends m n') : Sends n n' := by
  refine ⟨g.client.trans h.client, g.board.trans h.board, g.next.trans h.next,
    fun ho => h.outgoing (g.outgoing ho), fun hc => ?_⟩
  obtain ⟨c, hc, hid, hcallee, hatt⟩ := g.contact hc
  obtain ⟨d, hd, hid', hcallee', hatt'⟩ := h.contact hc
  exact ⟨d, hd, hid.trans hid', hcallee.trans hcallee', hatt.trans hatt'⟩

theorem onContact (n : Exchange ι) (id : CallerId) {f : Contact ι → Contact ι}
    (hf : ∀ c, (f c).id = c.id ∧ (f c).callee = c.callee ∧ (f c).attendant = c.attendant) :
    Sends n (n.onContact id f) := by
  refine ⟨rfl, rfl, rfl, fun h => h, fun {k c'} hc => ?_⟩
  unfold Exchange.onContact at hc
  simp only [] at hc
  split at hc
  · obtain ⟨c, hk, rfl⟩ := Option.map_eq_some_iff.mp hc
    exact ⟨c, hk, hf c⟩
  · exact ⟨c', hc, rfl, rfl, rfl⟩

theorem awaits (h : Sends n n') (ha : n'.Awaits i j) : n.Awaits i j := by
  obtain ⟨hask, c', hc', hcallee, hf⟩ := ha
  obtain ⟨id, ho, hc'⟩ := mem_called.mp hc'
  obtain ⟨c, hc, hid, hcallee', hatt⟩ := h.contact hc'
  rw [h.client] at hask
  refine ⟨hask, c, mem_called.mpr ⟨id, h.outgoing ho, hc⟩, hcallee'.symm.trans hcallee, ?_⟩
  unfold Forwarded at hf ⊢
  rwa [hatt, hid, hcallee', h.client] at hf

theorem blocks (h : Sends n n') (hb : n'.Blocks i j) : n.Blocks i j := by
  refine ⟨h.awaits hb.1, ?_⟩
  rw [← h.client]
  exact hb.2

theorem sound (h : Sends n n') (hs : n.Sound) : n'.Sound := by
  refine ⟨?_, ?_, ?_, ?_, hs.ordered.mono fun i j => h.blocks⟩
  · rw [h.client]
    exact hs.poised
  · rw [h.client, h.board]
    exact hs.board
  · intro id c' hc'
    obtain ⟨c, hc, hid, hcallee, hatt⟩ := h.contact hc'
    have hreg := hs.contact hc
    refine ⟨hid.trans hreg.id_eq, ?_, ?_, ?_⟩
    · rw [h.next]
      exact hreg.lt_next
    · rw [hatt]
      exact hreg.serves
    · rw [h.client, hcallee]
      exact hreg.named
  · rw [h.client, h.next]
    exact hs.queued

end Sends

/-! ## Attendants -/

/-- An attendant goes on; a request gets through the test only where nobody is calling. -/
theorem Sound.onContact (h : n.Sound) (id : CallerId) {f : Contact ι → Contact ι}
    (hid : ∀ c, (f c).id = c.id) (hcallee : ∀ c, (f c).callee = c.callee)
    (hserves : ∀ c, n.contact id = some c → (f c).attendant.Serves id)
    (hentering : ∀ c, n.contact id = some c → (f c).attendant.isEntering = true →
      c.attendant.isEntering = true ∨ (n.client c.callee).task.isCalling = false) :
    (n.onContact id f).Sound := by
  have hcontact : ∀ {k c'}, (n.onContact id f).contact k = some c' →
      n.contact k = some c' ∨ k = id ∧ ∃ c, n.contact id = some c ∧ c' = f c := by
    intro k c' hc'
    unfold Exchange.onContact at hc'
    simp only [] at hc'
    split at hc'
    · rename_i hk
      obtain ⟨c, hc, rfl⟩ := Option.map_eq_some_iff.mp hc'
      rw [hk] at hc
      exact .inr ⟨hk, c, hc, rfl⟩
    · exact .inl hc'
  refine ⟨h.poised, h.board, fun {k c'} hc' => ?_, h.queued, h.ordered.mono fun a b hb => ?_⟩
  · rcases hcontact hc' with hc | ⟨rfl, c, hc, rfl⟩
    · have hreg := h.contact hc
      exact ⟨hreg.id_eq, hreg.lt_next, hreg.serves, hreg.named⟩
    · have hreg := h.contact hc
      refine ⟨(hid c).trans hreg.id_eq, hreg.lt_next, hserves c hc, ?_⟩
      rw [hcallee]
      exact hreg.named
  · obtain ⟨⟨hask, c', hc', hb', hf⟩, hcalling⟩ := hb
    obtain ⟨k, ho, hk⟩ := mem_called.mp hc'
    rcases hcontact hk with hc | ⟨rfl, c, hc, rfl⟩
    · exact ⟨⟨hask, c', mem_called.mpr ⟨k, ho, hc⟩, hb', hf⟩, hcalling⟩
    · rw [hcallee] at hb'
      refine ⟨⟨hask, c, mem_called.mpr ⟨k, ho, hc⟩, hb', ?_⟩, hcalling⟩
      unfold Forwarded at hf ⊢
      rw [hid, hcallee] at hf
      rcases hf with hf | hf
      · rcases hentering c hc hf with hold | hcalm
        · exact .inl hold
        · rw [hb'] at hcalm
          exact absurd (hcalling.symm.trans hcalm) (by simp)
      · exact .inr hf

/-! ## Turns -/

variable [DecidableEq ι]

theorem sends_setOutgoing (n : Exchange ι) (i : ι) (outgoing : Outgoing)
    (h : ∀ id, outgoing ≠ .connected id) : Sends n (n.setOutgoing i outgoing) := by
  refine ⟨rfl, rfl, rfl, fun {j id} ho => ?_, fun hc => ⟨_, hc, rfl, rfl, rfl⟩⟩
  unfold setOutgoing at ho
  simp only [] at ho
  split at ho
  · exact absurd ho (h id)
  · exact ho

theorem sends_setReady (n : Exchange ι) (i : ι) (ready : Bool) : Sends n (n.setReady i ready) :=
  ⟨rfl, rfl, rfl, fun h => h, fun hc => ⟨_, hc, rfl, rfl, rfl⟩⟩

theorem sends_route (n : Exchange ι) (i : ι) (e : Effect) : Sends n (n.route i e) := by
  unfold route
  split
  · exact sends_setOutgoing n i _ (by simp)
  · split
    · exact Sends.onContact n _ fun c => ⟨rfl, rfl, rfl⟩
    · exact Sends.refl n
  · exact Sends.onContact n _ fun c => ⟨rfl, rfl, rfl⟩
  · exact sends_setOutgoing n i _ (by simp)
  · exact Sends.refl n

/-- All that a turn does beside changing the client is to send. -/
theorem sends_carryOut (n : Exchange ι) (i : ι) (t : Turn) :
    Sends (n.setClient i t.client) (n.carryOut i t) := by
  have hall : ∀ (effects : List Effect) (m : Exchange ι),
      Sends m (effects.foldl (fun n e => n.route i e) m) := by
    intro effects
    induction effects with
    | nil => exact Sends.refl
    | cons e effects ih => exact fun m => (sends_route m i e).trans (ih _)
  exact hall t.effects _

/-! ## Fields -/

@[simp] theorem client_setClient (n : Exchange ι) (i : ι) (d : Client) :
    (n.setClient i d).client i = d := if_pos rfl

theorem client_setClient_of_ne (n : Exchange ι) (d : Client) (h : j ≠ i) :
    (n.setClient i d).client j = n.client j := if_neg h

@[simp] theorem board_setBoard (n : Exchange ι) (i : ι) (status : Status) :
    (n.setBoard i status).board i = status := if_pos rfl

theorem board_setBoard_of_ne (n : Exchange ι) (status : Status) (h : j ≠ i) :
    (n.setBoard i status).board j = n.board j := if_neg h

/-! ## What keeps an exchange sound -/

theorem Sound.setBoard (h : n.Sound) (i : ι) (status : Status)
    (hb : (n.client i).task.isCalling = true → (n.client i).settings.anonymous = false →
      status.isBusy = true) : (n.setBoard i status).Sound := by
  refine ⟨h.poised, fun j => ?_, fun hc => ?_, h.queued, h.ordered.mono fun _ _ hb => hb⟩
  · by_cases hj : j = i
    · subst hj
      rw [board_setBoard]
      exact hb
    · rw [board_setBoard_of_ne n status hj]
      exact h.board j
  · have hreg := h.contact hc
    exact ⟨hreg.id_eq, hreg.lt_next, hreg.serves, hreg.named⟩

/-- The callers in the queue of `d` were in the client's own, or hold a request that passed the test. -/
def Admits (n : Exchange ι) (i : ι) (d : Client) : Prop :=
  ∀ id ∈ d.reception.queue.map Call.caller, id ∈ (n.client i).reception.queue.map Call.caller ∨
    ∃ c, n.contact id = some c ∧ c.attendant.isEntering = true

theorem forwarded_setClient (h : n.Sound) {d : Client} (hq : n.Admits i d) {k : CallerId}
    (hk : n.contact k = some c) (hf : (n.setClient i d).Forwarded c) : n.Forwarded c := by
  rcases hf with hf | hf
  · exact .inl hf
  · by_cases hi : c.callee = i
    · rw [hi, client_setClient] at hf
      rcases hq c.id hf with hold | ⟨c', hc', hentering⟩
      · rw [← hi] at hold
        exact .inr hold
      · rw [(h.contact hk).id_eq, hk] at hc'
        rw [← Option.some.inj hc'] at hentering
        exact .inl hentering
    · rw [client_setClient_of_ne n d hi] at hf
      exact .inr hf

/-- A client comes to wait only by asking, on a connection where the request has got through. -/
theorem awaits_setClient (h : n.Sound) {d : Client} (hq : n.Admits i d) {a b : ι}
    (hask : d.isAsking = true → (n.client i).isAsking = true ∨ ∀ c ∈ n.called i, ¬ n.Forwarded c)
    (ha : (n.setClient i d).Awaits a b) : n.Awaits a b := by
  obtain ⟨hasking, c, hc, hcallee, hf⟩ := ha
  obtain ⟨k, -, hk⟩ := mem_called.mp hc
  have hforwarded := forwarded_setClient h hq hk hf
  refine ⟨?_, c, hc, hcallee, hforwarded⟩
  by_cases hi : a = i
  · subst hi
    rw [client_setClient] at hasking
    rcases hask hasking with hold | hnone
    · exact hold
    · exact absurd hforwarded (hnone c hc)
  · rwa [client_setClient_of_ne n d hi] at hasking

theorem Sound.setClient (h : n.Sound) {d : Client} (hp : d.Poised)
    (hs : d.settings = (n.client i).settings) (hq : n.Admits i d)
    (hb : d.task.isCalling = true → d.settings.anonymous = false → (n.board i).isBusy = true)
    (ho : (n.setClient i d).Ordered) : (n.setClient i d).Sound := by
  refine ⟨fun j => ?_, fun j => ?_, fun hc => ?_, fun {j id} hid => ?_, ho⟩
  · by_cases hj : j = i
    · rw [hj, client_setClient]
      exact hp
    · rw [client_setClient_of_ne n d hj]
      exact h.poised j
  · by_cases hj : j = i
    · rw [hj, client_setClient]
      exact hb
    · rw [client_setClient_of_ne n d hj]
      exact h.board j
  · rename_i id c
    have hreg := h.contact hc
    refine ⟨hreg.id_eq, hreg.lt_next, hreg.serves, ?_⟩
    by_cases hj : c.callee = i
    · have hnamed := hreg.named
      rw [hj] at hnamed ⊢
      rw [client_setClient, hs, hnamed]
    · rw [client_setClient_of_ne n d hj]
      exact hreg.named
  · by_cases hj : j = i
    · rw [hj, client_setClient] at hid
      rcases hq id hid with hold | ⟨c, hc, -⟩
      · exact h.queued hold
      · exact (h.contact hc).lt_next
    · rw [client_setClient_of_ne n d hj] at hid
      exact h.queued hid

end Exchange

end PeerChat
