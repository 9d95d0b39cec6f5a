import PeerChat.Proofs.Client.Receiving

/-!
# Where a caller stands with the client

Once a request has been read, the caller is in the queue, or the user is asked about it, or there is a
session with it, or the client is done with it.  An incident moves every caller along one of a few ways,
and each way tells what the caller sees (`Client.passes`).
-/

namespace PeerChat

inductive Standing where
  /-- There is no such caller yet. -/
  | absent
  | reading (caller : Caller)
  /-- The request has passed the busy test. -/
  | entering (name : String)
  | queued (name : String)
  | asked (name : String)
  | session
  | gone
  deriving DecidableEq, Repr

namespace Effect

/-- A caller is accepted. -/
def acceptance (id : CallerId) : Effect := .send (.caller id) (Negotiation.answer true)

theorem acceptance_not_mem_refusal (id id' : CallerId) : acceptance id ∉ refusal id' := by
  have hne : Negotiation.answer true ≠ Negotiation.answer false := by decide +kernel
  simp [acceptance, refusal, hne]

end Effect

/-! ## What one caller sees -/

/-- What effects do to one caller. -/
def Effect.toCaller (id : CallerId) (effects : List Effect) : List Effect :=
  effects.filter fun e => e.caller? = some id

namespace Effect

variable {id : CallerId} {effects : List Effect}

theorem toCaller_append (a b : List Effect) :
    toCaller id (a ++ b) = toCaller id a ++ toCaller id b := List.filter_append ..

theorem toCaller_eq_self (h : ∀ e ∈ effects, e.caller? = some id) : toCaller id effects = effects :=
  List.filter_eq_self.mpr fun e he => decide_eq_true (h e he)

theorem toCaller_eq_nil (h : ∀ e ∈ effects, e.caller? ≠ some id) : toCaller id effects = [] :=
  List.filter_eq_nil_iff.mpr fun e he => by simpa using h e he

/-- Where everyone is told something once, each sees only that. -/
theorem toCaller_flatMap (id : CallerId) {told : CallerId → List Effect}
    (ht : ∀ k, ∀ e ∈ told k, e.caller? = some k) {ids : List CallerId} (hn : ids.Nodup) :
    toCaller id (ids.flatMap told) = if id ∈ ids then told id else [] := by
  induction ids with
  | nil => rfl
  | cons k ids ih =>
    obtain ⟨hk, hn⟩ := List.nodup_cons.mp hn
    rw [List.flatMap_cons, toCaller_append, ih hn]
    by_cases he : k = id
    · subst he
      rw [toCaller_eq_self (ht k), if_neg hk, if_pos List.mem_cons_self, List.append_nil]
    · have hother : toCaller id (told k) = [] :=
        toCaller_eq_nil fun e hmem => by
          rw [ht k e hmem]
          exact fun h => he (Option.some.inj h)
      have hmem : id ∈ k :: ids ↔ id ∈ ids :=
        List.mem_cons.trans (or_iff_right fun h => he h.symm)
      rw [hother, List.nil_append]
      simp only [hmem]

theorem caller?_of_mem_refusal {k : CallerId} : ∀ e ∈ refusal k, e.caller? = some k := by
  simp [refusal, caller?]

theorem caller?_of_mem_farewell {guest : Option CallerId} :
    ∀ e ∈ farewell guest, e.caller? = guest := by
  cases guest <;> simp [farewell, caller?]

theorem IsTalk.caller? {guest : Option CallerId} {e : Effect} (h : e.IsTalk guest) :
    e.caller? = guest := by
  obtain ⟨id, bytes, hg, rfl, -⟩ := h
  exact hg.symm

end Effect

/-- What a turn does to one caller. -/
def Turn.told (t : Turn) (id : CallerId) : List Effect := Effect.toCaller id t.effects

theorem Turn.told_eq (t : Turn) (id : CallerId) : t.told id = Effect.toCaller id t.toCallers := by
  unfold Turn.told Effect.toCaller Turn.toCallers
  rw [List.filter_filter]
  refine List.filter_congr fun e _ => ?_
  cases e.caller? <;> simp

/-! ## Ways -/

/-- How one caller goes on, by the request that is put to the user and the answer that is taken. -/
inductive Passes (puts : Option Call) (answer : Option String) (id : CallerId) :
    Standing → Standing → List Effect → Prop
  | rests {name : String} (idle : puts = none) : Passes puts answer id (.queued name) (.queued name) []
  | put {call : Call} (takes : puts = some call) (caller : call.caller = id) :
      Passes puts answer id (.queued call.name) (.asked call.name) []
  | turnedAway {call : Call} {name : String} (takes : puts = some call) (other : call.caller ≠ id) :
      Passes puts answer id (.queued name) .gone (Effect.refusal id)
  | dropped {name : String} (idle : puts = none) :
      Passes puts answer id (.queued name) .gone [.close (.caller id)]
  | waits {name : String} (unclear : ∀ line, answer = some line → Turn.readAnswer line = none) :
      Passes puts answer id (.asked name) (.asked name) []
  | accepted {name line : String} (takes : answer = some line)
      (yes : Turn.readAnswer line = some true) :
      Passes puts answer id (.asked name) .session [Effect.acceptance id]
  | refused {name : String} {told : List Effect}
      (denied : told = Effect.refusal id ∨ told = [.close (.caller id)]) :
      Passes puts answer id (.asked name) .gone told
  | talks {talk : List Effect} (talks : ∀ e ∈ talk, e.IsTalk (some id)) :
      Passes puts answer id .session .session talk
  | parts {talk : List Effect} (talks : ∀ e ∈ talk, e.IsTalk (some id)) :
      Passes puts answer id .session .gone (talk ++ [.close (.caller id)])
  | gone : Passes puts answer id .gone .gone []

theorem Passes.of_gone {puts : Option Call} {answer : Option String} {id : CallerId} {q : Standing}
    {told : List Effect} (h : Passes puts answer id .gone q told) : q = .gone ∧ told = [] := by
  cases h
  exact ⟨rfl, rfl⟩

namespace Client

/-- Where a caller stands whose request has been dealt with by its attendant. -/
def standing (c : Client) (id : CallerId) : Standing :=
  match c.reception.requests.lookup id with
  | some name => .queued name
  | none =>
    if c.guest = some id then
      match c.task with
      | .deciding name => .asked name
      | _ => .session
    else .gone

/-- Nobody is in the queue twice, or on the direct connection as well. -/
structure Attentive (c : Client) : Prop extends c.Hosts where
  nodup : (c.reception.queue.map Call.caller).Nodup
  apart : ∀ id, c.guest = some id → id ∉ c.reception.queue.map Call.caller

variable {c : Client} {x : Incident} {t : Turn} {id : CallerId}

theorem lookup_requests_eq_none {r : Reception} :
    r.requests.lookup id = none ↔ id ∉ r.queue.map Call.caller := by
  rw [List.lookup_eq_none_iff]
  constructor
  · intro h hmem
    obtain ⟨call, hcall, rfl⟩ := List.mem_map.mp hmem
    exact absurd (h _ (List.mem_map_of_mem hcall)) (by simp)
  · intro h p hp
    obtain ⟨call, hcall, rfl⟩ := List.mem_map.mp hp
    rw [bne_iff_ne]
    rintro rfl
    exact h (List.mem_map_of_mem hcall)

theorem mem_queue_of_lookup {r : Reception} {name : String} (h : r.requests.lookup id = some name) :
    id ∈ r.queue.map Call.caller := by
  by_contra hn
  exact absurd (h.symm.trans (lookup_requests_eq_none.mpr hn)) (by simp)

theorem standing_of_guest (hl : c.reception.requests.lookup id = none) (hg : c.guest = some id)
    (ht : c.task.isDeciding = false) : c.standing id = .session := by
  rw [standing, hl]
  simp only [if_pos hg]
  split
  · rename_i name hname
    rw [hname] at ht
    exact absurd ht (by simp [Task.isDeciding])
  · rfl

theorem standing_of_asked {name : String} (hl : c.reception.requests.lookup id = none)
    (hg : c.guest = some id) (ht : c.task = .deciding name) : c.standing id = .asked name := by
  rw [standing, hl]
  simp only [if_pos hg, ht]

theorem standing_of_gone (hl : c.reception.requests.lookup id = none) (hg : c.guest ≠ some id) :
    c.standing id = .gone := by
  rw [standing, hl]
  exact if_neg hg

theorem standing_of_lookup {name : String} (h : c.reception.requests.lookup id = some name) :
    c.standing id = .queued name := by
  rw [standing, h]

/-- A caller is in the queue, or on the direct connection, or nowhere. -/
theorem standing_cases (h : c.Attentive) (id : CallerId) :
    (∃ name, c.reception.requests.lookup id = some name ∧ c.guest ≠ some id) ∨
    (c.guest = some id ∧ c.reception.requests.lookup id = none) ∨
    (c.reception.requests.lookup id = none ∧ c.guest ≠ some id) := by
  cases hl : c.reception.requests.lookup id with
  | some name =>
    exact .inl ⟨name, rfl, fun hg => h.apart id hg (mem_queue_of_lookup hl)⟩
  | none =>
    by_cases hg : c.guest = some id
    · exact .inr (.inl ⟨hg, rfl⟩)
    · exact .inr (.inr ⟨rfl, hg⟩)

theorem keys_of_keeps {r s : Reception} (h : r.Keeps s) :
    s.queue.map Call.caller = r.queue.map Call.caller := by
  have hkeys : ∀ q : Reception, q.queue.map Call.caller = q.requests.map Prod.fst := by
    intro q
    rw [Reception.requests, List.map_map]
    rfl
  rw [hkeys, hkeys, h.requests]

theorem standing_congr {d : Client} (hr : d.reception.requests = c.reception.requests)
    (hg : d.guest = c.guest) (ht : d.task = c.task) : d.standing id = c.standing id := by
  rw [standing, standing, hr, hg, ht]

/-! ## A request comes into the queue -/

theorem requests_enqueue (r : Reception) (call : Call) :
    (r.enqueue call).requests = r.requests ++ [(call.caller, call.name)] := by
  rw [Reception.requests, Reception.enqueue, List.map_append]
  rfl

theorem free_of_gone (h : c.Attentive) (hgone : c.standing id = .gone) :
    c.reception.requests.lookup id = none ∧ c.guest ≠ some id := by
  rcases standing_cases h id with ⟨name, hl, -⟩ | ⟨hg, hl⟩ | hfree
  · exact absurd ((standing_of_lookup hl).symm.trans hgone) (by simp)
  · rw [standing, hl] at hgone
    simp only [if_pos hg] at hgone
    split at hgone <;> exact absurd hgone (by simp)
  · exact hfree

theorem standing_enqueue {call : Call} (hl : c.reception.requests.lookup call.caller = none)
    (id : CallerId) : ({ c with reception := c.reception.enqueue call } : Client).standing id =
      if id = call.caller then .queued call.name else c.standing id := by
  split
  · rename_i hid
    subst hid
    refine standing_of_lookup ?_
    rw [requests_enqueue, List.lookup_append, hl, Option.none_or, List.lookup_cons_self]
  · rename_i hid
    have hlast : List.lookup id [(call.caller, call.name)] = none := by simp [hid]
    have hlookup : (c.reception.enqueue call).requests.lookup id = c.reception.requests.lookup id := by
      rw [requests_enqueue, List.lookup_append, hlast, Option.or_none]
    rw [standing, standing, hlookup]
    rfl

theorem Attentive.enqueue (h : c.Attentive) {call : Call}
    (hgone : c.standing call.caller = .gone) :
    ({ c with reception := c.reception.enqueue call } : Client).Attentive := by
  obtain ⟨hlookup, hguest⟩ := free_of_gone h hgone
  have hkeys : (c.reception.enqueue call).queue.map Call.caller =
      c.reception.queue.map Call.caller ++ [call.caller] := List.map_append
  have hbare : (c.reception.enqueue call).Bare := ⟨h.bare.callers, h.bare.waiting⟩
  refine ⟨⟨hbare, h.hosting, h.asked⟩, ?_, fun id hid => ?_⟩
  · rw [hkeys]
    refine List.nodup_append.mpr ⟨h.nodup, List.pairwise_singleton _ _, ?_⟩
    rintro id hmem _ hlast rfl
    obtain rfl := List.mem_singleton.mp hlast
    exact lookup_requests_eq_none.mp hlookup hmem
  · rw [hkeys, List.mem_append, List.mem_singleton]
    rintro (hmem | rfl)
    · exact h.apart id hid hmem
    · exact hguest hid

/-! ## The queue is emptied -/

theorem standing_drained (h : c.Attentive) (id : CallerId) :
    ({ c with reception := { c.reception with queue := [] } } : Client).standing id =
      if id ∈ c.reception.queue.map Call.caller then .gone else c.standing id := by
  split
  · rename_i hmem
    exact standing_of_gone rfl fun hg => h.apart id hg hmem
  · rename_i hmem
    rw [standing, standing, lookup_requests_eq_none.mpr hmem]
    rfl

theorem Attentive.drained (h : c.Attentive) :
    ({ c with reception := { c.reception with queue := [] } } : Client).Attentive :=
  ⟨⟨⟨h.bare.callers, h.bare.waiting⟩, h.hosting, h.asked⟩, List.nodup_nil, fun _ _ => List.not_mem_nil⟩

/-! ## Each way -/

theorem Receives.attentive (h : c.Receives x t) (hc : c.Attentive) : t.client.Attentive := by
  have hhosts := h.hosts hc.toHosts
  have hkept : t.client.reception.queue.map Call.caller = c.reception.queue.map Call.caller →
      (∀ id, t.client.guest = some id → c.guest = some id) → t.client.Attentive := by
    intro hq hg
    exact ⟨hhosts, hq ▸ hc.nodup, fun id hid => hq ▸ hc.apart id (hg id hid)⟩
  have hempty : t.client.reception.queue = [] → t.client.Attentive := by
    intro hq
    exact ⟨hhosts, by rw [hq]; exact List.nodup_nil, fun id _ => by rw [hq]; exact List.not_mem_nil⟩
  have hparted : t.client.guest = none → ∀ id, t.client.guest = some id → c.guest = some id :=
    fun hg id hid => absurd (hg.symm.trans hid) (by simp)
  cases h with
  | waits keeps guest => exact hkept (keys_of_keeps keeps) fun id hid => guest ▸ hid
  | goes calm goes =>
    cases goes with
    | on speaks => exact hkept (by rw [speaks.reception]; rfl) fun id hid => speaks.guest ▸ hid
    | off parts => exact hkept (by rw [parts.reception]; rfl) (hparted parts.guest)
    | closes closes => exact hempty closes.queue
  | asks _ _ _ _ rest => exact hempty rest
  | accepts _ asked _ _ keeps guest =>
    exact hkept (keys_of_keeps keeps) fun id hid => asked.trans (guest.symm.trans hid)
  | refuses _ _ keeps guest => exact hkept (keys_of_keeps keeps) (hparted guest)

/-- What is said in a session is heard by the guest only. -/
theorem toCaller_talk (id : CallerId) {guest : Option CallerId} {talk : List Effect}
    (ht : ∀ e ∈ talk, e.IsTalk guest) :
    (guest = some id → Effect.toCaller id talk = talk) ∧
      (guest ≠ some id → Effect.toCaller id talk = []) :=
  ⟨fun hg => Effect.toCaller_eq_self fun e he => (ht e he).caller?.trans hg,
    fun hg => Effect.toCaller_eq_nil fun e he => by rwa [(ht e he).caller?]⟩

theorem passes_deals (hc : c.Attentive) (hd : c.task.isDeciding = false) (hp : c.puts? x = none)
    (h : (Turn.of c).Deals t) (id : CallerId) :
    Passes (c.puts? x) (c.answer? x) id (c.standing id) (t.client.standing id) (t.told id) := by
  rw [Turn.told_eq]
  cases h with
  | on speaks session =>
    obtain ⟨talk, htalk, hs⟩ := speaks.toCallers
    rw [htalk, Turn.toCallers_of, List.nil_append]
    obtain ⟨hself, hother⟩ := toCaller_talk id hs
    have hreception : t.client.reception = c.reception := speaks.reception
    have hguest : t.client.guest = c.guest := speaks.guest
    rcases standing_cases hc id with ⟨name, hl, hg⟩ | ⟨hg, hl⟩ | ⟨hl, hg⟩
    · rw [standing_of_lookup hl, standing_of_lookup (hreception ▸ hl), hother hg]
      exact .rests hp
    · rw [standing_of_guest hl hg hd, standing_of_guest (hreception ▸ hl) (hguest.trans hg)
        (Task.not_isDeciding_of_isSession session), hself hg]
      exact .talks fun e he => hg ▸ hs e he
    · rw [standing_of_gone hl hg, standing_of_gone (hreception ▸ hl) (hguest ▸ hg), hother hg]
      exact .gone
  | off parts calm =>
    obtain ⟨talk, htalk, hs⟩ := parts.toCallers
    rw [htalk, Turn.toCallers_of, List.nil_append, Effect.toCaller_append]
    obtain ⟨hself, hother⟩ := toCaller_talk id hs
    have hreception : t.client.reception = c.reception := parts.reception
    have hgone : t.client.guest ≠ some id := by rw [parts.guest]; simp
    have hfarewell : c.guest ≠ some id → Effect.toCaller id (Effect.farewell c.guest) = [] :=
      fun hg => Effect.toCaller_eq_nil fun e he => by rwa [Effect.caller?_of_mem_farewell e he]
    rcases standing_cases hc id with ⟨name, hl, hg⟩ | ⟨hg, hl⟩ | ⟨hl, hg⟩
    · rw [standing_of_lookup hl, standing_of_lookup (hreception ▸ hl), hother hg]
      exact (hfarewell hg).symm ▸ .rests hp
    · have hclose : Effect.toCaller id (Effect.farewell c.guest) = [.close (.caller id)] := by
        rw [hg]
        exact Effect.toCaller_eq_self (by simp [Effect.farewell, Effect.caller?])
      rw [standing_of_guest hl hg hd, standing_of_gone (hreception ▸ hl) hgone, hself hg]
      exact hclose.symm ▸ .parts fun e he => hg ▸ hs e he
    · rw [standing_of_gone hl hg, standing_of_gone (hreception ▸ hl) hgone, hother hg]
      exact (hfarewell hg).symm ▸ .gone
  | closes closes calm =>
    have hguest : ∀ k, c.guest ≠ some k := fun k hk => absurd (closes.alone.symm.trans hk) (by simp)
    have hnow : t.client.standing id = .gone := by
      refine standing_of_gone ?_ (by rw [closes.guest]; simp)
      rw [Reception.requests, closes.queue]
      rfl
    have htold : t.toCallers = (c.reception.queue.map Call.caller).flatMap fun k =>
        [Effect.close (.caller k)] := by
      rw [closes.toCallers, List.flatMap_map]
      exact List.map_eq_flatMap
    rw [hnow, htold, Effect.toCaller_flatMap id (by simp [Effect.caller?]) hc.nodup]
    rcases standing_cases hc id with ⟨name, hl, -⟩ | ⟨hg, -⟩ | ⟨hl, hg⟩
    · rw [standing_of_lookup hl, if_pos (mem_queue_of_lookup hl)]
      exact .dropped hp
    · exact absurd hg (hguest id)
    · rw [standing_of_gone hl hg, if_neg (lookup_requests_eq_none.mp hl)]
      exact .gone

/-- The queue is emptied, and its first caller is put to the user. -/
theorem passes_asks (hc : c.Attentive) {call : Call} {later : List Call} (alone : c.guest = none)
    (queue : c.reception.queue = call :: later) (puts : c.puts? x = some call)
    (rest : t.client.reception.queue = []) (guest : t.client.guest = some call.caller)
    (task : t.client.task = .deciding call.name)
    (toCallers : t.toCallers = later.flatMap fun call => Effect.refusal call.caller) (id : CallerId) :
    Passes (c.puts? x) (c.answer? x) id (c.standing id) (t.client.standing id) (t.told id) := by
  have hnone : t.client.reception.requests.lookup id = none := by
    rw [Reception.requests, rest]
    rfl
  have htold : t.toCallers = (later.map Call.caller).flatMap Effect.refusal := by
    rw [toCallers, List.flatMap_map]
  have hnodup := hc.nodup
  rw [queue, List.map_cons, List.nodup_cons] at hnodup
  rw [Turn.told_eq, htold, Effect.toCaller_flatMap id (fun _ => Effect.caller?_of_mem_refusal) hnodup.2]
  by_cases hid : call.caller = id
  · have hl : c.reception.requests.lookup id = some call.name := by
      rw [Reception.requests, queue, List.map_cons, hid, List.lookup_cons_self]
    rw [standing_of_lookup hl, standing_of_asked hnone (guest.trans (congrArg some hid)) task,
      if_neg (hid ▸ hnodup.1)]
    exact .put puts hid
  · have hgone : t.client.guest ≠ some id := by
      rw [guest]
      exact fun h => hid (Option.some.inj h)
    have hmem : id ∈ c.reception.queue.map Call.caller ↔ id ∈ later.map Call.caller := by
      rw [queue, List.map_cons, List.mem_cons]
      exact or_iff_right fun h => hid h.symm
    rw [standing_of_gone hnone hgone]
    rcases standing_cases hc id with ⟨name, hl, -⟩ | ⟨hg, -⟩ | ⟨hl, hg⟩
    · rw [standing_of_lookup hl, if_pos (hmem.mp (mem_queue_of_lookup hl))]
      exact .turnedAway puts hid
    · exact absurd (alone.symm.trans hg) (by simp)
    · rw [standing_of_gone hl hg, if_neg (mt hmem.mpr (lookup_requests_eq_none.mp hl))]
      exact .gone

/-- The user's answer is for the guest, and nobody else sees any of it. -/
theorem passes_guest (hc : c.Attentive) (hd : c.task.isDeciding = true) {k : CallerId}
    (asked : c.guest = some k) (keeps : c.reception.Keeps t.client.reception)
    (guest : ∀ id, t.client.guest = some id → c.guest = some id)
    (toCallers : ∀ e ∈ t.toCallers, e.caller? = some k) (puts : c.puts? x = none)
    (hguest : ∀ name, Passes (c.puts? x) (c.answer? x) k (.asked name) (t.client.standing k) t.toCallers)
    (id : CallerId) :
    Passes (c.puts? x) (c.answer? x) id (c.standing id) (t.client.standing id) (t.told id) := by
  have hother : c.guest ≠ some id → Effect.toCaller id t.toCallers = [] := fun hg =>
    Effect.toCaller_eq_nil fun e he h => hg (asked.trans ((toCallers e he).symm.trans h))
  rw [Turn.told_eq]
  rcases standing_cases hc id with ⟨name, hl, hg⟩ | ⟨hg, hl⟩ | ⟨hl, hg⟩
  · rw [standing_of_lookup hl, standing_of_lookup (by rw [keeps.requests, hl]), hother hg]
    exact .rests puts
  · obtain rfl : k = id := Option.some.inj (asked.symm.trans hg)
    obtain ⟨name, hname⟩ := Task.exists_of_isDeciding hd
    rw [standing_of_asked hl hg hname, Effect.toCaller_eq_self toCallers]
    exact hguest name
  · rw [standing_of_gone hl hg, standing_of_gone (by rw [keeps.requests, hl]) (mt (guest id) hg),
      hother hg]
    exact .gone

/-- How each caller goes on when the client meets with something. -/
theorem passes (hc : c.Attentive) (h : c.Receives x t) (id : CallerId) :
    Passes (c.puts? x) (c.answer? x) id (c.standing id) (t.client.standing id) (t.told id) := by
  -- The guest is not in the queue.
  have hunqueued : ∀ k, c.guest = some k → c.reception.Keeps t.client.reception →
      t.client.reception.requests.lookup k = none := by
    intro k hk keeps
    rw [keeps.requests, lookup_requests_eq_none]
    exact hc.apart k hk
  cases h with
  | waits keeps guest task quiet unclear puts =>
    rw [Turn.told_eq, quiet, standing_congr keeps.requests guest task]
    rcases standing_cases hc id with ⟨name, hl, -⟩ | ⟨hg, hl⟩ | ⟨hl, hg⟩
    · rw [standing_of_lookup hl]
      exact .rests puts
    · cases hd : c.task.isDeciding with
      | false =>
        rw [standing_of_guest hl hg hd]
        exact .talks fun e he => absurd he List.not_mem_nil
      | true =>
        obtain ⟨name, hname⟩ := Task.exists_of_isDeciding hd
        rw [standing_of_asked hl hg hname]
        exact .waits unclear
    · rw [standing_of_gone hl hg]
      exact .gone
  | goes calm goes puts => exact passes_deals hc calm puts goes id
  | asks alone queue puts bare rest guest task toCallers =>
    exact passes_asks hc alone queue puts rest guest task toCallers id
  | @accepts k name line deciding asked answer yes keeps guest task toCallers puts =>
    refine passes_guest hc (by rw [deciding]; rfl) asked keeps (fun id hid => ?_) ?_ puts
      (fun name => ?_) id
    · exact asked.trans (guest.symm.trans hid)
    · rw [toCallers]
      simp [Effect.caller?]
    · rw [standing_of_guest (hunqueued k asked keeps) guest (by rw [task]; rfl), toCallers]
      exact .accepted answer yes
  | @refuses k deciding asked keeps guest calm toCallers puts =>
    refine passes_guest hc deciding asked keeps (fun id hid => ?_) ?_ puts (fun name => ?_) id
    · exact absurd (guest.symm.trans hid) (by simp)
    · rcases toCallers with h | h
      · rw [h]
        exact Effect.caller?_of_mem_refusal
      · rw [h]
        simp [Effect.caller?]
    · rw [standing_of_gone (hunqueued k asked keeps) (by rw [guest]; simp)]
      exact .refused toCallers

end Client

end PeerChat
