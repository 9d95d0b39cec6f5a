import PeerChat.Proofs.Lobby.Run
import PeerChat.Proofs.Wire.CallMessage

/-!
# Every caller is answered at most once

A caller gets nothing, or a denial and the end, or an acceptance and a session; and an acceptance comes
from the user, who was asked about that caller and said yes.  Callers whose request is complete while the
client is busy are denied, and so are all who are in the queue when another is put to the user
(`callers_answered`).
-/

namespace PeerChat

namespace Negotiation

variable {ended : Bool} {incoming rest : Bytes} {name : String}

/-- A request is complete when the first line is one. -/
theorem readRequest_eq_done_iff : readRequest ended incoming = .done (name, rest) ↔
    ∃ line, Line.read Line.maxSize ended incoming = .line line rest ∧
      CallMessage.parse line = .ok (.request name) := by
  unfold readRequest
  split
  · simp_all
  · simp_all
  · simp_all
  · rename_i line rest' hr
    constructor
    · intro h
      refine ⟨line, ?_, ?_⟩
      all_goals split at h <;> simp_all
    · rintro ⟨line', hline, hparse⟩
      obtain ⟨rfl, rfl⟩ := Line.Outcome.line.inj (hr.symm.trans hline)
      simp only [hparse]

/-- Whatever else comes first is none. -/
theorem readRequest_eq_failed_iff : (∃ cause, readRequest ended incoming = .failed cause) ↔
    Line.read Line.maxSize ended incoming ≠ .incomplete ∧
      ∀ line rest name, Line.read Line.maxSize ended incoming = .line line rest →
        CallMessage.parse line ≠ .ok (.request name) := by
  unfold readRequest
  split
  · simp_all
  · simp_all
  · simp_all
  · rename_i line rest' hr
    constructor
    · rintro ⟨cause, h⟩
      refine ⟨by rw [hr]; simp, fun line' rest name hline hparse => ?_⟩
      obtain ⟨rfl, rfl⟩ := Line.Outcome.line.inj (hr.symm.trans hline)
      simp [hparse] at h
    · rintro ⟨-, hnone⟩
      split
      · rename_i name hparse
        exact absurd hparse (hnone line rest' name hr)
      · exact ⟨_, rfl⟩
      · exact ⟨_, rfl⟩

end Negotiation

namespace Lobby

variable {n m : Lobby} {s : Step} {steps : List Step} {id : CallerId} {name : String}

/-! ## What is claimed of a caller -/

/-- Nothing, or the end, or one denial and the end, or one acceptance and after it no answer any more. -/
def Answered (id : CallerId) (told : List Effect) : Prop :=
  told = [] ∨ told = [.close (.caller id)] ∨
    told = [.send (.caller id) (Negotiation.answer false), .close (.caller id)] ∨
    ∃ talk, (told = .send (.caller id) (Negotiation.answer true) :: talk ∨
        told = .send (.caller id) (Negotiation.answer true) :: (talk ++ [.close (.caller id)])) ∧
      ∀ e ∈ talk, ∃ bytes, e = .send (.caller id) bytes ∧
        ∀ accept, bytes ≠ Negotiation.answer accept

/-- The first line of all that has come on a connection is a request under this name. -/
def Requests (n : Lobby) (id : CallerId) (name : String) : Prop :=
  ∃ c line rest, n.attendant id = some (.reading c) ∧
    Line.read Line.maxSize c.ended (n.said id) = .line line rest ∧
    CallMessage.parse line = .ok (.request name)

/-- What has come on a connection has a first line, or an end, and no request is there. -/
def Misspeaks (n : Lobby) (id : CallerId) : Prop :=
  ∃ c, n.attendant id = some (.reading c) ∧
    Line.read Line.maxSize c.ended (n.said id) ≠ .incomplete ∧
    ∀ line rest name, Line.read Line.maxSize c.ended (n.said id) = .line line rest →
      CallMessage.parse line ≠ .ok (.request name)

/-- The client negotiates or is in a session, or still shows that it is. -/
def isBusy (n : Lobby) : Bool := n.client.status.isBusy || n.board.isBusy

/-- The user is asked about this caller. -/
def Asks (n : Lobby) (id : CallerId) (name : String) : Prop :=
  n.client.guest = some id ∧ n.client.task = .deciding name

/-- How a caller comes to be accepted.  The first line was a request and was found complete while the
client was not busy; the request was put to the user; until then nothing was typed that is an answer,
and then a yes. -/
def AcceptedByUser (n : Lobby) (steps : List Step) (id : CallerId) : Prop :=
  ∃ before queueing question asking answer after name,
    steps = before ++ .attend id :: (queueing ++ question :: (asking ++ answer :: after)) ∧
    (n.run before).Requests id name ∧ isName name = true ∧ (n.run before).isBusy = false ∧
    (∃ call, (n.run (before ++ .attend id :: queueing)).puts? question = some call ∧
      call.caller = id ∧ call.name = name) ∧
    (∀ t, t <+: asking →
      (n.run (before ++ .attend id :: (queueing ++ question :: t))).Asks id name) ∧
    (∀ line ∈ (n.run (before ++ .attend id :: (queueing ++ [question]))).answers asking,
      Turn.readAnswer line = none) ∧
    ∃ line, (n.run (before ++ .attend id :: (queueing ++ question :: asking))).answer? answer =
      some line ∧ Turn.readAnswer line = some true

/-- A caller has been denied, and at no step of the run is the user asked about it. -/
def NeverPut (n : Lobby) (steps : List Step) (id : CallerId) : Prop :=
  ∀ before s after, steps = before ++ s :: after → ∀ call, (n.run before).puts? s = some call →
    call.caller ≠ id

/-! ## What a standing says -/

theorem attendant_of_reading {c : Caller} (h : n.standing id = .reading c) :
    n.attendant id = some (.reading c) := by
  unfold standing at h
  split at h
  · exact absurd h (by simp)
  · rename_i c' ha
    rw [ha, Standing.reading.inj h]
  · exact absurd h (by simp)
  · unfold Client.standing at h
    split at h
    · exact absurd h (by simp)
    · split at h
      · split at h <;> exact absurd h (by simp)
      · exact absurd h (by simp)

/-- Who is asked about, or in a session, stands with the client. -/
theorem client_standing (h : n.standing id = .session ∨ ∃ name, n.standing id = .asked name) :
    n.standing id = n.client.standing id := by
  unfold standing at h ⊢
  split
  all_goals simp_all

theorem asks_of_standing (h : n.standing id = .asked name) : n.Asks id name := by
  rw [client_standing (.inr ⟨_, h⟩)] at h
  unfold Client.standing at h
  split at h
  · exact absurd h (by simp)
  · split at h
    · rename_i hg
      split at h
      · rename_i ht
        exact ⟨hg, by rw [ht, Standing.asked.inj h]⟩
      · exact absurd h (by simp)
    · exact absurd h (by simp)

theorem guest_of_session (h : n.standing id = .session) :
    n.client.guest = some id ∧ n.client.task.isDeciding = false := by
  rw [client_standing (.inl h)] at h
  unfold Client.standing at h
  split at h
  · exact absurd h (by simp)
  · split at h
    · rename_i hg
      refine ⟨hg, ?_⟩
      split at h
      · exact absurd h (by simp)
      · rename_i hne
        cases ht : n.client.task <;> first | rfl | exact absurd ht (hne _)
    · exact absurd h (by simp)

/-! ## What callers get -/

theorem answered_of_tells {p : Standing} {told : List Effect} (h : p.Tells id told) :
    Answered id told := by
  have htalk : ∀ talk : List Effect, (∀ e ∈ talk, e.IsTalk (some id)) →
      ∀ e ∈ talk, ∃ bytes, e = .send (.caller id) bytes ∧
        ∀ accept, bytes ≠ Negotiation.answer accept := by
    intro talk hs e he
    have hne := (hs e he).ne_answer id
    obtain ⟨id', bytes, hid, rfl, -⟩ := hs e he
    obtain rfl := Option.some.inj hid
    exact ⟨bytes, rfl, fun accept hb => hne accept (by rw [hb])⟩
  cases p with
  | session =>
    obtain ⟨talk, rfl, hs⟩ := h
    exact .inr (.inr (.inr ⟨talk, .inl rfl, htalk talk hs⟩))
  | gone =>
    rcases h with rfl | rfl | ⟨talk, rfl, hs⟩
    · exact .inr (.inl rfl)
    · exact .inr (.inr (.inl rfl))
    · exact .inr (.inr (.inr ⟨talk, .inr rfl, htalk talk hs⟩))
  | _ => exact .inl h

theorem mem_told_acceptance : Effect.acceptance id ∈ n.told id ↔ Effect.acceptance id ∈ n.log := by
  rw [told, List.mem_filter]
  exact and_iff_left (by simp [Effect.acceptance, Effect.caller?])

/-! ## Back to the request -/

/-- The step at which a caller is accepted. -/
theorem Course.accepts {p q : Standing} {told : List Effect} (h : Course n s id p q told)
    (ha : Effect.acceptance id ∈ told) :
    ∃ name line, p = .asked name ∧ q = .session ∧ told = [Effect.acceptance id] ∧
      n.answer? s = some line ∧ Turn.readAnswer line = some true := by
  have hclose : Effect.acceptance id ∉ [Effect.close (.caller id)] := by simp [Effect.acceptance]
  have htalk : ∀ talk : List Effect, (∀ e ∈ talk, e.IsTalk (some id)) →
      Effect.acceptance id ∉ talk := fun talk hs he => (hs _ he).ne_answer id true rfl
  have hrefusal := Effect.acceptance_not_mem_refusal id id
  cases h with
  | client passes =>
    cases passes with
    | accepted takes yes => exact ⟨_, _, rfl, rfl, rfl, takes, yes⟩
    | rests | put | waits | gone => exact absurd ha List.not_mem_nil
    | turnedAway => exact absurd ha hrefusal
    | dropped => exact absurd ha hclose
    | refused denied =>
      rcases denied with rfl | rfl
      · exact absurd ha hrefusal
      · exact absurd ha hclose
    | talks talks => exact absurd ha (htalk _ talks)
    | parts talks => exact ((List.mem_append.mp ha).elim (htalk _ talks) hclose).elim
  | denied | shutOut | drained => exact absurd ha hrefusal
  | dropped => exact absurd ha hclose
  | _ => exact absurd ha List.not_mem_nil

/-- The step at which the user is asked. -/
theorem Course.asks {p : Standing} {told : List Effect} (h : Course n s id p (.asked name) told)
    (hp : p ≠ .asked name) :
    p = .queued name ∧ ∃ call, n.puts? s = some call ∧ call.caller = id ∧ call.name = name := by
  cases h with
  | still => exact absurd rfl hp
  | client passes =>
    cases passes with
    | put takes caller => exact ⟨rfl, _, takes, caller, rfl⟩
    | waits => exact absurd rfl hp

/-- The step at which a request comes into the queue. -/
theorem Course.queues {p : Standing} {told : List Effect} (h : Course n s id p (.queued name) told)
    (hp : p ≠ .queued name) : p = .entering name := by
  cases h with
  | still => exact absurd rfl hp
  | client passes =>
    cases passes with
    | rests => exact absurd rfl hp
  | enters => rfl

/-- The step at which a request passes the busy test. -/
theorem Course.forwards {p : Standing} {told : List Effect} (h : Course n s id p (.entering name) told)
    (hp : p ≠ .entering name) : s = .attend id ∧ n.board.isBusy = false ∧
      ∃ c rest, p = .reading c ∧
        Negotiation.readRequest c.ended c.incoming = .done (name, rest) := by
  cases h with
  | still => exact absurd rfl hp
  | client passes => cases passes
  | forwarded attend request calm => exact ⟨attend, calm, _, _, rfl, request⟩
  | pauses => exact absurd rfl hp

/-- While the user is asked about a caller, nothing is answered that can be recognised. -/
theorem answers_unclear (h : n.Sound) (id : CallerId) (name : String)
    (ha : ∀ t, t <+: steps → (n.run t).standing id = .asked name) :
    ∀ line ∈ n.answers steps, Turn.readAnswer line = none := by
  induction steps generalizing n with
  | nil => exact fun _ hline => absurd hline List.not_mem_nil
  | cons s steps ih =>
    obtain ⟨hs, hadvance⟩ := h.step s
    obtain ⟨told, hc, -⟩ := hadvance id
    have hnow : n.standing id = .asked name := ha [] (List.nil_prefix)
    have hnext : (n.step s).standing id = .asked name := ha [s] (List.cons_prefix_cons.mpr ⟨rfl, List.nil_prefix⟩)
    rw [hnow, hnext] at hc
    intro line hline
    rcases List.mem_append.mp hline with hline | hline
    · have hanswer : n.answer? s = some line := Option.mem_toList.mp hline
      cases hc with
      | still _ answer => exact absurd (answer.symm.trans hanswer) (by simp)
      | client passes =>
        cases passes with
        | waits unclear => exact unclear line hanswer
    · exact ih hs (fun t ht => ha (s :: t) (List.cons_prefix_cons.mpr ⟨rfl, ht⟩)) line hline

theorem isBusy_eq_false (h : n.Sound) (hb : n.board.isBusy = false) : n.isBusy = false := by
  rw [isBusy, hb, Bool.or_false]
  cases hs : n.client.status.isBusy with
  | false => rfl
  | true => exact absurd ((h.board hs).symm.trans hb) (by simp)

theorem isName_of_parse {line : String} (h : CallMessage.parse line = .ok (.request name)) :
    isName name = true := by
  obtain ⟨words, hcut, hspelled⟩ := CallMessage.parse_eq_ok_iff.mp h
  cases hspelled with
  | request hname => exact (isName_iff_spellsName (hcut.isWord (by simp))).mpr hname

/-- Whoever is accepted has been asked about, and before that was in the queue, into which the caller came
with a request that passed the busy test. -/
theorem acceptedByUser_of_told (h : n.Sound) (h₀ : n.standing id = .absent) (hn : n.told id = [])
    (ha : Effect.acceptance id ∈ (n.run steps).told id) : n.AcceptedByUser steps id := by
  -- The four steps are found one behind the other, from the last one.
  obtain ⟨asked, answer, after, rfl, hbefore, hafter⟩ :=
    exists_entry (P := fun m => Effect.acceptance id ∈ m.told id) (by rw [hn]; exact List.not_mem_nil) ha
  have hsound := h.run asked
  obtain ⟨told, hc, htold⟩ := (hsound.step answer).2 id
  have hmem : Effect.acceptance id ∈ told := by
    have hnow := hafter [] List.nil_prefix
    rw [run_concat, htold] at hnow
    exact (List.mem_append.mp hnow).resolve_left hbefore
  obtain ⟨name, line, hasked, -, -, hline, hyes⟩ := hc.accepts hmem
  obtain ⟨queued, question, asking, rfl, hnot, hasking⟩ :=
    exists_entry (P := fun m => m.standing id = .asked name) (by rw [h₀]; simp) hasked
  obtain ⟨told', hc', -⟩ := ((h.run queued).step question).2 id
  rw [← run_concat, hasking [] List.nil_prefix] at hc'
  obtain ⟨hqueued, call, hputs, hcaller, hname⟩ := hc'.asks hnot
  obtain ⟨entering, enter, queue, rfl, hnot, hin⟩ :=
    exists_entry (P := fun m => m.standing id = .queued name) (by rw [h₀]; simp) hqueued
  obtain ⟨told', hc', -⟩ := ((h.run entering).step enter).2 id
  rw [← run_concat, hin [] List.nil_prefix] at hc'
  have hentering := hc'.queues hnot
  obtain ⟨before, forward, wait, rfl, hnot, hwait⟩ :=
    exists_entry (P := fun m => m.standing id = .entering name) (by rw [h₀]; simp) hentering
  obtain ⟨told', hc', -⟩ := ((h.run before).step forward).2 id
  rw [← run_concat, hwait [] List.nil_prefix] at hc'
  obtain ⟨rfl, hcalm, c, rest, hreading, hrequest⟩ := hc'.forwards hnot
  obtain ⟨first, hread, hparse⟩ := Negotiation.readRequest_eq_done_iff.mp hrequest
  have hattendant := attendant_of_reading hreading
  have hsaid := ((h.run before).attends id _ hattendant).2
  have hall : ∀ t, before ++ Step.attend id :: (wait ++ enter :: queue ++ question :: t) =
      before ++ Step.attend id :: wait ++ enter :: queue ++ question :: t := by simp
  refine ⟨before, wait ++ enter :: queue, question, asking, answer, after, name, by simp,
    ⟨c, first, rest, hattendant, hsaid ▸ hread, hparse⟩, isName_of_parse hparse,
    isBusy_eq_false (h.run before) hcalm, ⟨call, ?_, hcaller, hname⟩, ?_, ?_, line, ?_, hyes⟩
  · rw [← List.cons_append, ← List.append_assoc]
    exact hputs
  · intro t ht
    rw [hall]
    exact asks_of_standing (hasking t ht)
  · refine answers_unclear (h.run _) id name fun t ht => ?_
    rw [← run_append, hall, List.append_assoc]
    exact hasking t ht
  · rw [hall]
    exact hline

/-! ## One session at a time -/

theorem log_step (n : Lobby) (s : Step) : ∃ new, (n.step s).log = n.log ++ new := by
  have hsame : ∃ new, n.log = n.log ++ new := ⟨[], (List.append_nil _).symm⟩
  cases s with
  | meet x =>
    simp only [step, meet]
    split
    · exact ⟨_, rfl⟩
    · exact hsame
  | rest => exact hsame
  | drain =>
    simp only [step, drain]
    split
    · split
      · exact hsame
      · exact ⟨_, rfl⟩
    · exact hsame
  | connect address =>
    simp only [step, connect]
    split
    · exact hsame
    · exact hsame
  | attend id =>
    simp only [step, attend]
    split
    · split
      · exact ⟨_, rfl⟩
      · exact hsame
    · exact hsame
  | arrive id bytes ended =>
    simp only [step, arrive]
    split
    · split
      · exact ⟨_, rfl⟩
      · exact hsame
    · exact hsame
    · exact hsame
  | lose id =>
    simp only [step, lose]
    split
    · exact ⟨_, rfl⟩
    · exact hsame

/-- What a step adds to the log is what callers see of it. -/
theorem Sound.course_of_log (h : n.Sound) {new : List Effect} (hnew : (n.step s).log = n.log ++ new)
    (id : CallerId) :
    Course n s id (n.standing id) ((n.step s).standing id) (Effect.toCaller id new) := by
  obtain ⟨told, hc, htold⟩ := (h.step s).2 id
  have hsplit : (n.step s).told id = n.told id ++ Effect.toCaller id new := by
    rw [Lobby.told, hnew]
    exact List.filter_append ..
  obtain rfl := List.append_cancel_left (htold.symm.trans hsplit)
  exact hc

theorem mem_toCaller_acceptance {effects : List Effect} :
    Effect.acceptance id ∈ Effect.toCaller id effects ↔ Effect.acceptance id ∈ effects := by
  rw [Effect.toCaller, List.mem_filter]
  exact and_iff_left (by simp [Effect.acceptance, Effect.caller?])

/-- Whoever has been accepted and whose session is not over is on the direct connection. -/
theorem closed_of_accepted {told : List Effect} {p : Standing} (h : p.Tells id told)
    (hp : p ≠ .session) {before later : List Effect}
    (ht : told = before ++ Effect.acceptance id :: later) : .close (.caller id) ∈ later := by
  have hmem : Effect.acceptance id ∈ told := by
    rw [ht]
    exact List.mem_append_right _ List.mem_cons_self
  cases p with
  | session => exact absurd rfl hp
  | gone =>
    rcases h with rfl | rfl | ⟨talk, rfl, hs⟩
    · exact absurd hmem (by simp [Effect.acceptance])
    · exact absurd hmem (Effect.acceptance_not_mem_refusal id id)
    · have hone : Effect.acceptance id ∉ talk ++ [.close (.caller id)] := by
        intro he
        rcases List.mem_append.mp he with he | he
        · exact (hs _ he).ne_answer id true rfl
        · simp [Effect.acceptance] at he
      cases before with
      | nil =>
        obtain ⟨-, rfl⟩ := List.cons.inj ht
        exact List.mem_append_right _ List.mem_cons_self
      | cons e before =>
        obtain ⟨-, hrest⟩ := List.cons.inj ht
        refine absurd ?_ hone
        rw [hrest]
        exact List.mem_append_right _ List.mem_cons_self
  | _ =>
    obtain rfl : told = [] := h
    exact absurd hmem List.not_mem_nil

/-- A step that accepts somebody accepts nobody else, and finds every session before it closed. -/
theorem Sound.closed_before (h : n.Sound) (ht : ∀ id, (n.standing id).Tells id (n.told id))
    {a b : CallerId} {new first between added last : List Effect}
    (hnew : (n.step s).log = n.log ++ new)
    (hold : first ++ Effect.acceptance a :: between = n.log ++ added)
    (hadded : new = added ++ Effect.acceptance b :: last) : .close (.caller a) ∈ between := by
  have hmem : Effect.acceptance b ∈ new := by
    rw [hadded]
    exact List.mem_append_right _ List.mem_cons_self
  have hcourse := h.course_of_log hnew
  obtain ⟨name, -, hasked, -, htold, -⟩ := (hcourse b).accepts (mem_toCaller_acceptance.mpr hmem)
  obtain ⟨hguest, htask⟩ := asks_of_standing hasked
  have honce : Effect.acceptance a ∉ added := by
    intro ha
    have hnow : Effect.acceptance a ∈ new := hadded ▸ List.mem_append_left _ ha
    obtain ⟨name', -, hasked', -⟩ := (hcourse a).accepts (mem_toCaller_acceptance.mpr hnow)
    obtain rfl : a = b := Option.some.inj ((asks_of_standing hasked').1.symm.trans hguest)
    have hfirst := mem_toCaller_acceptance.mpr ha
    rw [hadded, Effect.toCaller_append] at htold
    cases hl : Effect.toCaller a added with
    | nil => exact absurd (hl ▸ hfirst) List.not_mem_nil
    | cons e l =>
      rw [hl, List.cons_append] at htold
      have hrest := (List.cons.inj htold).2
      have hlast : Effect.acceptance a ∈ Effect.toCaller a (Effect.acceptance a :: last) :=
        mem_toCaller_acceptance.mpr List.mem_cons_self
      exact absurd (hrest ▸ List.mem_append_right l hlast) List.not_mem_nil
  rcases List.append_eq_append_iff.mp hold with ⟨kept, hlog, hkept⟩ | ⟨kept, -, hkept⟩
  · cases kept with
    | nil =>
      rw [List.nil_append] at hkept
      exact absurd (hkept ▸ List.mem_cons_self) honce
    | cons e kept =>
      obtain ⟨rfl, rfl⟩ := List.cons.inj hkept
      have hopen : n.standing a ≠ .session := by
        intro hsession
        obtain ⟨hguest', hcalm⟩ := guest_of_session hsession
        rw [htask] at hcalm
        exact absurd hcalm (by simp [Task.isDeciding])
      have htold : n.told a = Effect.toCaller a first ++
          Effect.acceptance a :: Effect.toCaller a kept := by
        rw [Lobby.told, hlog]
        refine (Effect.toCaller_append first (Effect.acceptance a :: kept)).trans ?_
        rw [← List.singleton_append, Effect.toCaller_append]
        exact congrArg _ (congrArg (· ++ _) (Effect.toCaller_eq_self (by
          simp [Effect.acceptance, Effect.caller?])))
      have hclose := closed_of_accepted (ht a) hopen htold
      exact List.mem_append_left _ (List.mem_filter.mp hclose).1
  · exact absurd (hkept ▸ List.mem_append_right _ List.mem_cons_self) honce

theorem closed_between (h : n.Sound) (h₀ : ∀ id, n.standing id = .absent) (hn : ∀ id, n.told id = [])
    {a b : CallerId} {first between last : List Effect}
    (hlog : (n.run steps).log =
      first ++ Effect.acceptance a :: (between ++ Effect.acceptance b :: last)) :
    .close (.caller a) ∈ between := by
  induction steps using List.reverseRecOn generalizing last with
  | nil =>
    have hmem : Effect.acceptance a ∈ n.log := by
      have hlog : n.log = _ := hlog
      rw [hlog]
      exact List.mem_append_right _ List.mem_cons_self
    exact absurd (mem_told_acceptance.mpr hmem) (by rw [hn]; exact List.not_mem_nil)
  | append_singleton steps s ih =>
    have ht : ∀ id, ((n.run steps).standing id).Tells id ((n.run steps).told id) := fun id =>
      h.tells_run (by rw [h₀, hn]; rfl) steps
    obtain ⟨new, hnew⟩ := log_step (n.run steps) s
    rw [run_concat, hnew] at hlog
    -- The second acceptance is in what the last step adds, or the run before it has both.
    have hsplit : first ++ Effect.acceptance a :: (between ++ Effect.acceptance b :: last) =
        (first ++ Effect.acceptance a :: between) ++ Effect.acceptance b :: last := by simp
    rw [hsplit] at hlog
    rcases List.append_eq_append_iff.mp hlog with ⟨added, hold, hadded⟩ | ⟨kept, hold, hkept⟩
    · exact (h.run steps).closed_before ht hnew hold hadded
    · cases kept with
      | nil =>
        have hall : first ++ Effect.acceptance a :: between = (n.run steps).log ++ [] := by
          rw [hold, List.append_nil, List.append_nil]
        exact (h.run steps).closed_before ht hnew hall hkept.symm
      | cons e kept =>
        obtain ⟨rfl, rfl⟩ := List.cons.inj hkept
        have hboth : (n.run steps).log =
            first ++ Effect.acceptance a :: (between ++ Effect.acceptance b :: kept) := by
          rw [hold]
          simp
        exact ih hboth

/-! ## Who is put to the user -/

/-- A request that a step puts to the user comes first in the queue. -/
theorem queue_of_puts {call : Call} (h : n.puts? s = some call) :
    ∃ later, n.client.reception.queue = call :: later := by
  unfold puts? at h
  split at h
  · split at h
    · unfold Client.puts? at h
      split at h
      · split at h
        · exact List.head?_eq_some_iff.mp h
        · exact absurd h (by simp)
      · exact absurd h (by simp)
    · exact absurd h (by simp)
  · exact absurd h (by simp)

theorem Sound.standing_of_queued (h : n.Sound) {call : Call}
    (hc : call ∈ n.client.reception.queue) : ∃ name, n.standing call.caller = .queued name := by
  have hmem : call.caller ∈ n.client.reception.queue.map Call.caller := List.mem_map_of_mem hc
  obtain ⟨name, hname⟩ := Option.ne_none_iff_exists'.mp
    (mt Client.lookup_requests_eq_none.mp (not_not_intro hmem))
  have hqueued := Client.standing_of_lookup hname
  have hdone := h.served call.caller (by rw [hqueued]; simp)
  exact ⟨name, (standing_of_done hdone).trans hqueued⟩

/-- Whoever is in the queue when one is put to the user is asked about, or turned away. -/
theorem Sound.course_of_puts (h : n.Sound) {call : Call} (hp : n.puts? s = some call)
    {other : Call} (ho : other ∈ n.client.reception.queue) :
    (other.caller = call.caller ∧ ∃ name, (n.step s).standing other.caller = .asked name) ∨
    (other.caller ≠ call.caller ∧ (n.step s).standing other.caller = .gone ∧
      (n.step s).told other.caller = n.told other.caller ++ Effect.refusal other.caller) := by
  obtain ⟨name, hqueued⟩ := h.standing_of_queued ho
  obtain ⟨told, hc, htold⟩ := (h.step s).2 other.caller
  rw [hqueued] at hc
  generalize hq : (n.step s).standing other.caller = q at hc
  cases hc with
  | still puts => exact absurd (puts.symm.trans hp) (by simp)
  | drained drain =>
    subst drain
    exact absurd hp (by simp [puts?])
  | client passes =>
    cases passes with
    | rests idle => exact absurd (idle.symm.trans hp) (by simp)
    | dropped idle => exact absurd (idle.symm.trans hp) (by simp)
    | put takes caller =>
      obtain rfl := Option.some.inj (takes.symm.trans hp)
      exact .inl ⟨caller.symm, _, rfl⟩
    | turnedAway takes away =>
      obtain rfl := Option.some.inj (takes.symm.trans hp)
      exact .inr ⟨fun h => away h.symm, rfl, htold⟩

theorem neverPut (h : n.Sound) {before after : List Step} (hs : steps = before ++ s :: after)
    (hearly : ((n.run before).standing id).rank ≤ 3)
    (hgone : (n.run (before ++ [s])).standing id = .gone) : n.NeverPut steps id := by
  rintro early step late he call hputs rfl
  have hsound := h.run early
  obtain ⟨later, hq⟩ := queue_of_puts hputs
  have hmem : call ∈ (n.run early).client.reception.queue := hq ▸ List.mem_cons_self
  obtain ⟨name, hqueued⟩ := hsound.standing_of_queued hmem
  obtain ⟨name', hasked⟩ : ∃ name, (n.run (early ++ [step])).standing call.caller = .asked name := by
    rw [run_concat]
    exact (hsound.course_of_puts hputs hmem).resolve_right (fun h => h.1 rfl) |>.2
  -- The two steps are the same, or one comes before the other.
  rcases List.append_eq_append_iff.mp (hs.symm.trans he) with ⟨gap, hgap, hrest⟩ | ⟨gap, hgap, hrest⟩
  · cases gap with
    | nil =>
      obtain ⟨rfl, -⟩ := List.cons.inj hrest
      rw [hgap, List.append_nil] at hasked
      exact absurd (hgone.symm.trans hasked) (by simp)
    | cons e gap =>
      obtain ⟨rfl, -⟩ := List.cons.inj hrest
      have hlate := ((h.run (before ++ [s])).gone_run hgone gap).1
      rw [← run_append, List.append_assoc, List.singleton_append, ← hgap] at hlate
      exact absurd (hlate.symm.trans hqueued) (by simp)
  · cases gap with
    | nil =>
      obtain ⟨rfl, -⟩ := List.cons.inj hrest
      rw [hgap, List.append_nil] at hgone
      exact absurd (hgone.symm.trans hasked) (by simp)
    | cons e gap =>
      obtain ⟨rfl, -⟩ := List.cons.inj hrest
      have hle := (h.run (early ++ [step])).rank_le_run gap call.caller
      rw [← run_append, List.append_assoc, List.singleton_append, ← hgap, hasked] at hle
      have : (4 : Nat) ≤ 3 := hle.trans hearly
      omega

/-! ## Who is turned away at once -/

theorem standing_of_tells {p : Standing} {told : List Effect} (h : p.Tells id told)
    (ht : told = Effect.refusal id ∨ told = [.close (.caller id)]) : p = .gone := by
  cases p with
  | gone => rfl
  | session =>
    obtain ⟨talk, rfl, -⟩ := h
    rcases ht with ht | ht
    · refine absurd ?_ (Effect.acceptance_not_mem_refusal id id)
      rw [← ht]
      exact List.mem_cons_self
    · exact absurd (List.cons.inj ht).1 (by simp [Effect.acceptance])
  | _ =>
    obtain rfl : told = [] := h
    exact absurd ht (by simp [Effect.refusal])

/-- Where a request is being read, nothing has been answered. -/
theorem told_of_reading {c : Caller} (ha : n.attendant id = some (.reading c))
    (ht : (n.standing id).Tells id (n.told id)) :
    n.told id = [] ∧ (n.standing id).rank ≤ 3 := by
  rw [standing_of_reading ha] at ht ⊢
  exact ⟨ht, by simp [Standing.rank]⟩

theorem told_attend_denied (h : n.Sound) (ha : n.client.isAttending = true)
    (hr : n.Requests id name) (hb : n.isBusy = true) :
    (n.step (.attend id)).told id = n.told id ++ Effect.refusal id := by
  obtain ⟨c, line, rest, hc, hread, hparse⟩ := hr
  obtain ⟨hid, hsaid⟩ := h.attends id _ hc
  have hrequest : Negotiation.readRequest c.ended c.incoming = .done (name, rest) :=
    Negotiation.readRequest_eq_done_iff.mpr ⟨line, hsaid ▸ hread, hparse⟩
  have hboard : n.board.isBusy = true := (Bool.or_eq_true_iff.mp hb).elim h.board fun hboard => hboard
  simp only [step, attend, hc, ha, if_true, Attendant.serve_reading, hrequest, hboard]
  refine (told_carryOut _ _ _).trans (congrArg _ ?_)
  rw [told_receive]
  simp only [List.flatMap_cons, List.flatMap_nil, List.append_nil, Reception.Effect.told, hid]
  exact Effect.toCaller_eq_self Effect.caller?_of_mem_refusal

theorem told_attend_dropped (h : n.Sound) (ha : n.client.isAttending = true)
    (hm : n.Misspeaks id) :
    (n.step (.attend id)).told id = n.told id ++ [.close (.caller id)] := by
  obtain ⟨c, hc, hread⟩ := hm
  obtain ⟨hid, hsaid⟩ := h.attends id _ hc
  obtain ⟨cause, hfailed⟩ := Negotiation.readRequest_eq_failed_iff.mpr (hsaid ▸ hread)
  simp only [step, attend, hc, ha, if_true, Attendant.serve_reading, hfailed]
  refine (told_carryOut _ _ _).trans (congrArg _ ?_)
  rw [told_receive]
  simp only [List.flatMap_cons, List.flatMap_nil, List.append_nil, Reception.Effect.told, hid]
  exact Effect.toCaller_eq_self (by simp [Effect.caller?])

theorem told_drain (h : n.Sound) (hr : n.ready = false) (ht : n.client.task = .deciding name)
    {other : Call} (ho : other ∈ n.client.reception.queue) :
    (n.step .drain).told other.caller = n.told other.caller ++ Effect.refusal other.caller := by
  simp only [step, drain, ht, hr, Bool.false_eq_true, if_false]
  refine (told_carryOut _ _ _).trans (congrArg _ ?_)
  rw [h.attentive.bare.denyQueued_eq, told_receive, List.flatMap_map]
  have htold := Effect.toCaller_flatMap other.caller
    (fun _ => Effect.caller?_of_mem_refusal) h.attentive.nodup
  rw [if_pos (List.mem_map_of_mem ho), List.flatMap_map] at htold
  exact htold

/-- Whoever is turned away at a step has seen all there is to see, and is never put to the user. -/
theorem turned_away (h : n.Sound) (h₀ : n.standing id = .absent) (hn : n.told id = [])
    {before after : List Step} (hs : steps = before ++ s :: after) {out : List Effect}
    (hearly : (n.run before).told id = [] ∧ ((n.run before).standing id).rank ≤ 3)
    (htold : ((n.run before).step s).told id = (n.run before).told id ++ out)
    (hout : out = Effect.refusal id ∨ out = [.close (.caller id)]) :
    (n.run steps).told id = out ∧ n.NeverPut steps id := by
  have hstart : (n.standing id).Tells id (n.told id) := by rw [h₀, hn]; rfl
  have htells := h.tells_run hstart (before ++ [s])
  rw [hearly.1, List.nil_append, ← run_concat] at htold
  rw [htold] at htells
  have hgone := standing_of_tells htells hout
  refine ⟨?_, neverPut h hs hearly.2 hgone⟩
  have hrun := ((h.run (before ++ [s])).gone_run hgone after).2
  rw [← run_append, List.append_assoc, List.singleton_append, ← hs] at hrun
  exact hrun.trans htold

/-- **Every caller is answered at most once, and accepted only by the user.**  Whatever comes on how many
connections, whatever else the client meets with and whatever is typed: each caller gets nothing but
perhaps the end, or one denial and the end, or one acceptance; whoever is accepted had a request as the
first line, came with it while the client was not busy, and was put to the user, whose first answer that
can be recognised was a yes; the next is accepted only when that connection has been closed.  A request
that is found complete while the client is busy is denied, whatever else comes first is dropped, and who
is in the queue when another is put to the user is denied; none of them is ever put to the user. -/
theorem callers_answered (settings : Settings) (entropy : Entropy) (steps : List Step) :
    let n := start settings entropy
    (∀ id, Answered id ((n.run steps).told id)) ∧
    (∀ id, .send (.caller id) (Negotiation.answer true) ∈ (n.run steps).log →
      n.AcceptedByUser steps id) ∧
    (∀ a b first between last, (n.run steps).log =
        first ++ .send (.caller a) (Negotiation.answer true) ::
          (between ++ .send (.caller b) (Negotiation.answer true) :: last) →
      .close (.caller a) ∈ between) ∧
    ∀ before s after, steps = before ++ s :: after →
      (∀ id name, s = .attend id → (n.run before).client.isAttending = true →
        (n.run before).Requests id name → (n.run before).isBusy = true →
        (n.run steps).told id =
            [.send (.caller id) (Negotiation.answer false), .close (.caller id)] ∧
          n.NeverPut steps id) ∧
      (∀ id, s = .attend id → (n.run before).client.isAttending = true →
        (n.run before).Misspeaks id →
        (n.run steps).told id = [.close (.caller id)] ∧ n.NeverPut steps id) ∧
      (∀ call later, (n.run before).puts? s = some call →
        (n.run before).client.reception.queue = call :: later → ∀ other ∈ later,
        (n.run steps).told other.caller =
            [.send (.caller other.caller) (Negotiation.answer false), .close (.caller other.caller)] ∧
          n.NeverPut steps other.caller) ∧
      (∀ name, s = .drain → (n.run before).ready = false →
        (n.run before).client.task = .deciding name →
        ∀ other ∈ (n.run before).client.reception.queue,
        (n.run steps).told other.caller =
            [.send (.caller other.caller) (Negotiation.answer false), .close (.caller other.caller)] ∧
          n.NeverPut steps other.caller) := by
  intro n
  have h : n.Sound := sound_start settings entropy
  have h₀ : ∀ id, n.standing id = .absent := standing_start settings entropy
  have hn : ∀ id, n.told id = [] := told_start settings entropy
  have htells : ∀ before id, ((n.run before).standing id).Tells id ((n.run before).told id) :=
    fun before id => h.tells_run (by rw [h₀, hn]; rfl) before
  refine ⟨fun id => answered_of_tells (htells steps id), ?_, ?_, ?_⟩
  · exact fun id ha => acceptedByUser_of_told h (h₀ id) (hn id) (mem_told_acceptance.mpr ha)
  · exact fun a b first between last hlog => closed_between h h₀ hn hlog
  · intro before s after hs
    have hsound := h.run before
    have hqueued : ∀ other ∈ (n.run before).client.reception.queue,
        (n.run before).told other.caller = [] ∧
          ((n.run before).standing other.caller).rank ≤ 3 := by
      intro other ho
      obtain ⟨name, hq⟩ := hsound.standing_of_queued ho
      have ht := htells before other.caller
      rw [hq] at ht ⊢
      exact ⟨ht, Nat.le_refl 3⟩
    refine ⟨?_, ?_, ?_, ?_⟩
    · rintro id name rfl hattending hr hb
      have hearly := told_of_reading hr.choose_spec.choose_spec.choose_spec.1 (htells before id)
      exact turned_away h (h₀ id) (hn id) hs hearly (told_attend_denied hsound hattending hr hb)
        (.inl rfl)
    · rintro id rfl hattending hm
      have hearly := told_of_reading hm.choose_spec.1 (htells before id)
      exact turned_away h (h₀ id) (hn id) hs hearly (told_attend_dropped hsound hattending hm)
        (.inr rfl)
    · intro call later hputs hq other ho
      have hmem : other ∈ (n.run before).client.reception.queue := hq ▸ List.mem_cons_of_mem _ ho
      have hne : other.caller ≠ call.caller := by
        have hnodup := hsound.attentive.nodup
        rw [hq, List.map_cons, List.nodup_cons] at hnodup
        exact fun he => hnodup.1 (he ▸ List.mem_map_of_mem ho)
      have htold := ((hsound.course_of_puts hputs hmem).resolve_left fun hsame => hne hsame.1).2.2
      exact turned_away h (h₀ _) (hn _) hs (hqueued other hmem) htold (.inl rfl)
    · rintro name rfl hready ht other ho
      exact turned_away h (h₀ _) (hn _) hs (hqueued other ho) (told_drain hsound hready ht ho)
        (.inl rfl)

/-- Each of these, and then the turn is over. -/
def oneByOne (world : List Incident) : List Step := world.flatMap fun x => [.meet x, .rest]

/-- Bob calls Alice, and Carol does while Alice is asked about Bob; the first answer says neither yes nor
no. -/
def bobAndCarol : List Step :=
  oneByOne [.act (.event (.listening 6001)), .act (.event .serverConnected),
    .act (.event (.serverSent (Line.write "PEER_LIST"))), .act (.move .server), .act (.move .own)] ++
  [.connect (.v4 127 0 0 1), .arrive 0 (Negotiation.request "bob") false, .attend 0, .attend 0] ++
  oneByOne [.act (.move .calls)] ++
  [.connect (.v4 127 0 0 1), .arrive 1 (Negotiation.request "carol") false, .attend 1] ++
  oneByOne [.act (.event (.typed "perhaps")), .act (.event (.typed "Yes")), .act (.move .keyboard),
    .act (.move .keyboard)]

theorem callers_answered_bobAndCarol :
    let n := start { name := some "alice", port := some 6001 } []
    (n.run bobAndCarol).told 0 = [.send (.caller 0) (Negotiation.answer true)] ∧
      (n.run bobAndCarol).told 1 =
        [.send (.caller 1) (Negotiation.answer false), .close (.caller 1)] ∧
      Answered 0 ((n.run bobAndCarol).told 0) ∧ n.AcceptedByUser bobAndCarol 0 := by
  intro n
  have htold : (n.run bobAndCarol).told 0 = [.send (.caller 0) (Negotiation.answer true)] := by
    decide +kernel
  obtain ⟨hanswered, haccepted, -⟩ :=
    callers_answered { name := some "alice", port := some 6001 } [] bobAndCarol
  refine ⟨htold, by decide +kernel, hanswered 0, haccepted 0 ?_⟩
  have hmem : .send (.caller 0) (Negotiation.answer true) ∈ (n.run bobAndCarol).told 0 := by
    rw [htold]
    exact List.mem_cons_self
  exact (List.mem_filter.mp hmem).1

end Lobby

end PeerChat
