import PeerChat.Proofs.Crowd.Losses

/-!
# The terms on which a client and its handler are

Whatever a client has sent, its handler will take as it comes to it (`Served`), and whatever the handler
has said, or is about to say, the client knows what to do with (`Terms`).  A handler that is about to end
the connection is excused from both.
-/

namespace PeerChat

/-- The commands that a handler takes in a phase of its connection. -/
def Phase.Allows : Phase → Command → Prop
  | .registering, .register _ _ => True
  | .registered _, .listPeers => True
  | .registered _, .remove _ => True
  | .registered _, .reportGone _ => True
  | _, _ => False

/-- The handler will not read from its connection any more. -/
def Doomed (phase : Phase) (jobs : List Job) : Prop := phase = .closed ∨ .forget ∈ jobs

section Doomed

variable {phase : Phase} {job : Job} {jobs : List Job}

theorem doomed_closing (phase : Phase) (jobs : List Job) : Doomed phase (jobs ++ Server.closing) :=
  .inr (List.mem_append_right _ (by simp [Server.closing]))

theorem Doomed.tail (h : Doomed phase (job :: jobs)) (hj : job ≠ .forget) : Doomed phase jobs :=
  h.imp_right fun hm => (List.mem_cons.mp hm).resolve_left hj.symm

theorem not_doomed_nil (h : phase ≠ .closed) : ¬ Doomed phase [] := by
  rintro (hc | hm)
  · exact h hc
  · exact absurd hm List.not_mem_nil

theorem Job.replies_append_closing (jobs : List Job) :
    Job.replies (jobs ++ Server.closing) = Job.replies jobs := by
  rw [Job.replies, List.filterMap_append]
  exact List.append_nil _

end Doomed

/-! ## What a client has sent -/

/-- The handler takes the commands as it comes to them: one registration, once nothing else is to be
done, or whatever a registered client can say. -/
def Takes (phase : Phase) (jobs : List Job) (commands : List Command) : Prop :=
  (∀ c ∈ commands, phase.Allows c) ∧
    (phase = .registering → commands = [] ∨ jobs = [] ∧ commands.length = 1)

/-- A connection of a client: what of it has not been read, what its handler is still to do, and what it
has been told. -/
structure Served (phase : Phase) (up : Bytes) (jobs : List Job) (told : List ServerMessage) : Prop where
  sent : ∃ commands, up = Command.bytesAll commands ∧ (∀ c ∈ commands, c.Valid) ∧
    (Doomed phase jobs ∨ Takes phase jobs commands)
  pending : .invalidCommand ∉ Job.replies jobs
  answered : .invalidCommand ∉ told

namespace Served

variable {phase phase' : Phase} {up : Bytes} {jobs jobs' : List Job} {told told' : List ServerMessage}

theorem of_nil (hp : .invalidCommand ∉ Job.replies jobs) (ha : .invalidCommand ∉ told) :
    Served phase [] jobs told :=
  ⟨⟨[], rfl, by simp, .inr ⟨by simp, fun _ => .inl rfl⟩⟩, hp, ha⟩

/-- The handler goes on with its jobs. -/
theorem works (h : Served phase up jobs told) (hd : Doomed phase jobs → Doomed phase' jobs')
    (hj : Doomed phase' jobs' ∨ phase' = phase ∧ jobs ≠ [])
    (hp : .invalidCommand ∉ Job.replies jobs') (ha : .invalidCommand ∉ told') :
    Served phase' up jobs' told' := by
  obtain ⟨commands, hup, hvalid, htakes⟩ := h.sent
  refine ⟨⟨commands, hup, hvalid, ?_⟩, hp, ha⟩
  rcases hj with hj | ⟨rfl, hne⟩
  · exact .inl hj
  · refine htakes.imp hd fun ht => ⟨ht.1, fun hphase => .inl ?_⟩
    exact (ht.2 hphase).resolve_right fun hnil => hne hnil.1

/-- A client that is or was registered says something. -/
theorem sends (h : Served phase up jobs told) {more : List Command} (hv : ∀ c ∈ more, c.Valid)
    (hm : Doomed phase jobs ∨ ∃ own, phase = .registered own ∧ ∀ c ∈ more, phase.Allows c) :
    Served phase (up ++ Command.bytesAll more) jobs told := by
  obtain ⟨commands, hup, hvalid, htakes⟩ := h.sent
  refine ⟨⟨commands ++ more, ?_, List.forall_mem_append.mpr ⟨hvalid, hv⟩, ?_⟩, h.pending, h.answered⟩
  · rw [hup, Command.bytesAll_append]
  · rcases hm with hm | ⟨own, hphase, hm⟩
    · exact .inl hm
    · refine htakes.imp_right fun ht => ⟨List.forall_mem_append.mpr ⟨ht.1, hm⟩, fun hr => ?_⟩
      exact absurd (hphase.symm.trans hr) (by simp)

/-- A client that nothing has been asked of registers. -/
theorem registers (h : Served phase up jobs told) {name : String} {port : UInt16}
    (hv : (Command.register name port).Valid)
    (hi : Doomed phase jobs ∨ phase = .registering ∧ up = [] ∧ jobs = []) :
    Served phase (up ++ Command.bytesAll [.register name port]) jobs told := by
  have hvalid : ∀ c ∈ [Command.register name port], c.Valid := by
    intro c hc
    rw [List.mem_singleton.mp hc]
    exact hv
  rcases hi with hd | ⟨rfl, rfl, rfl⟩
  · exact h.sends hvalid (.inl hd)
  · refine ⟨⟨[.register name port], List.nil_append _, hvalid, .inr ⟨fun c hc => ?_, ?_⟩⟩,
      h.pending, h.answered⟩
    · rw [List.mem_singleton.mp hc]
      trivial
    · exact fun _ => .inr ⟨rfl, rfl⟩

/-- The next thing that a handler reads. -/
theorem next (h : Served phase up [] told) (ho : phase ≠ .closed) :
    up = [] ∨ ∃ command later, up = command.bytes ++ Command.bytesAll later ∧ command.Valid ∧
      phase.Allows command ∧ (∀ c ∈ later, c.Valid) ∧ Takes phase [] later ∧
        (phase = .registering → later = []) := by
  obtain ⟨commands, hup, hvalid, htakes⟩ := h.sent
  have ht := htakes.resolve_left (not_doomed_nil ho)
  cases commands with
  | nil => exact .inl hup
  | cons command later =>
    obtain ⟨hc, hl⟩ := List.forall_mem_cons.mp hvalid
    obtain ⟨ha, hlater⟩ := List.forall_mem_cons.mp ht.1
    have hone : phase = .registering → later = [] := by
      intro hr
      have hlength := ((ht.2 hr).resolve_left (by simp)).2
      exact List.eq_nil_of_length_eq_zero (by simpa using hlength)
    exact .inr ⟨command, later, hup, hc, ha, hl, ⟨hlater, fun hr => .inl (hone hr)⟩, hone⟩

/-- A registered client's command has been read. -/
theorem of_takes {own : String} {later : List Command} (hv : ∀ c ∈ later, c.Valid)
    (ht : Takes (.registered own) [] later) (hp : .invalidCommand ∉ Job.replies jobs)
    (ha : .invalidCommand ∉ told) : Served (.registered own) (Command.bytesAll later) jobs told :=
  ⟨⟨later, rfl, hv, .inr ⟨ht.1, fun hr => absurd hr (by simp)⟩⟩, hp, ha⟩

end Served

/-! ## What a client is told -/

namespace Inbox.Sees

variable {i : Inbox} {as : List Announcement} {coming : Bytes}

/-- A message is queued, of which nothing comes behind the end of the stream. -/
theorem queue (h : i.Sees as coming) {m : ServerMessage} (hm : m.Valid) :
    i.ended = true ∧ i.Sees as (coming ++ Utf8.encode m.text) ∨
      i.ended = false ∧ i.Sees (as ++ m.announcements) (coming ++ Utf8.encode m.text) := by
  rcases Bool.eq_false_or_eq_true i.ended with he | he
  · exact .inl ⟨he, h.of_ended he⟩
  · exact .inr ⟨he, h.extend he hm⟩

theorem notice (front : List Announcement) {names : List String}
    (h : i.Sees (front ++ notices names) coming) {name : String} (hn : isName name = true) :
    ∃ later, i.Sees (front ++ notices later)
      (coming ++ Utf8.encode (ServerMessage.newcomer name).text) := by
  rcases h.queue (ServerMessage.valid_newcomer hn) with ⟨-, hs⟩ | ⟨-, hs⟩
  · exact ⟨names, hs⟩
  · rw [List.append_assoc] at hs
    exact ⟨names ++ [name], by rw [notices_append]; exact hs⟩

/-- After a failure the inbox comes either to the notices alone, or also to what is behind them. -/
theorem fail_notices {names : List String} {a : Announcement} {later : List Announcement}
    (h : i.Sees (notices names ++ a :: later) coming) :
    (∃ left, i.fail.Sees (notices left) []) ∨
      ∃ done, done <+: later ∧ i.fail.Sees (notices names ++ a :: done) [] := by
  obtain ⟨whole, hwhole, hsees⟩ : ∃ whole, whole <+: notices names ++ a :: later ∧
      i.fail.Sees whole [] := h.fail
  have hfront : notices names ++ [a] <+: notices names ++ a :: later :=
    (List.prefix_append_right_inj _).mpr (List.prefix_append [a] later)
  rcases List.prefix_or_prefix_of_prefix hwhole hfront with hshort | ⟨done, rfl⟩
  · rcases List.prefix_concat_iff.mp hshort with rfl | hshort
    · exact .inr ⟨[], List.nil_prefix, hsees⟩
    · obtain ⟨left, -, rfl⟩ := List.prefix_map_iff.mp hshort
      exact .inl ⟨left, hsees⟩
  · rw [List.append_assoc] at hwhole hsees
    have hdone := (List.prefix_append_right_inj _).mp hwhole
    exact .inr ⟨done, (List.cons_prefix_cons.mp hdone).2, hsees⟩

end Inbox.Sees

/-- Where a client stands that holds a connection, with what its handler is still to do, and what is
coming.  A client whose stream has ended before the reply is `cut` off: it will find that out, whatever
its handler does. -/
inductive Terms (phase : Phase) (up : Bytes) (jobs : List Job) (coming : Bytes) : Stand → Prop
  | choosing {inbox : Inbox} {names : List String} (sees : inbox.Sees (notices names) coming)
      (pending : Job.replies jobs = [])
      (handler : Doomed phase jobs ∨ phase = .registering ∧ up = [] ∧ jobs = []) :
      Terms phase up jobs coming (.choosing inbox)
  /-- The registration is on its way. -/
  | asked {name : String} {inbox : Inbox} {names : List String} (sees : inbox.Sees (notices names) coming)
      (pending : Job.replies jobs = [])
      (handler : Doomed phase jobs ∨ phase = .registering ∧ up ≠ [] ∧ jobs = []) :
      Terms phase up jobs coming (.signing name inbox)
  | refusing {name : String} {inbox : Inbox} {names : List String} {m : ServerMessage}
      (refuses : m.Refuses) (sees : inbox.Sees (notices names) coming) (pending : Job.replies jobs = [m])
      (handler : Doomed phase jobs ∨ phase = .registering ∧ up = [] ∧ jobs = [.reply m]) :
      Terms phase up jobs coming (.signing name inbox)
  /-- The refusal is on its way. -/
  | refused {name : String} {inbox : Inbox} {names later : List String} {m : ServerMessage}
      (refuses : m.Refuses)
      (sees : inbox.Sees (notices names ++ m.announcements ++ notices later) coming)
      (pending : Job.replies jobs = [])
      (handler : Doomed phase jobs ∨ phase = .registering ∧ up = [] ∧ jobs = []) :
      Terms phase up jobs coming (.signing name inbox)
  | admitting {name : String} {inbox : Inbox} {names : List String} {others : List Peer}
      (valid : ∀ p ∈ others, p.Valid) (sees : inbox.Sees (notices names) coming)
      (pending : Job.replies jobs = [.peerList others])
      (handler : Doomed phase jobs ∨ up = [] ∧ ∃ own, phase = .registered own) :
      Terms phase up jobs coming (.signing name inbox)
  /-- The first list is on its way. -/
  | admitted {name : String} {inbox : Inbox} {names : List String} {as : List Announcement}
      (sees : inbox.Sees (notices names ++ .listHeader :: as) coming)
      (ordinary : ∀ u ∈ (Listing.opened.pushAll as).2, u.Ordinary) (pending : Job.replies jobs = [])
      (handler : Doomed phase jobs ∨ up = [] ∧ ∃ own, phase = .registered own) :
      Terms phase up jobs coming (.signing name inbox)
  | cut {name : String} {inbox : Inbox} {names : List String} (ended : inbox.ended = true)
      (sees : inbox.Sees (notices names) []) : Terms phase up jobs coming (.signing name inbox)
  | linked {l : Link} (hears : l.Hears coming)
      (pending : ∀ m ∈ Job.replies jobs, m.isList = true ∧ m.Valid)
      (handler : Doomed phase jobs ∨ ∃ own, phase = .registered own) :
      Terms phase up jobs coming (.linked l)

namespace Terms

variable {phase phase' : Phase} {up up' : Bytes} {job : Job} {jobs jobs' : List Job}
  {coming coming' : Bytes} {stand : Stand}

theorem stand_ne (h : Terms phase up jobs coming stand) : stand ≠ .apart ∧ stand ≠ .reaching := by
  cases h <;> simp

/-! ### What the handler does -/

/-- Another handler queues its notice. -/
theorem notice (h : Terms phase up jobs coming stand) {name : String} (hn : isName name = true) :
    Terms phase up jobs (coming ++ Utf8.encode (ServerMessage.newcomer name).text) stand := by
  have hvalid := ServerMessage.valid_newcomer hn
  cases h with
  | choosing sees pending handler =>
    obtain ⟨names, hs⟩ := sees.notice [] hn
    exact .choosing hs pending handler
  | asked sees pending handler =>
    obtain ⟨names, hs⟩ := sees.notice [] hn
    exact .asked hs pending handler
  | refusing refuses sees pending handler =>
    obtain ⟨names, hs⟩ := sees.notice [] hn
    exact .refusing refuses hs pending handler
  | refused refuses sees pending handler =>
    obtain ⟨names, hs⟩ := sees.notice _ hn
    exact .refused refuses hs pending handler
  | admitting valid sees pending handler =>
    obtain ⟨names, hs⟩ := sees.notice [] hn
    exact .admitting valid hs pending handler
  | @admitted _ inbox names as sees ordinary pending handler =>
    rcases sees.queue hvalid with ⟨-, hs⟩ | ⟨-, hs⟩
    · exact .admitted hs ordinary pending handler
    · rw [List.append_assoc] at hs
      have hs : inbox.Sees (notices names ++ .listHeader :: (as ++ [.newcomer name]))
          (coming ++ Utf8.encode (ServerMessage.newcomer name).text) := hs
      refine .admitted hs ?_ pending handler
      rw [Listing.pushAll_append]
      exact List.forall_mem_append.mpr
        ⟨ordinary, Listing.ordinary_announcements _ (.inr ⟨name, rfl⟩)⟩
  | cut ended sees => exact .cut ended sees
  | linked hears pending handler => exact .linked (hears.extend hvalid (.inr ⟨name, rfl⟩)) pending handler

/-- The handler queues its reply. -/
theorem answer {m : ServerMessage} (h : Terms phase up (.reply m :: jobs) coming stand) :
    Terms phase up jobs (coming ++ Utf8.encode m.text) stand := by
  have htail : Doomed phase (.reply m :: jobs) → Doomed phase jobs := fun hd => hd.tail (by simp)
  have hreplies : Job.replies (.reply m :: jobs) = m :: Job.replies jobs := rfl
  cases h with
  | choosing sees pending handler => exact absurd (hreplies.symm.trans pending) (by simp)
  | asked sees pending handler => exact absurd (hreplies.symm.trans pending) (by simp)
  | @refusing _ inbox names _ refuses sees pending handler =>
    obtain ⟨rfl, hnone⟩ := List.cons.inj (hreplies.symm.trans pending)
    rcases sees.queue refuses.valid with ⟨he, -⟩ | ⟨-, hs⟩
    · exact .cut he (sees.of_ended he)
    · rw [← List.append_nil (notices names ++ m.announcements)] at hs
      have hs : inbox.Sees (notices names ++ m.announcements ++ notices [])
          (coming ++ Utf8.encode m.text) := hs
      refine .refused refuses hs hnone (handler.imp htail fun ⟨hp, hu, hj⟩ => ?_)
      exact ⟨hp, hu, (List.cons.inj hj).2⟩
  | refused refuses sees pending handler => exact absurd (hreplies.symm.trans pending) (by simp)
  | @admitting _ inbox names others valid sees pending handler =>
    obtain ⟨rfl, hnone⟩ := List.cons.inj (hreplies.symm.trans pending)
    rcases sees.queue (ServerMessage.valid_peerList valid) with ⟨he, -⟩ | ⟨-, hs⟩
    · exact .cut he (sees.of_ended he)
    · have hs : inbox.Sees (notices names ++ .listHeader :: others.map .peer)
          (coming ++ Utf8.encode (ServerMessage.peerList others).text) := hs
      refine .admitted hs ?_ hnone (handler.imp_left htail)
      have hlist := Listing.ordinary_announcements .opened (m := .peerList others) (.inl rfl)
      exact fun u hu => hlist u (List.mem_cons_of_mem _ hu)
  | admitted sees ordinary pending handler => exact absurd (hreplies.symm.trans pending) (by simp)
  | cut ended sees => exact .cut ended sees
  | linked hears pending handler =>
    rw [hreplies] at pending
    obtain ⟨⟨hlist, hvalid⟩, hrest⟩ := List.forall_mem_cons.mp pending
    exact .linked (hears.extend hvalid (.inl hlist)) hrest (handler.imp_left htail)

/-- The handler will end the connection, with the same left to say. -/
theorem doomed (h : Terms phase up jobs coming stand) (hd : Doomed phase' jobs')
    (hr : Job.replies jobs' = Job.replies jobs) : Terms phase' up' jobs' coming stand := by
  cases h with
  | choosing sees pending handler => exact .choosing sees (hr.trans pending) (.inl hd)
  | asked sees pending handler => exact .asked sees (hr.trans pending) (.inl hd)
  | refusing refuses sees pending handler => exact .refusing refuses sees (hr.trans pending) (.inl hd)
  | refused refuses sees pending handler => exact .refused refuses sees (hr.trans pending) (.inl hd)
  | admitting valid sees pending handler => exact .admitting valid sees (hr.trans pending) (.inl hd)
  | admitted sees ordinary pending handler =>
    exact .admitted sees ordinary (hr.trans pending) (.inl hd)
  | cut ended sees => exact .cut ended sees
  | linked hears pending handler => exact .linked hears (hr ▸ pending) (.inl hd)

/-- The handler goes on with another job than a reply. -/
theorem works (h : Terms phase up (job :: jobs) coming stand) (hj : ∀ m, job ≠ .reply m)
    (hr : Job.replies jobs' = Job.replies (job :: jobs))
    (hf : .forget ∈ job :: jobs → .forget ∈ jobs') : Terms phase up jobs' coming stand := by
  have hd : Doomed phase (job :: jobs) → Doomed phase jobs' := Or.imp_right hf
  cases h with
  | choosing sees pending handler =>
    exact .choosing sees (hr.trans pending) (.inl (hd (handler.resolve_right (by simp))))
  | asked sees pending handler =>
    exact .asked sees (hr.trans pending) (.inl (hd (handler.resolve_right (by simp))))
  | refusing refuses sees pending handler =>
    refine .refusing refuses sees (hr.trans pending) (.inl (hd (handler.resolve_right ?_)))
    exact fun ⟨_, _, he⟩ => hj _ (List.cons.inj he).1
  | refused refuses sees pending handler =>
    exact .refused refuses sees (hr.trans pending) (.inl (hd (handler.resolve_right (by simp))))
  | admitting valid sees pending handler =>
    exact .admitting valid sees (hr.trans pending) (handler.imp_left hd)
  | admitted sees ordinary pending handler =>
    exact .admitted sees ordinary (hr.trans pending) (handler.imp_left hd)
  | cut ended sees => exact .cut ended sees
  | linked hears pending handler => exact .linked hears (hr ▸ pending) (handler.imp_left hd)

/-- The handler cannot reply. -/
theorem spurns {m : ServerMessage} (h : Terms phase up (.reply m :: jobs) coming stand) :
    Terms phase up (jobs ++ Server.closing) coming stand := by
  have hd := doomed_closing phase jobs
  have hr := Job.replies_append_closing jobs
  have hreplies : Job.replies (.reply m :: jobs) = m :: Job.replies jobs := rfl
  cases h with
  | choosing sees pending handler => exact absurd (hreplies.symm.trans pending) (by simp)
  | asked sees pending handler => exact absurd (hreplies.symm.trans pending) (by simp)
  | refusing refuses sees pending handler =>
    exact .asked sees (hr.trans (List.cons.inj (hreplies.symm.trans pending)).2) (.inl hd)
  | refused refuses sees pending handler => exact absurd (hreplies.symm.trans pending) (by simp)
  | admitting valid sees pending handler =>
    exact .asked sees (hr.trans (List.cons.inj (hreplies.symm.trans pending)).2) (.inl hd)
  | admitted sees ordinary pending handler => exact absurd (hreplies.symm.trans pending) (by simp)
  | cut ended sees => exact .cut ended sees
  | linked hears pending handler =>
    refine .linked hears ?_ (.inl hd)
    rw [hr]
    rw [hreplies] at pending
    exact (List.forall_mem_cons.mp pending).2

/-- A registration is read: it is refused, or it enters the client. -/
theorem registers (h : Terms .registering up [] coming stand) (hup : up ≠ []) :
    (∀ m, m.Refuses → Terms .registering [] [.reply m] coming stand) ∧
      ∀ name others, (∀ p ∈ others, p.Valid) → Terms (.registered name) []
        [.reply (.peerList others), .announce (.newcomer name)] coming stand := by
  have hopen : ¬ Doomed .registering [] := not_doomed_nil (by simp)
  cases h with
  | choosing sees pending handler => exact absurd (handler.resolve_left hopen).2.1 hup
  | asked sees pending handler =>
    exact ⟨fun m hm => .refusing hm sees rfl (.inr ⟨rfl, rfl, rfl⟩),
      fun name others hv => .admitting hv sees rfl (.inr ⟨rfl, name, rfl⟩)⟩
  | refusing refuses sees pending handler => exact absurd pending (by simp [Job.replies])
  | refused refuses sees pending handler => exact absurd (handler.resolve_left hopen).2.1 hup
  | admitting valid sees pending handler => exact absurd pending (by simp [Job.replies])
  | admitted sees ordinary pending handler => exact absurd (handler.resolve_left hopen).1 hup
  | cut ended sees => exact ⟨fun m hm => .cut ended sees, fun name others hv => .cut ended sees⟩
  | linked hears pending handler =>
    obtain ⟨own, hown⟩ := handler.resolve_left hopen
    exact absurd hown (by simp)

/-- Something that a registered client says is read, and answered with a list if at all. -/
theorem reads {own : String} (h : Terms (.registered own) up [] coming stand) (hup : up ≠ [])
    (hj : ∀ m ∈ Job.replies jobs, m.isList = true ∧ m.Valid) :
    Terms (.registered own) up' jobs coming stand := by
  have hopen : ¬ Doomed (.registered own) [] := not_doomed_nil (by simp)
  cases h with
  | choosing sees pending handler => exact absurd (handler.resolve_left hopen).1 (by simp)
  | asked sees pending handler => exact absurd (handler.resolve_left hopen).1 (by simp)
  | refusing refuses sees pending handler => exact absurd pending (by simp [Job.replies])
  | refused refuses sees pending handler => exact absurd (handler.resolve_left hopen).1 (by simp)
  | admitting valid sees pending handler => exact absurd pending (by simp [Job.replies])
  | admitted sees ordinary pending handler => exact absurd (handler.resolve_left hopen).1 hup
  | cut ended sees => exact .cut ended sees
  | linked hears pending handler => exact .linked hears hj (.inr ⟨own, rfl⟩)

/-! ### What the client finds -/

theorem receive {bytes rest : Bytes} (h : Terms phase up jobs (bytes ++ rest) stand)
    (he : stand.hasEnd = false) : Terms phase up jobs rest (stand.receive bytes) := by
  generalize hc : bytes ++ rest = coming at h
  cases h with
  | choosing sees pending handler => exact .choosing ((hc ▸ sees).receive he) pending handler
  | asked sees pending handler => exact .asked ((hc ▸ sees).receive he) pending handler
  | refusing refuses sees pending handler =>
    exact .refusing refuses ((hc ▸ sees).receive he) pending handler
  | refused refuses sees pending handler =>
    exact .refused refuses ((hc ▸ sees).receive he) pending handler
  | admitting valid sees pending handler =>
    exact .admitting valid ((hc ▸ sees).receive he) pending handler
  | admitted sees ordinary pending handler =>
    exact .admitted ((hc ▸ sees).receive he) ordinary pending handler
  | cut ended sees => exact absurd (ended.symm.trans he) (by simp)
  | linked hears pending handler => exact .linked ((hc ▸ hears).receive he) pending handler

/-- The client finds the end of a connection of which nothing is still to come. -/
theorem finish (h : Terms phase up jobs [] stand) :
    Terms phase up jobs coming (stand.map Inbox.serverEnded Link.serverEnded) := by
  cases h with
  | choosing sees pending handler => exact .choosing sees.serverEnded pending handler
  | asked sees pending handler => exact .asked sees.serverEnded pending handler
  | refusing refuses sees pending handler => exact .refusing refuses sees.serverEnded pending handler
  | refused refuses sees pending handler => exact .refused refuses sees.serverEnded pending handler
  | admitting valid sees pending handler => exact .admitting valid sees.serverEnded pending handler
  | admitted sees ordinary pending handler =>
    exact .admitted sees.serverEnded ordinary pending handler
  | cut ended sees => exact .cut rfl sees.serverEnded
  | linked hears pending handler => exact .linked hears.serverEnded pending handler

/-- The client can read no more. -/
theorem fail (h : Terms phase up jobs coming stand) :
    Terms phase up jobs coming (stand.map Inbox.fail Link.fail) := by
  have hnotices : ∀ {i : Inbox} {names : List String}, i.Sees (notices names) coming →
      ∃ left, i.fail.Sees (notices left) coming := by
    intro i names hs
    obtain ⟨done, hdone, hd⟩ := hs.fail
    obtain ⟨left, -, rfl⟩ := List.prefix_map_iff.mp hdone
    exact ⟨left, hd⟩
  cases h with
  | choosing sees pending handler =>
    obtain ⟨left, hs⟩ := hnotices sees
    exact .choosing hs pending handler
  | asked sees pending handler =>
    obtain ⟨left, hs⟩ := hnotices sees
    exact .asked hs pending handler
  | refusing refuses sees pending handler =>
    obtain ⟨left, hs⟩ := hnotices sees
    exact .refusing refuses hs pending handler
  | @refused _ inbox names later m refuses sees pending handler =>
    obtain ⟨a, outcome, ha, -, -⟩ := refuses.announcement
    rw [ha, List.append_assoc] at sees
    rcases sees.fail_notices with ⟨left, hs⟩ | ⟨done, hdone, hs⟩
    · exact .cut rfl hs
    · obtain ⟨left, -, rfl⟩ := List.prefix_map_iff.mp hdone
      have hs : inbox.fail.Sees (notices names ++ m.announcements ++ notices left) [] := by
        rw [ha, List.append_assoc]
        exact hs
      exact .refused refuses (hs.of_ended rfl) pending handler
  | admitting valid sees pending handler =>
    obtain ⟨left, hs⟩ := hnotices sees
    exact .admitting valid hs pending handler
  | admitted sees ordinary pending handler =>
    rcases sees.fail_notices with ⟨left, hs⟩ | ⟨done, ⟨later, rfl⟩, hs⟩
    · exact .cut rfl hs
    · rw [Listing.pushAll_append] at ordinary
      exact .admitted (hs.of_ended rfl) (List.forall_mem_append.mp ordinary).1 pending handler
  | cut ended sees =>
    obtain ⟨left, hs⟩ := hnotices (sees.of_ended ended)
    exact .cut rfl (hs.of_ended rfl)
  | linked hears pending handler => exact .linked hears.fail pending handler

/-! ### What the client does -/

/-- The client tries a name. -/
theorem offers {inbox : Inbox} (h : Terms phase up jobs coming (.choosing inbox)) (name : String)
    (port : UInt16) : Terms phase (up ++ Command.bytesAll [.register name port]) jobs coming
      (.signing name inbox) := by
  cases h with
  | choosing sees pending handler =>
    refine .asked sees pending (handler.imp_right fun ⟨hp, _, hj⟩ => ⟨hp, fun hnil => ?_, hj⟩)
    exact absurd (Command.bytesAll_eq_nil (List.append_eq_nil_iff.mp hnil).2) (by simp)

/-- A connection on which nothing has been asked, whatever its handler does. -/
theorem handler_of_choosing {inbox : Inbox} (h : Terms phase up jobs coming (.choosing inbox)) :
    Doomed phase jobs ∨ phase = .registering ∧ up = [] ∧ jobs = [] := by
  cases h with
  | choosing sees pending handler => exact handler

theorem handler_of_linked {l : Link} (h : Terms phase up jobs coming (.linked l)) :
    Doomed phase jobs ∨ ∃ own, phase = .registered own := by
  cases h with
  | linked hears pending handler => exact handler

/-- A linked client has said something, or attended to something. -/
theorem speaks {l l' : Link} (h : Terms phase up jobs coming (.linked l))
    (hl : l.Hears coming → l'.Hears coming) : Terms phase up' jobs coming (.linked l') := by
  cases h with
  | linked hears pending handler => exact .linked (hl hears) pending handler

theorem hears {l : Link} (h : Terms phase up jobs coming (.linked l)) : l.Hears coming := by
  cases h with
  | linked hears pending handler => exact hears

/-- The client reads on, and finds no reply. -/
theorem waits {name : String} {inbox later : Inbox} (h : Terms phase up jobs coming (.signing name inbox))
    (hr : inbox.awaitReply = (none, later)) : Terms phase up jobs coming (.signing name later) := by
  have hnotices : ∀ {names : List String} {coming : Bytes}, inbox.Sees (notices names) coming →
      ∃ left, later.ended = inbox.ended ∧ later.Sees (notices left) coming := by
    intro names coming hs
    rw [← List.append_nil (notices names)] at hs
    rcases hs.awaitReply (by simp) with ⟨a, as, outcome, j, hnil, -⟩ | ⟨left, j, hj, he, hl⟩ |
      ⟨-, -, j, hj⟩
    · exact absurd hnil (by simp)
    · obtain ⟨-, rfl⟩ := Prod.mk.inj (hr.symm.trans hj)
      rw [List.append_nil] at hl
      exact ⟨left, he, hl⟩
    · exact absurd (Prod.mk.inj (hr.symm.trans hj)).1 (by simp)
  have hreply : ∀ {names : List String} {a : Announcement} {as : List Announcement},
      SignUp.ofAnnouncement a ≠ none → inbox.Sees (notices names ++ a :: as) coming →
        ∃ left, later.Sees (notices left ++ a :: as) coming := by
    intro names a as ha hs
    rcases hs.awaitReply (by simpa using ha) with ⟨b, bs, outcome, j, -, -, hj, -⟩ |
      ⟨left, j, hj, -, hl⟩ | ⟨hnil, -⟩
    · exact absurd (Prod.mk.inj (hr.symm.trans hj)).1 (by simp)
    · obtain ⟨-, rfl⟩ := Prod.mk.inj (hr.symm.trans hj)
      exact ⟨left, hl⟩
    · exact absurd hnil (by simp)
  cases h with
  | asked sees pending handler =>
    obtain ⟨left, -, hs⟩ := hnotices sees
    exact .asked hs pending handler
  | refusing refuses sees pending handler =>
    obtain ⟨left, -, hs⟩ := hnotices sees
    exact .refusing refuses hs pending handler
  | @refused _ _ names rest m refuses sees pending handler =>
    obtain ⟨a, outcome, ha, ho, -⟩ := refuses.announcement
    rw [ha, List.append_assoc] at sees
    obtain ⟨left, hs⟩ := hreply (by simp [ho]) sees
    have hs : later.Sees (notices left ++ m.announcements ++ notices rest) coming := by
      rw [ha, List.append_assoc]
      exact hs
    exact .refused refuses hs pending handler
  | admitting valid sees pending handler =>
    obtain ⟨left, -, hs⟩ := hnotices sees
    exact .admitting valid hs pending handler
  | admitted sees ordinary pending handler =>
    obtain ⟨left, hs⟩ := hreply (by simp [SignUp.ofAnnouncement]) sees
    exact .admitted hs ordinary pending handler
  | cut ended sees =>
    obtain ⟨left, he, hs⟩ := hnotices sees
    exact .cut (he.trans ended) hs

/-- The client finds a reply: it is registered, or can try another name, or is told that the server is
full, or that nothing more will come. -/
theorem replied {name : String} {inbox later : Inbox} {outcome : SignUp}
    (h : Terms phase up jobs coming (.signing name inbox))
    (hr : inbox.awaitReply = (some outcome, later)) :
    outcome = .registered ∧ Terms phase up jobs coming (.linked (.ofInbox name later)) ∨
      outcome = .nameTaken ∧ Terms phase up jobs coming (.choosing later) ∨
        outcome = .rejected .serverFull ∨ outcome = .failed .peerClosed := by
  have hclosed : ∀ {names : List String} {coming : Bytes}, inbox.Sees (notices names) coming →
      outcome = .failed .peerClosed := by
    intro names coming hs
    rw [← List.append_nil (notices names)] at hs
    rcases hs.awaitReply (by simp) with ⟨a, as, _, j, hnil, -⟩ | ⟨left, j, hj, -⟩ | ⟨-, -, j, hj⟩
    · exact absurd hnil (by simp)
    · exact absurd (Prod.mk.inj (hr.symm.trans hj)).1 (by simp)
    · exact Option.some.inj (Prod.mk.inj (hr.symm.trans hj)).1
  have hreply : ∀ (told : SignUp) {names : List String} {a : Announcement} {as : List Announcement},
      SignUp.ofAnnouncement a = some told → inbox.Sees (notices names ++ a :: as) coming →
        outcome = told ∧ later.Sees as coming := by
    intro told names a as ha hs
    rcases hs.awaitReply (by simp [ha]) with ⟨b, bs, _, j, he, hb, hj, -, hl⟩ | ⟨left, j, hj, -⟩ |
      ⟨hnil, -⟩
    · obtain ⟨rfl, rfl⟩ := List.cons.inj he
      obtain ⟨ho, rfl⟩ := Prod.mk.inj (hr.symm.trans hj)
      exact ⟨(Option.some.inj ho).trans (Option.some.inj (hb.symm.trans ha)), hl⟩
    · exact absurd (Prod.mk.inj (hr.symm.trans hj)).1 (by simp)
    · exact absurd hnil (by simp)
  cases h with
  | asked sees pending handler => exact .inr (.inr (.inr (hclosed sees)))
  | refusing refuses sees pending handler => exact .inr (.inr (.inr (hclosed sees)))
  | refused refuses sees pending handler =>
    rcases refuses with rfl | rfl
    · rw [List.append_assoc] at sees
      obtain ⟨ho, hs⟩ := hreply .nameTaken rfl sees
      exact .inr (.inl ⟨ho, .choosing hs pending handler⟩)
    · rw [List.append_assoc] at sees
      obtain ⟨ho, -⟩ := hreply (.rejected .serverFull) rfl sees
      exact .inr (.inr (.inl ho))
  | admitting valid sees pending handler => exact .inr (.inr (.inr (hclosed sees)))
  | admitted sees ordinary pending handler =>
    obtain ⟨ho, hs⟩ := hreply .registered rfl sees
    refine .inl ⟨ho, .linked (.ofInbox name hs ordinary) ?_ (handler.imp_right And.right)⟩
    rw [pending]
    exact fun m hm => absurd hm List.not_mem_nil
  | cut ended sees => exact .inr (.inr (.inr (hclosed sees)))

end Terms

end PeerChat
