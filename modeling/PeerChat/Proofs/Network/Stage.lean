import PeerChat.Proofs.Client.Inbox
import PeerChat.Proofs.Client.Moves
import PeerChat.Proofs.Network.Knowledge
import PeerChat.Proofs.Server.Jobs

/-!
# The stages of a connection

From its beginning to its end a connection goes through stages, in each of which it is known what its
client awaits, what it has sent that is not read, and what its handler has still to do.
-/

namespace PeerChat

/-- The bytes of commands on their way. -/
def Command.bytesAll (commands : List Command) : Bytes := commands.flatMap bytes

theorem Command.bytes_ne_nil (c : Command) : c.bytes ≠ [] := by
  have hend : Utf8.encode "\n" ≠ [] := by decide
  rw [bytes, line, Line.write_line, Utf8.encode_append]
  exact fun h => hend (List.append_eq_nil_iff.mp h).2

theorem Command.bytesAll_append (commands later : List Command) :
    bytesAll (commands ++ later) = bytesAll commands ++ bytesAll later := List.flatMap_append

theorem Command.bytesAll_eq_nil {commands : List Command} (h : bytesAll commands = []) :
    commands = [] := by
  cases commands with
  | nil => rfl
  | cons c later =>
    rw [bytesAll, List.flatMap_cons] at h
    exact absurd (List.append_eq_nil_iff.mp h).1 c.bytes_ne_nil

namespace ServerMessage

/-- A registration is refused with the message. -/
def Refuses (m : ServerMessage) : Prop := m = .nameTaken ∨ m = .serverFull

theorem Refuses.valid {m : ServerMessage} (h : m.Refuses) : m.Valid := by
  rcases h with rfl | rfl
  · exact fun a hm => List.mem_singleton.mp hm ▸ trivial
  · exact fun a hm => List.mem_singleton.mp hm ▸ trivial

/-- It is read in one line, and tells that there is no registration. -/
theorem Refuses.announcement {m : ServerMessage} (h : m.Refuses) :
    ∃ a outcome, m.announcements = [a] ∧ SignUp.ofAnnouncement a = some outcome ∧
      outcome ≠ .registered := by
  rcases h with rfl | rfl
  · exact ⟨.nameTaken, .nameTaken, rfl, rfl, by simp⟩
  · exact ⟨.serverFull, .rejected .serverFull, rfl, rfl, by simp⟩

end ServerMessage

/-! ## Before the registration -/

/-- A connection on which nothing is registered: where its client stands, what the server has not
read of it, what its handler has to do, and what is coming for the client. -/
inductive Unregistered : Stand → Bytes → List Job → Bytes → Prop
  | choosing {inbox : Inbox} {names : List String} {coming : Bytes}
      (reads : inbox.Reads (notices names) coming) :
      Unregistered (.choosing inbox) [] [] coming
  /-- The registration is on its way. -/
  | asked {name : String} {port : UInt16} {inbox : Inbox} {names : List String} {coming : Bytes}
      (valid : (Command.register name port).Valid) (reads : inbox.Reads (notices names) coming) :
      Unregistered (.signing name inbox) (Command.register name port).bytes [] coming
  | refusing {name : String} {inbox : Inbox} {names : List String} {m : ServerMessage}
      {coming : Bytes} (refuses : m.Refuses) (reads : inbox.Reads (notices names) coming) :
      Unregistered (.signing name inbox) [] [.reply m] coming
  /-- The refusal is on its way. -/
  | refused {name : String} {inbox : Inbox} {names later : List String} {m : ServerMessage}
      {coming : Bytes} (refuses : m.Refuses)
      (reads : inbox.Reads (notices names ++ m.announcements ++ notices later) coming) :
      Unregistered (.signing name inbox) [] [] coming

theorem Unregistered.stand_ne {stand : Stand} {up : Bytes} {jobs : List Job} {coming : Bytes}
    (h : Unregistered stand up jobs coming) : stand ≠ .apart ∧ stand ≠ .reaching := by
  cases h with
  | choosing reads => simp
  | asked valid reads => simp
  | refusing refuses reads => simp
  | refused refuses reads => simp

theorem Unregistered.of_choosing {inbox : Inbox} {up : Bytes} {jobs : List Job} {coming : Bytes}
    (h : Unregistered (.choosing inbox) up jobs coming) :
    up = [] ∧ jobs = [] ∧ ∃ names, inbox.Reads (notices names) coming := by
  cases h with
  | choosing reads => exact ⟨rfl, rfl, _, reads⟩

/-- What is not read of a client that awaits a reply is its registration. -/
theorem Unregistered.of_signing {name : String} {inbox : Inbox} {up : Bytes} {jobs : List Job}
    {coming : Bytes} (h : Unregistered (.signing name inbox) up jobs coming) (hup : up ≠ []) :
    jobs = [] ∧ ∃ port, (Command.register name port).Valid ∧
      up = (Command.register name port).bytes := by
  cases h with
  | @asked name port _ _ _ valid reads => exact ⟨rfl, port, valid, rfl⟩
  | refusing refuses reads => exact absurd rfl hup
  | refused refuses reads => exact absurd rfl hup

theorem Unregistered.not_linked {l : Link} {up : Bytes} {jobs : List Job} {coming : Bytes} :
    ¬ Unregistered (.linked l) up jobs coming := by
  intro h
  cases h

theorem Unregistered.receive {stand : Stand} {up : Bytes} {jobs : List Job} {bytes rest : Bytes}
    (h : Unregistered stand up jobs (bytes ++ rest)) :
    Unregistered (stand.receive bytes) up jobs rest := by
  generalize hc : bytes ++ rest = coming at h
  cases h with
  | choosing reads => exact .choosing (hc ▸ reads).receive
  | asked valid reads => exact .asked valid (hc ▸ reads).receive
  | refusing refuses reads => exact .refusing refuses (hc ▸ reads).receive
  | refused refuses reads => exact .refused refuses (hc ▸ reads).receive

/-- A notice is queued. -/
theorem Unregistered.notice {stand : Stand} {up : Bytes} {jobs : List Job} {coming : Bytes}
    (h : Unregistered stand up jobs coming) {name : String} (hn : isName name = true) :
    Unregistered stand up jobs (coming ++ Utf8.encode (ServerMessage.newcomer name).text) := by
  have hvalid := ServerMessage.valid_newcomer hn
  have hextend : ∀ {i : Inbox} {names : List String}, i.Reads (notices names) coming →
      i.Reads (notices (names ++ [name]))
        (coming ++ Utf8.encode (ServerMessage.newcomer name).text) := by
    intro i names hr
    rw [notices_append]
    exact hr.extend hvalid
  cases h with
  | choosing reads => exact .choosing (hextend reads)
  | asked valid reads => exact .asked valid (hextend reads)
  | refusing refuses reads => exact .refusing refuses (hextend reads)
  | @refused _ _ names later m _ refuses reads =>
    have hreads := reads.extend hvalid
    rw [List.append_assoc _ (notices later)] at hreads
    exact .refused refuses (notices_append later [name] ▸ hreads)

/-- The refusal is queued. -/
theorem Unregistered.answer {stand : Stand} {up : Bytes} {m : ServerMessage} {jobs : List Job}
    {coming : Bytes} (h : Unregistered stand up (.reply m :: jobs) coming) :
    Unregistered stand up jobs (coming ++ Utf8.encode m.text) := by
  cases h with
  | @refusing name inbox names _ _ refuses reads =>
    have hreads : inbox.Reads (notices names ++ m.announcements ++ notices [])
        (coming ++ Utf8.encode m.text) := by
      rw [show notices [] = [] from rfl, List.append_nil]
      exact reads.extend refuses.valid
    exact .refused refuses hreads

/-- Whatever is queued, it is no list. -/
theorem Unregistered.reply_not_list {stand : Stand} {up : Bytes} {m : ServerMessage}
    {jobs : List Job} {coming : Bytes} (h : Unregistered stand up (.reply m :: jobs) coming) :
    m.isList = false := by
  cases h with
  | refusing refuses reads =>
    rcases refuses with rfl | rfl
    · rfl
    · rfl

theorem Unregistered.reply_of_mem {stand : Stand} {up : Bytes} {jobs : List Job} {coming : Bytes}
    (h : Unregistered stand up jobs coming) {job : Job} (hm : job ∈ jobs) : ∃ m, job = .reply m := by
  cases h with
  | choosing reads => exact absurd hm List.not_mem_nil
  | asked valid reads => exact absurd hm List.not_mem_nil
  | @refusing _ _ _ m _ refuses reads => exact ⟨m, List.mem_singleton.mp hm⟩
  | refused refuses reads => exact absurd hm List.not_mem_nil

theorem Unregistered.not_job {stand : Stand} {up : Bytes} {job : Job} {jobs : List Job}
    {coming : Bytes} (hj : ∀ m, job ≠ .reply m) : ¬ Unregistered stand up (job :: jobs) coming := by
  intro h
  obtain ⟨m, rfl⟩ := h.reply_of_mem (List.mem_cons_self ..)
  exact hj m rfl

/-- The client reads on. -/
theorem Unregistered.waits {name : String} {inbox later : Inbox} {up : Bytes} {jobs : List Job}
    {coming : Bytes} (h : Unregistered (.signing name inbox) up jobs coming)
    (hr : inbox.awaitReply = (none, later)) :
    Unregistered (.signing name later) up jobs coming := by
  have honly : ∀ {names : List String}, inbox.Reads (notices names) coming →
      ∃ left, later.Reads (notices left) coming := by
    intro names hreads
    rw [← List.append_nil (notices names)] at hreads
    rcases hreads.awaitReply (by simp) with ⟨a, as, outcome, j, hnil, -, -, -⟩ | ⟨left, j, hj, hl⟩
    · exact absurd hnil (by simp)
    · rw [hr] at hj
      obtain ⟨-, rfl⟩ := Prod.mk.inj hj
      exact ⟨left, by rwa [List.append_nil] at hl⟩
  cases h with
  | asked valid reads =>
    obtain ⟨left, hl⟩ := honly reads
    exact .asked valid hl
  | refusing refuses reads =>
    obtain ⟨left, hl⟩ := honly reads
    exact .refusing refuses hl
  | refused refuses reads =>
    obtain ⟨a, outcome, ha, ho, -⟩ := refuses.announcement
    rw [ha, List.append_assoc] at reads
    rcases reads.awaitReply (by simp [ho]) with ⟨_, _, _, _, _, -, hj, -⟩ | ⟨left, j, hj, hl⟩
    · rw [hr] at hj
      exact absurd (Prod.mk.inj hj).1 (by simp)
    · rw [hr] at hj
      obtain ⟨-, rfl⟩ := Prod.mk.inj hj
      rw [← List.append_assoc, ← ha] at hl
      exact .refused refuses hl

/-- The client finds a reply, which is a refusal; the connection can be used again. -/
theorem Unregistered.replied {name : String} {inbox later : Inbox} {outcome : SignUp} {up : Bytes}
    {jobs : List Job} {coming : Bytes} (h : Unregistered (.signing name inbox) up jobs coming)
    (hr : inbox.awaitReply = (some outcome, later)) :
    outcome ≠ .registered ∧ up = [] ∧ Unregistered (.choosing later) up jobs coming := by
  have honly : ∀ {names : List String}, ¬ inbox.Reads (notices names) coming := by
    intro names hreads
    rw [← List.append_nil (notices names)] at hreads
    rcases hreads.awaitReply (by simp) with ⟨a, as, outcome, j, hnil, -, -, -⟩ | ⟨left, j, hj, hl⟩
    · exact absurd hnil (by simp)
    · rw [hr] at hj
      exact absurd (Prod.mk.inj hj).1 (by simp)
  cases h with
  | asked valid reads => exact absurd reads honly
  | refusing refuses reads => exact absurd reads honly
  | refused refuses reads =>
    obtain ⟨a, told, ha, ho, hne⟩ := refuses.announcement
    rw [ha, List.append_assoc] at reads
    rcases reads.awaitReply (by simp [ho]) with ⟨b, as, _, j, he, hb, hj, hl⟩ | ⟨left, j, hj, hl⟩
    · obtain ⟨rfl, rfl⟩ := List.cons.inj he
      rw [hr] at hj
      obtain ⟨hoj, rfl⟩ := Prod.mk.inj hj
      rw [ho] at hb
      rw [Option.some.inj hoj, ← Option.some.inj hb]
      exact ⟨hne, rfl, .choosing hl⟩
    · rw [hr] at hj
      exact absurd (Prod.mk.inj hj).1 (by simp)

/-! ## After the registration -/

/-- A job of a connection that goes on. -/
def Job.GoesOn : Job → Prop
  | .reply m => m.isList = true ∧ m.Valid
  | .announce _ | .deliver _ _ => True
  | .withdraw | .forget => False

/-- What a handler is still to reply. -/
def Job.replies (jobs : List Job) : List ServerMessage :=
  jobs.filterMap fun
    | .reply m => some m
    | _ => none

/-- What a linked client sends before it leaves. -/
def Command.GoesOn : Command → Prop
  | .listPeers => True
  | .reportGone name => isName name = true
  | .register _ _ | .remove _ => False

/-- No list has been queued. -/
def NoList (told : List ServerMessage) : Prop := ∀ m ∈ told, m.isList = false

/-- A connection registered under a name: where its client stands, what the server has not read of
it, what its handler has to do, what was queued for the client, and what of that is coming.  With
these, the updates that are ahead of the client and the commands that the server has not read. -/
inductive Registered : Stand → String → Bytes → List Job → List ServerMessage → Bytes →
    List Update → List Command → Prop
  /-- The first list is about to be queued. -/
  | admitting {name : String} {inbox : Inbox} {names : List String} {others : List Peer}
      {told : List ServerMessage} {coming : Bytes} (valid : ∀ p ∈ others, p.Valid)
      (early : NoList told) (reads : inbox.Reads (notices names) coming) :
      Registered (.signing name inbox) name []
        [.reply (.peerList others), .announce (.newcomer name)] told coming [] []
  /-- The first list is on its way. -/
  | admitted {name : String} {inbox : Inbox} {names : List String} {as : List Announcement}
      {jobs : List Job} {told : List ServerMessage} {coming : Bytes}
      (goesOn : ∀ job ∈ jobs, job.GoesOn) (answered : Job.replies jobs = [])
      (reads : inbox.Reads (notices names ++ .listHeader :: as) coming) :
      Registered (.signing name inbox) name [] jobs told coming
        (.peerList [] :: (Listing.opened.pushAll as).2) []
  | linked {l : Link} {as : List Announcement} {commands : List Command} {jobs : List Job}
      {told : List ServerMessage} {coming : Bytes} (goesOn : ∀ job ∈ jobs, job.GoesOn)
      (valid : ValidAll as) (awaits : l.listener.Awaits as coming)
      (sent : ∀ c ∈ commands, c.GoesOn) :
      Registered (.linked l) l.name (Command.bytesAll commands) jobs told coming (l.ahead as) commands

theorem Listener.Awaits.extend {l : Listener} {as : List Announcement} {coming : Bytes}
    (h : l.Awaits as coming) {m : ServerMessage} (hm : m.Valid) :
    l.Awaits (as ++ m.announcements) (coming ++ Utf8.encode m.text) := by
  refine ⟨h.finished, h.pending, ?_, h.incomplete⟩
  rw [List.map_append, Line.writeAll_append, ← h.unread, ServerMessage.encode_text hm,
    List.append_assoc]

/-- A registered connection, and what its client, who lists `peers`, knows or will ask about. -/
def Informed (entries : List Entry) (awaited : String → Prop) (stand : Stand) (peers : List Peer)
    (name : String) (up : Bytes) (jobs : List Job) (told : List ServerMessage) (coming : Bytes) :
    Prop :=
  ∃ ahead commands, Registered stand name up jobs told coming ahead commands ∧
    Knows entries awaited name told (Job.replies jobs) peers ahead commands

namespace Informed

variable {entries entries' : List Entry} {awaited awaited' : String → Prop} {stand : Stand}
  {peers : List Peer} {name : String} {up : Bytes} {jobs : List Job} {told : List ServerMessage}
  {coming : Bytes}

theorem stand_ne (h : Informed entries awaited stand peers name up jobs told coming) :
    stand ≠ .apart ∧ stand ≠ .reaching := by
  obtain ⟨ahead, commands, hr, -⟩ := h
  cases hr with
  | admitting valid early reads => simp
  | admitted goesOn answered reads => simp
  | linked goesOn valid awaits sent => simp

theorem not_choosing {inbox : Inbox} :
    ¬ Informed entries awaited (.choosing inbox) peers name up jobs told coming := by
  rintro ⟨ahead, commands, hr, -⟩
  cases hr

theorem of_signing {other : String} {inbox : Inbox}
    (h : Informed entries awaited (.signing other inbox) peers name up jobs told coming) : up = [] := by
  obtain ⟨ahead, commands, hr, -⟩ := h
  cases hr with
  | admitting valid early reads => rfl
  | admitted goesOn answered reads => rfl

theorem mono (h : Informed entries awaited stand peers name up jobs told coming)
    (he : ∀ e ∈ entries', e ∈ entries ∨ e.peer.name = name ∨ awaited' e.peer.name)
    (ha : ∀ other, awaited other → awaited' other) :
    Informed entries' awaited' stand peers name up jobs told coming := by
  obtain ⟨ahead, commands, hr, hk⟩ := h
  exact ⟨ahead, commands, hr, hk.mono he ha⟩

/-- Bytes arrive. -/
theorem receive {bytes rest : Bytes}
    (h : Informed entries awaited stand peers name up jobs told (bytes ++ rest)) :
    Informed entries awaited (stand.receive bytes) peers name up jobs told rest := by
  obtain ⟨ahead, commands, hr, hk⟩ := h
  generalize hc : bytes ++ rest = coming at hr
  cases hr with
  | admitting valid early reads =>
    exact ⟨_, _, .admitting valid early (hc ▸ reads).receive, hk⟩
  | admitted goesOn answered reads =>
    exact ⟨_, _, .admitted goesOn answered (hc ▸ reads).receive, hk⟩
  | @linked l as commands _ _ _ goesOn valid awaits sent =>
    obtain ⟨left, hleft, hlast, halike⟩ := Link.receive_spec valid (hc ▸ awaits)
    exact ⟨_, _, .linked (l := l.receive bytes) goesOn (fun a ha => valid a (hleft.subset ha)) hlast
      sent, hk.alike halike.toAlike⟩

/-- A notice is queued. -/
theorem notice {other : String} (h : Informed entries awaited stand peers name up jobs told coming)
    (hn : isName other = true)
    (ha : ∀ another, awaited another → another = other ∨ awaited' another) :
    Informed entries awaited' stand peers name up jobs (told ++ [.newcomer other])
      (coming ++ Utf8.encode (ServerMessage.newcomer other).text) := by
  have hvalid := ServerMessage.valid_newcomer hn
  obtain ⟨ahead, commands, hr, hk⟩ := h
  cases hr with
  | @admitting _ inbox names others _ _ valid early reads =>
    have hreads := reads.extend hvalid
    refine ⟨_, _, .admitting valid ?_ (notices_append names [other] ▸ hreads), ?_⟩
    · intro m hm
      rcases List.mem_append.mp hm with hm | hm
      · exact early m hm
      · rw [List.mem_singleton.mp hm]
        rfl
    · exact hk.notice_early early ha
  | @admitted _ inbox names as _ _ _ goesOn answered reads =>
    have hreads := reads.extend hvalid
    rw [List.append_assoc, List.cons_append] at hreads
    have halike : Alike ((.peerList [] :: (Listing.opened.pushAll as).2) ++ [.newcomer other])
        (.peerList [] :: (Listing.opened.pushAll
          (as ++ (ServerMessage.newcomer other).announcements)).2) := by
      rw [Listing.pushAll_append]
      exact .refl _
    exact ⟨_, _, .admitted goesOn answered hreads, .notice halike⟩
  | @linked l as commands _ _ _ goesOn valid awaits sent =>
    exact ⟨_, _, .linked goesOn (valid.append hvalid) (awaits.extend hvalid) sent,
      .notice (Link.ahead_append l as (.inr ⟨other, rfl⟩))⟩

/-- The next reply, a list, is queued. -/
theorem answer {m : ServerMessage}
    (h : Informed entries awaited stand peers name up (.reply m :: jobs) told coming) :
    Informed entries awaited stand peers name up jobs (told ++ [m])
      (coming ++ Utf8.encode m.text) := by
  obtain ⟨ahead, commands, hr, hk⟩ := h
  cases hr with
  | @admitting _ inbox names others _ _ valid early reads =>
    have hreads := reads.extend (ServerMessage.valid_peerList valid)
    refine ⟨_, _, .admitted ?_ rfl hreads, hk.answer rfl (Listing.pushAll_peers [] others).symm⟩
    intro job hm
    rw [List.mem_singleton.mp hm]
    trivial
  | @admitted _ inbox names as _ _ _ goesOn answered reads =>
    exact absurd answered (by simp [Job.replies])
  | @linked l as commands _ _ _ goesOn valid awaits sent =>
    obtain ⟨hlist, hvalid⟩ := goesOn _ (List.mem_cons_self ..)
    refine ⟨_, _, .linked (fun job hm => goesOn job (List.mem_cons_of_mem _ hm))
      (valid.append hvalid) (awaits.extend hvalid) sent, ?_⟩
    exact hk.answer hlist (Link.ahead_append l as (.inl hlist))

theorem goesOn {job : Job} (h : Informed entries awaited stand peers name up jobs told coming)
    (hm : job ∈ jobs) : job.GoesOn := by
  obtain ⟨ahead, commands, hr, -⟩ := h
  cases hr with
  | admitting valid early reads =>
    rcases List.mem_cons.mp hm with rfl | hm
    · exact ⟨rfl, ServerMessage.valid_peerList valid⟩
    · rw [List.mem_singleton.mp hm]
      trivial
  | admitted goesOn answered reads => exact goesOn job hm
  | linked goesOn valid awaits sent => exact goesOn job hm

/-- The handler goes on with jobs that are no replies. -/
theorem setJobs {jobs' : List Job}
    (h : Informed entries awaited stand peers name up jobs told coming)
    (hhead : ∀ m later, jobs ≠ .reply m :: later) (hj : ∀ job ∈ jobs', job ∈ jobs ∨ job.GoesOn)
    (hr : Job.replies jobs' = Job.replies jobs) :
    Informed entries awaited stand peers name up jobs' told coming := by
  obtain ⟨ahead, commands, hr', hk⟩ := h
  have hall : (∀ job ∈ jobs, job.GoesOn) → ∀ job ∈ jobs', job.GoesOn := by
    intro hg job hm
    rcases hj job hm with hm | hgo
    · exact hg job hm
    · exact hgo
  rw [← hr] at hk
  cases hr' with
  | admitting valid early reads => exact absurd rfl (hhead _ _)
  | admitted goesOn answered reads =>
    exact ⟨_, _, .admitted (hall goesOn) (hr.trans answered) reads, hk⟩
  | linked goesOn valid awaits sent => exact ⟨_, _, .linked (hall goesOn) valid awaits sent, hk⟩

/-! ### What the client does -/

/-- The client reads on. -/
theorem waits {other : String} {inbox later : Inbox}
    (h : Informed entries awaited (.signing other inbox) peers name up jobs told coming)
    (hr : inbox.awaitReply = (none, later)) :
    Informed entries awaited (.signing other later) peers name up jobs told coming := by
  obtain ⟨ahead, commands, hreg, hk⟩ := h
  cases hreg with
  | @admitting _ _ names others _ _ valid early reads =>
    rw [← List.append_nil (notices names)] at reads
    rcases reads.awaitReply (by simp) with ⟨_, _, _, _, hnil, -, -, -⟩ | ⟨left, j, hj, hl⟩
    · exact absurd hnil (by simp)
    · rw [hr] at hj
      obtain ⟨-, rfl⟩ := Prod.mk.inj hj
      rw [List.append_nil] at hl
      exact ⟨_, _, .admitting valid early hl, hk⟩
  | admitted goesOn answered reads =>
    rcases reads.awaitReply (by simp [SignUp.ofAnnouncement]) with
      ⟨_, _, _, _, _, -, hj, -⟩ | ⟨left, j, hj, hl⟩
    · rw [hr] at hj
      exact absurd (Prod.mk.inj hj).1 (by simp)
    · rw [hr] at hj
      obtain ⟨-, rfl⟩ := Prod.mk.inj hj
      exact ⟨_, _, .admitted goesOn answered hl, hk⟩

/-- The client finds the reply, and is linked. -/
theorem replied {other : String} {inbox later : Inbox} {outcome : SignUp}
    (h : Informed entries awaited (.signing other inbox) peers name up jobs told coming)
    (hr : inbox.awaitReply = (some outcome, later)) :
    outcome = .registered ∧
      Informed entries awaited (.linked (.ofInbox other later)) peers name up jobs told coming := by
  obtain ⟨ahead, commands, hreg, hk⟩ := h
  cases hreg with
  | @admitting _ _ names others _ _ valid early reads =>
    rw [← List.append_nil (notices names)] at reads
    rcases reads.awaitReply (by simp) with ⟨_, _, _, _, hnil, -, -, -⟩ | ⟨left, j, hj, hl⟩
    · exact absurd hnil (by simp)
    · rw [hr] at hj
      exact absurd (Prod.mk.inj hj).1 (by simp)
  | admitted goesOn answered reads =>
    rcases reads.awaitReply (by simp [SignUp.ofAnnouncement]) with
      ⟨a, as, found, j, he, ho, hj, hl⟩ | ⟨left, j, hj, hl⟩
    · obtain ⟨rfl, rfl⟩ := List.cons.inj he
      rw [hr] at hj
      obtain ⟨hoj, rfl⟩ := Prod.mk.inj hj
      have houtcome : outcome = .registered := by
        rw [Option.some.inj hoj, ← Option.some.inj ho]
      obtain ⟨left, hleft, hlast, halike⟩ := Link.ofInbox_spec name hl.ended hl.sees.1 hl.unread
      have hlinked : Registered (.linked (.ofInbox name later)) (Link.ofInbox name later).name
          (Command.bytesAll []) jobs told coming ((Link.ofInbox name later).ahead left) [] :=
        .linked goesOn (fun a ha => hl.sees.1 a (hleft.subset ha)) hlast (by simp)
      rw [Link.name_ofInbox] at hlinked
      exact ⟨houtcome, _, _, hlinked, hk.alike halike.toAlike⟩
    · rw [hr] at hj
      exact absurd (Prod.mk.inj hj).1 (by simp)

variable {l : Link}

/-- With nothing on its way, a linked client that has attended to everything lists the last list. -/
theorem at_rest (h : Informed entries awaited (.linked l) peers name up [] told coming)
    (hup : up = []) (hcoming : coming = []) (hl : l.updates = []) :
    peers = latest [] (told.map ServerMessage.update) ∧ ∀ e ∈ entries, e.peer.name ≠ name →
      awaited e.peer.name ∨ Listed told e.peer ∨ Overtaken told e.peer := by
  obtain ⟨ahead, commands, hreg, hk⟩ := h
  cases hreg with
  | @linked _ as commands _ _ _ goesOn valid awaits sent =>
    obtain rfl := Command.bytesAll_eq_nil hup
    rw [hcoming] at awaits
    obtain rfl := awaits.eq_nil valid
    have hheld : l.listener.held = [] := by rw [Listener.held, awaits.pending]
    have hahead : l.ahead [] = [] := by rw [Link.ahead, Listener.ahead, hl, hheld]; rfl
    rw [hahead] at hk
    rcases hk with (hk | hk) | hk
    · exact absurd rfl hk
    · exact absurd hk List.not_mem_nil
    · have hsame := hk.same
      have hknown := hk.known
      rw [show Job.replies [] = [] from rfl, List.append_nil] at hsame hknown
      exact ⟨hsame, hknown⟩

/-- What a linked client has sent goes on, until it leaves. -/
theorem linked (h : Informed entries awaited (.linked l) peers name up jobs told coming) :
    l.name = name ∧ l.listener.finished = false ∧ (∀ job ∈ jobs, job.GoesOn) ∧
      ∃ commands, up = Command.bytesAll commands ∧ ∀ c ∈ commands, c.GoesOn := by
  obtain ⟨ahead, commands, hreg, hk⟩ := h
  cases hreg with
  | linked goesOn valid awaits sent => exact ⟨rfl, awaits.finished, goesOn, commands, rfl, sent⟩

/-- The client sends more. -/
theorem sends {l' : Link} {peers' : List Peer} {more : List Command}
    (h : Informed entries awaited (.linked l) peers name up jobs told coming)
    (hname : l'.name = l.name) (hlistener : l'.listener = l.listener)
    (hmore : ∀ c ∈ more, c.GoesOn)
    (hk : ∀ as commands, Knows entries awaited name told (Job.replies jobs) peers (l.ahead as) commands →
      Knows entries awaited name told (Job.replies jobs) peers' (l'.ahead as) (commands ++ more)) :
    Informed entries awaited (.linked l') peers' name (up ++ Command.bytesAll more) jobs told
      coming := by
  obtain ⟨ahead, commands, hreg, hknows⟩ := h
  cases hreg with
  | @linked _ as _ _ _ _ goesOn valid awaits sent =>
    have hsent : ∀ c ∈ commands ++ more, c.GoesOn := by
      intro c hm
      rcases List.mem_append.mp hm with hm | hm
      · exact sent c hm
      · exact hmore c hm
    have hbytes : Command.bytesAll (commands ++ more) =
        Command.bytesAll commands ++ Command.bytesAll more := List.flatMap_append
    have hlinked : Registered (.linked l') l'.name (Command.bytesAll (commands ++ more)) jobs told
        coming (l'.ahead as) (commands ++ more) :=
      .linked goesOn valid (hlistener ▸ awaits) hsent
    rw [hname, hbytes] at hlinked
    exact ⟨_, _, hlinked, hk as commands hknows⟩

theorem asks (h : Informed entries awaited (.linked l) peers name up jobs told coming) :
    Informed entries awaited (.linked l) peers name (up ++ Command.bytesAll [.listPeers]) jobs told
      coming :=
  h.sends rfl rfl (by simp [Command.GoesOn]) fun as commands _ => .ask (by simp)

theorem attends {update : Update} {updates : List Update}
    (h : Informed entries awaited (.linked l) peers name up jobs told coming)
    (hu : l.updates = update :: updates) :
    Informed entries awaited (.linked { l with updates }) (latest peers [update]) name
      (up ++ Command.bytesAll ((alerts [update]).map fun _ => .listPeers)) jobs told coming := by
  refine h.sends rfl rfl ?_ fun as commands hk => ?_
  · intro c hm
    obtain ⟨_, _, rfl⟩ := List.mem_map.mp hm
    trivial
  · have hahead : l.ahead as = update :: Link.ahead { l with updates } as := by
      rw [Link.ahead, hu]
      rfl
    rw [hahead] at hk
    exact hk.attend

theorem reports {gone : String} {peers' : List Peer}
    (h : Informed entries awaited (.linked l) peers name up jobs told coming)
    (hgone : isName gone = true) :
    Informed entries awaited (.linked l) peers' name
      (up ++ Command.bytesAll [.reportGone gone, .listPeers]) jobs told coming :=
  h.sends rfl rfl (by simp [Command.GoesOn, hgone]) fun as commands _ => .ask (by simp)

/-! ### What the server reads -/

/-- The next command of a linked client; a list that has everybody is the reply to a question. -/
theorem reads (h : Informed entries awaited stand peers name up [] told coming) :
    up = [] ∨
      (∃ rest, up = Command.listPeers.bytes ++ rest ∧ ∀ list, (∀ p ∈ list, p.Valid) →
        (∀ e ∈ entries, e.peer.name ≠ name → e.peer ∈ list) →
        Informed entries awaited stand peers name rest [.reply (.peerList list)] told coming) ∨
      ∃ gone rest, isName gone = true ∧ up = (Command.reportGone gone).bytes ++ rest ∧
        Informed entries awaited stand peers name rest [] told coming := by
  obtain ⟨ahead, commands, hreg, hk⟩ := h
  cases hreg with
  | admitted goesOn answered reads => exact .inl rfl
  | @linked l as commands _ _ _ goesOn valid awaits sent =>
    cases commands with
    | nil => exact .inl rfl
    | cons c later =>
      have hlater : ∀ d ∈ later, d.GoesOn := fun d hd => sent d (List.mem_cons_of_mem c hd)
      cases c with
      | register name port => exact (sent _ (List.mem_cons_self ..)).elim
      | remove name => exact (sent _ (List.mem_cons_self ..)).elim
      | listPeers =>
        refine .inr (.inl ⟨Command.bytesAll later, rfl, fun list hv he => ?_⟩)
        refine ⟨_, _, .linked ?_ valid awaits hlater, Knows.snapshot _ _ he⟩
        intro job hm
        rw [List.mem_singleton.mp hm]
        exact ⟨rfl, ServerMessage.valid_peerList hv⟩
      | reportGone gone =>
        refine .inr (.inr ⟨gone, Command.bytesAll later, sent _ (List.mem_cons_self ..), rfl,
          _, _, .linked goesOn valid awaits hlater, ?_⟩)
        rcases hk with (hk | hk) | hk
        · exact .inl (.inl hk)
        · exact .inl (.inr ((List.mem_cons.mp hk).resolve_left (by simp)))
        · exact .inr hk

end Informed

/-! ## At any time -/

/-- A connection that its client holds, before it is registered or after. -/
inductive Stage (entries : List Entry) (awaited : String → Prop) (stand : Stand)
    (peers : List Peer) (phase : Phase) (up : Bytes) (jobs : List Job) (told : List ServerMessage)
    (coming : Bytes) : Prop
  | unregistered (registering : phase = .registering) (early : NoList told)
      (stage : Unregistered stand up jobs coming)
  | registered {name : String} (registered : phase = .registered name) (valid : isName name = true)
      (informed : Informed entries awaited stand peers name up jobs told coming)

namespace Stage

variable {entries entries' : List Entry} {awaited awaited' : String → Prop} {stand : Stand}
  {peers : List Peer} {phase : Phase} {up : Bytes} {jobs : List Job} {told : List ServerMessage}
  {coming : Bytes}

theorem stand_ne (h : Stage entries awaited stand peers phase up jobs told coming) :
    stand ≠ .apart ∧ stand ≠ .reaching := by
  cases h with
  | unregistered registering early stage => exact stage.stand_ne
  | registered registered valid informed => exact informed.stand_ne

theorem not_closed (h : Stage entries awaited stand peers phase up jobs told coming) :
    phase ≠ .closed := by
  cases h with
  | unregistered registering early stage => simp [registering]
  | registered registered valid informed => simp [registered]

theorem of_choosing {inbox : Inbox}
    (h : Stage entries awaited (.choosing inbox) peers phase up jobs told coming) :
    phase = .registering ∧ NoList told ∧ up = [] ∧ jobs = [] ∧
      ∃ names, inbox.Reads (notices names) coming := by
  cases h with
  | unregistered registering early stage => exact ⟨registering, early, stage.of_choosing⟩
  | registered registered valid informed => exact absurd informed Informed.not_choosing

theorem of_signing {name : String} {inbox : Inbox}
    (h : Stage entries awaited (.signing name inbox) peers phase up jobs told coming)
    (hup : up ≠ []) : phase = .registering ∧ jobs = [] ∧ ∃ port,
      (Command.register name port).Valid ∧ up = (Command.register name port).bytes := by
  cases h with
  | unregistered registering early stage => exact ⟨registering, stage.of_signing hup⟩
  | registered registered valid informed => exact absurd informed.of_signing hup

theorem of_linked {l : Link}
    (h : Stage entries awaited (.linked l) peers phase up jobs told coming) :
    phase = .registered l.name ∧ isName l.name = true ∧
      Informed entries awaited (.linked l) peers l.name up jobs told coming := by
  cases h with
  | unregistered registering early stage => exact absurd stage Unregistered.not_linked
  | registered registered valid informed =>
    obtain ⟨rfl, -⟩ := informed.linked
    exact ⟨registered, valid, informed⟩

theorem mono (h : Stage entries awaited stand peers phase up jobs told coming)
    (he : ∀ e ∈ entries', e ∈ entries ∨ awaited' e.peer.name)
    (ha : ∀ other, awaited other → awaited' other) :
    Stage entries' awaited' stand peers phase up jobs told coming := by
  cases h with
  | unregistered registering early stage => exact .unregistered registering early stage
  | registered registered valid informed =>
    refine .registered registered valid (informed.mono (fun e hm => ?_) ha)
    rcases he e hm with hold | hnew
    · exact .inl hold
    · exact .inr (.inr hnew)

/-- Bytes arrive. -/
theorem receive {bytes rest : Bytes}
    (h : Stage entries awaited stand peers phase up jobs told (bytes ++ rest)) :
    Stage entries awaited (stand.receive bytes) peers phase up jobs told rest := by
  cases h with
  | unregistered registering early stage => exact .unregistered registering early stage.receive
  | registered registered valid informed => exact .registered registered valid informed.receive

/-- A notice is queued. -/
theorem notice {other : String}
    (h : Stage entries awaited stand peers phase up jobs told coming) (hn : isName other = true)
    (ha : ∀ another, awaited another → another = other ∨ awaited' another) :
    Stage entries awaited' stand peers phase up jobs (told ++ [.newcomer other])
      (coming ++ Utf8.encode (ServerMessage.newcomer other).text) := by
  cases h with
  | unregistered registering early stage =>
    refine .unregistered registering (fun m hm => ?_) (stage.notice hn)
    rcases List.mem_append.mp hm with hm | hm
    · exact early m hm
    · rw [List.mem_singleton.mp hm]
      rfl
  | registered registered valid informed =>
    exact .registered registered valid (informed.notice hn ha)

/-- The next reply is queued. -/
theorem answer {m : ServerMessage}
    (h : Stage entries awaited stand peers phase up (.reply m :: jobs) told coming) :
    Stage entries awaited stand peers phase up jobs (told ++ [m])
      (coming ++ Utf8.encode m.text) := by
  cases h with
  | unregistered registering early stage =>
    refine .unregistered registering (fun n hn => ?_) stage.answer
    rcases List.mem_append.mp hn with hn | hn
    · exact early n hn
    · rw [List.mem_singleton.mp hn]
      exact stage.reply_not_list
  | registered registered valid informed => exact .registered registered valid informed.answer

/-- The handler goes on with jobs that are no replies. -/
theorem setJobs {job : Job} {later jobs' : List Job}
    (h : Stage entries awaited stand peers phase up (job :: later) told coming)
    (hhead : ∀ m, job ≠ .reply m) (hj : ∀ job' ∈ jobs', job' ∈ job :: later ∨ job'.GoesOn)
    (hr : Job.replies jobs' = Job.replies (job :: later)) :
    Stage entries awaited stand peers phase up jobs' told coming := by
  cases h with
  | unregistered registering early stage => exact absurd stage (Unregistered.not_job hhead)
  | registered registered valid informed =>
    refine .registered registered valid (informed.setJobs (fun m later he => ?_) hj hr)
    exact hhead m (List.cons.inj he).1

/-- The jobs of a connection that goes on. -/
theorem goesOn {job : Job} (h : Stage entries awaited stand peers phase up jobs told coming)
    (hm : job ∈ jobs) : (∃ m, job = .reply m) ∨ job.GoesOn := by
  cases h with
  | unregistered registering early stage => exact .inl (stage.reply_of_mem hm)
  | registered registered valid informed => exact .inr (informed.goesOn hm)

/-! ### What the server reads -/

/-- The registration is read. -/
theorem registers (h : Stage entries awaited stand peers phase up [] told coming)
    (hp : phase = .registering) : up = [] ∨ ∃ name port, (Command.register name port).Valid ∧
      up = (Command.register name port).bytes ∧
      (∀ m, m.Refuses → Stage entries awaited stand peers phase [] [.reply m] told coming) ∧
      ∀ (entries : List Entry) (awaited : String → Prop) (others : List Peer),
        (∀ p ∈ others, p.Valid) → (∀ e ∈ entries, e.peer.name ≠ name → e.peer ∈ others) →
        Stage entries awaited stand peers (.registered name) []
          [.reply (.peerList others), .announce (.newcomer name)] told coming := by
  cases h with
  | unregistered registering early stage =>
    cases stage with
    | choosing reads => exact .inl rfl
    | @asked name port _ _ _ valid reads =>
      refine .inr ⟨name, port, valid, rfl, fun m hm => ?_, fun entries awaited others hv he => ?_⟩
      · exact .unregistered registering early (.refusing hm reads)
      · exact .registered rfl valid.1 ⟨_, _, .admitting hv early reads, .snapshot _ _ he⟩
    | refused refuses reads => exact .inl rfl
  | registered registered valid informed => exact absurd (hp.symm.trans registered) (by simp)

/-- The next command of a registered client is read. -/
theorem reads {own : String} (h : Stage entries awaited stand peers phase up [] told coming)
    (hp : phase = .registered own) : up = [] ∨
      (∃ rest, up = Command.listPeers.bytes ++ rest ∧ ∀ list, (∀ p ∈ list, p.Valid) →
        (∀ e ∈ entries, e.peer.name ≠ own → e.peer ∈ list) →
        Stage entries awaited stand peers phase rest [.reply (.peerList list)] told coming) ∨
      ∃ gone rest, isName gone = true ∧ up = (Command.reportGone gone).bytes ++ rest ∧
        Stage entries awaited stand peers phase rest [] told coming := by
  cases h with
  | unregistered registering early stage => exact absurd (hp.symm.trans registering) (by simp)
  | @registered name registered valid informed =>
    obtain rfl : own = name := Phase.registered.inj (hp.symm.trans registered)
    rcases informed.reads with hnil | ⟨rest, hup, hlist⟩ | ⟨gone, rest, hgone, hup, hrest⟩
    · exact .inl hnil
    · exact .inr (.inl ⟨rest, hup, fun list hv he => .registered registered valid (hlist list hv he)⟩)
    · exact .inr (.inr ⟨gone, rest, hgone, hup, .registered registered valid hrest⟩)

end Stage

end PeerChat
